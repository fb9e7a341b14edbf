import Lox.Machine
import Lox.Computation

/-!
# What the machine can fail with

Each thing that the machine does either faults, or makes an error at its instruction, or is refused output.

* `Execution.pop_failsOnly`, ... : what only faults;
* `Execution.perform_failsOnly` : what an instruction can fail with; only `print` is refused output;
* `Execution.loadConstants_failsOnly` : what loading can fail with.
-/

namespace Lox

namespace Execution

variable {α : Type} {P : Failure → Prop} (hP : ∀ f, P (.fault f))

include hP

theorem fault_failsOnly (f : Fault) : FailsOnly P (fault f : Execution α) :=
  .of_throw (hP f)

theorem pop_failsOnly : FailsOnly P pop := by
  intro m f m' h
  unfold pop at h
  split at h <;> cases h
  exact hP _

theorem top_failsOnly : FailsOnly P top := by
  refine .bind .of_get fun m => ?_
  cases m.stack with
  | nil => exact fault_failsOnly hP _
  | cons v rest => exact .of_pure v

theorem place_failsOnly (slot : UInt8) : FailsOnly P (place slot) := by
  refine .bind .of_get fun m => ?_
  by_cases hslot : slot.toNat < m.stack.length
  · rw [if_pos hslot]
    exact .of_pure _
  · rw [if_neg hslot]
    exact fault_failsOnly hP _

theorem decode_failsOnly (d : Decoder α) : FailsOnly P (decode d) := by
  intro m f m' h
  unfold decode at h
  split at h <;> cases h
  exact hP _

theorem constant_failsOnly : FailsOnly P constant := by
  refine .bind (decode_failsOnly hP _) fun i => .bind .of_get fun m => ?_
  cases m.constants[i.toNat]? with
  | some v => exact .of_pure _
  | none => exact fault_failsOnly hP _

theorem globalName_failsOnly : FailsOnly P globalName := by
  refine .bind (constant_failsOnly hP) fun c => ?_
  obtain ⟨i, v⟩ := c
  cases v with
  | string name => exact .of_pure name
  | _ => exact fault_failsOnly hP _

theorem jumpWhen_failsOnly (holds : Bool) : FailsOnly P (jumpWhen holds) := by
  refine .bind (decode_failsOnly hP _) fun distance => .bind (top_failsOnly hP) fun v => ?_
  by_cases hv : v.truthy = holds
  · rw [if_pos hv]
    exact decode_failsOnly hP _
  · rw [if_neg hv]
    exact .of_pure ()

omit hP in
theorem raise_failsOnly {offset : Nat} {e : Span → RuntimeError} (he : ∀ s, P (.runtime (e s))) :
    FailsOnly P (raise offset e : Execution α) :=
  .bind .of_get fun _ => .of_throw (he _)

omit hP in
theorem printLine_failsOnly (hprint : ∀ e, P (.runtime (.output e))) (text : String) : FailsOnly P (printLine text) := by
  intro m f m' h
  unfold printLine at h
  split at h <;> cases h
  exact hprint _

/-- An instruction faults, or makes an error that has a place; only `print` is refused output. -/
theorem perform_failsOnly (hraise : ∀ e : RuntimeError, e.span?.isSome → P (.runtime e)) {op : Opcode}
    (hprint : op = .print → ∀ e, P (.runtime (.output e))) (offset : Nat) : FailsOnly P (perform offset op) := by
  have hpush : ∀ v, FailsOnly P (push v) := fun v => .of_modify _
  cases op with
  | nop => exact .of_pure ()
  | binary op =>
      refine .bind (pop_failsOnly hP) fun b => .bind (pop_failsOnly hP) fun a => ?_
      cases op.apply a b with
      | ok v => exact hpush v
      | error r => cases r <;> exact raise_failsOnly fun s => hraise _ rfl
  | unary op =>
      refine .bind (pop_failsOnly hP) fun v => ?_
      cases op.apply v with
      | ok r => exact hpush r
      | error r => exact raise_failsOnly fun s => hraise _ rfl
  | pushConstant => exact .bind (constant_failsOnly hP) fun c => hpush _
  | pushNil => exact hpush _
  | pushTrue => exact hpush _
  | pushFalse => exact hpush _
  | pop => exact .bind (pop_failsOnly hP) fun v => .of_pure ()
  | print => exact .bind (pop_failsOnly hP) fun v => printLine_failsOnly (hprint rfl) _
  | defineGlobal => exact .bind (globalName_failsOnly hP) fun name => .bind (pop_failsOnly hP) fun v => .of_modify _
  | setGlobal =>
      refine .bind (globalName_failsOnly hP) fun name => .bind (top_failsOnly hP) fun v => .bind .of_get fun m => ?_
      by_cases hname : m.globals.contains name = true
      · rw [if_pos hname]
        exact .of_modify _
      · rw [if_neg hname]
        exact raise_failsOnly fun s => hraise _ rfl
  | getGlobal =>
      refine .bind (globalName_failsOnly hP) fun name => .bind .of_get fun m => ?_
      cases m.globals[name]? with
      | some v => exact hpush v
      | none => exact raise_failsOnly fun s => hraise _ rfl
  | setLocal =>
      refine .bind (decode_failsOnly hP _) fun slot => .bind (top_failsOnly hP) fun v => ?_
      exact .bind (place_failsOnly hP slot) fun i => .of_modify _
  | getLocal =>
      refine .bind (decode_failsOnly hP _) fun slot => .bind (place_failsOnly hP slot) fun i => ?_
      exact .bind .of_get fun m => hpush _
  | jump => exact .bind (decode_failsOnly hP _) fun distance => decode_failsOnly hP _
  | jumpIfFalse => exact jumpWhen_failsOnly hP false
  | jumpIfTrue => exact jumpWhen_failsOnly hP true
  | jumpSigned => exact .bind (decode_failsOnly hP _) fun distance => decode_failsOnly hP _
  | trap => exact fault_failsOnly hP _

/-- Loading constants only faults. -/
theorem loadConstants_failsOnly (n : Nat) : FailsOnly P (loadConstants n) := by
  induction n with
  | zero => exact .of_pure ()
  | succ n ih =>
      refine .bind .of_get fun m => ?_
      by_cases hmarker : (m.reader.peek? == some Constant.marker) = true
      · rw [if_pos hmarker]
        refine .bind (decode_failsOnly hP _) fun e => .bind .of_get fun m' => ?_
        by_cases hindex : e.index.toNat = m'.constants.size
        · rw [if_pos hindex]
          exact .bind (.of_modify _) fun _ => ih
        · rw [if_neg hindex]
          exact fault_failsOnly hP _
      · rw [if_neg hmarker]
        exact .of_pure ()

end Execution

end Lox
