import Lox.Proofs.Stepping

/-!
# Two machines in step

Two machines that differ in something no program can see do the same, step by step.

* `Accord` : which machines and which failures are alike, and which failures only the first machine makes;
* `Accord.Results` : two results are alike; `Accord.Results.bind` carries this through a sequence;
* `Accord.Shares` : machines that are alike have the same stack, and the same variables among their globals; what uses
  only these keeps them alike;
* `Accord.SameCode` : they also read the same code; `Accord.SameCode.step` says that every step keeps them alike;
* `Accord.lockstep` : what a whole run comes to, from what one step does; `Accord.SameCode.execute` : what whole
  executions come to.
-/

namespace Lox

open Machine (Reaches)

def RuntimeError.relocate (s : Span) : RuntimeError → RuntimeError
  | unsupportedBinary op left right _ => unsupportedBinary op left right s
  | unsupportedUnary op operand _ => unsupportedUnary op operand s
  | divisionByZero _ => divisionByZero s
  | undefinedGlobal name _ => undefinedGlobal name s
  | output e => output e

/-- A way in which two machines can be alike. -/
structure Accord where
  machines : Machine → Machine → Prop
  failures : Failure → Failure → Prop
  /-- What only the first machine may fail with; nothing is said about the second then. -/
  excused : Failure → Prop

namespace Accord

variable {A : Accord} {α β : Type} {m n : Machine}

/-! ## Results -/

/-- Both computations succeed with the same value, or both fail, and leave machines that are alike. -/
inductive Results (A : Accord) {α : Type} :
    EStateM.Result Failure Machine α → EStateM.Result Failure Machine α → Prop where
  | ok (a : α) {m n : Machine} (h : A.machines m n) : Results A (.ok a m) (.ok a n)
  | error {f g : Failure} {m n : Machine} (hf : A.failures f g) (h : A.machines m n) :
      Results A (.error f m) (.error g n)
  | excused {f : Failure} {m : Machine} {r : EStateM.Result Failure Machine α} (hf : A.excused f) :
      Results A (.error f m) r

theorem Results.bind_of_ok {x y : Execution α} {k l : α → Execution β} (hx : A.Results (x m) (y n))
    (hk : ∀ a m' n', x m = .ok a m' → y n = .ok a n' → A.machines m' n' → A.Results (k a m') (l a n')) :
    A.Results ((x >>= k) m) ((y >>= l) n) := by
  generalize hr : x m = r at hx
  generalize hs : y n = s at hx
  cases hx with
  | ok a h =>
      rw [apply_bind_of_ok hr, apply_bind_of_ok hs]
      exact hk a _ _ hr hs h
  | error hf h =>
      rw [apply_bind_of_error hr, apply_bind_of_error hs]
      exact .error hf h
  | excused hf =>
      rw [apply_bind_of_error hr]
      exact .excused hf

theorem Results.bind {x y : Execution α} {k l : α → Execution β} (hx : A.Results (x m) (y n))
    (hk : ∀ a m' n', A.machines m' n' → A.Results (k a m') (l a n')) :
    A.Results ((x >>= k) m) ((y >>= l) n) :=
  hx.bind_of_ok fun a m' n' _ _ h => hk a m' n' h

/-- A sequence that begins with a look at the machine. -/
theorem Results.get {k l : Machine → Execution β} (h : A.Results (k m m) (l n n)) :
    A.Results ((MonadState.get >>= k) m) ((MonadState.get >>= l) n) := by
  rwa [apply_bind_of_ok (apply_get m), apply_bind_of_ok (apply_get n)]

/-! ## Machines with the same values -/

/-- Machines that are alike have the same stack and the same value of each global, and stay alike when these change and
when output is written. -/
structure Shares (A : Accord) : Prop where
  stack : ∀ {m n}, A.machines m n → m.stack = n.stack
  globals : ∀ {m n}, A.machines m n → ∀ name : String, m.globals[name]? = n.globals[name]?
  setStack : ∀ {m n} vs, A.machines m n → A.machines { m with stack := vs } { n with stack := vs }
  insertGlobal : ∀ {m n} (name : String) (v : Value), A.machines m n →
    A.machines { m with globals := m.globals.insert name v } { n with globals := n.globals.insert name v }
  fault : ∀ f, A.failures (.fault f) (.fault f)
  printLine : ∀ {m n} text, A.machines m n →
    A.Results (Execution.printLine text m) (Execution.printLine text n)

namespace Shares

variable (hA : A.Shares) (h : A.machines m n)

include hA h

theorem push (v : Value) : A.Results (Execution.push v m) (Execution.push v n) := by
  have hpush := hA.setStack (v :: m.stack) h
  nth_rewrite 2 [hA.stack h] at hpush
  exact .ok () hpush

theorem pop : A.Results (Execution.pop m) (Execution.pop n) := by
  unfold Execution.pop
  rw [← hA.stack h]
  cases m.stack with
  | nil => exact .error (hA.fault _) h
  | cons v rest => exact .ok v (hA.setStack rest h)

theorem top : A.Results (Execution.top m) (Execution.top n) := by
  refine .get ?_
  rw [← hA.stack h]
  cases m.stack with
  | nil => exact .error (hA.fault _) h
  | cons v rest => exact .ok v h

theorem place (slot : UInt8) : A.Results (Execution.place slot m) (Execution.place slot n) := by
  refine .get ?_
  rw [← hA.stack h]
  by_cases hslot : slot.toNat < m.stack.length
  · rw [if_pos hslot]
    exact .ok _ h
  · rw [if_neg hslot]
    exact .error (hA.fault _) h

/-- Setting a global variable. -/
theorem setGlobal (name : String) (v : Value) :
    A.Results ((modify fun m => { m with globals := m.globals.insert name v } : Execution Unit) m)
      ((modify fun m => { m with globals := m.globals.insert name v } : Execution Unit) n) :=
  .ok () (hA.insertGlobal name v h)

theorem contains (name : String) : m.globals.contains name = n.globals.contains name := by
  rw [Std.TreeMap.contains_eq_isSome_getElem?, Std.TreeMap.contains_eq_isSome_getElem?, hA.globals h]

/-- Setting a value inside the stack. -/
theorem setPlace (i : Nat) (v : Value) :
    A.Results ((modify fun m => { m with stack := m.stack.set i v } : Execution Unit) m)
      ((modify fun m => { m with stack := m.stack.set i v } : Execution Unit) n) := by
  have hset := hA.setStack (m.stack.set i v) h
  nth_rewrite 2 [hA.stack h] at hset
  exact .ok () hset

end Shares

/-! ## Machines with the same code -/

/-- Machines that are alike stand at the same place of the same code, and their errors differ at most in the
place they are located at. -/
structure SameCode (A : Accord) : Prop extends A.Shares where
  reader : ∀ {m n}, A.machines m n → m.reader = n.reader
  constants : ∀ {m n}, A.machines m n → m.constants = n.constants
  setReader : ∀ {m n} r, A.machines m n → A.machines { m with reader := r } { n with reader := r }
  setConstants : ∀ {m n} vs, A.machines m n → A.machines { m with constants := vs } { n with constants := vs }
  raise : ∀ {m n} offset e, (∀ s t, (e s).relocate t = e t) → A.machines m n →
    A.Results (Execution.raise offset e m : EStateM.Result Failure Machine Unit) (Execution.raise offset e n)
  flush : ∀ {m n}, A.machines m n → A.Results (Execution.flush m) (Execution.flush n)

namespace SameCode

variable (hA : A.SameCode) (h : A.machines m n)

include hA h

theorem decode (d : Decoder α) : A.Results (Execution.decode d m) (Execution.decode d n) := by
  unfold Execution.decode
  rw [← hA.reader h]
  cases d m.reader with
  | ok a r => exact .ok a (hA.setReader r h)
  | error f r => exact .error (hA.fault f) (hA.setReader r h)

theorem constant : A.Results (Execution.constant m) (Execution.constant n) := by
  refine (hA.decode h _).bind fun i m₁ n₁ h₁ => .get ?_
  rw [← hA.constants h₁]
  cases m₁.constants[i.toNat]? with
  | some v => exact .ok _ h₁
  | none => exact .error (hA.fault _) h₁

theorem globalName : A.Results (Execution.globalName m) (Execution.globalName n) := by
  refine (hA.constant h).bind fun (i, v) m₁ n₁ h₁ => ?_
  cases v with
  | string name => exact .ok name h₁
  | _ => exact .error (hA.fault _) h₁

theorem jumpWhen (holds : Bool) : A.Results (Execution.jumpWhen holds m) (Execution.jumpWhen holds n) := by
  refine (hA.decode h _).bind fun distance m₁ n₁ h₁ => (hA.top h₁).bind fun v m₂ n₂ h₂ => ?_
  by_cases hv : v.truthy = holds
  · rw [if_pos hv]
    exact hA.decode h₂ _
  · rw [if_neg hv]
    exact .ok _ h₂

theorem perform (offset : Nat) (op : Opcode) :
    A.Results (Execution.perform offset op m) (Execution.perform offset op n) := by
  cases op with
  | nop => exact .ok _ h
  | binary op =>
      refine (hA.pop h).bind fun b m₁ n₁ h₁ => (hA.pop h₁).bind fun a m₂ n₂ h₂ => ?_
      cases op.apply a b with
      | ok v => exact hA.push h₂ v
      | error r => cases r <;> exact hA.raise offset _ (fun _ _ => rfl) h₂
  | unary op =>
      refine (hA.pop h).bind fun v m₁ n₁ h₁ => ?_
      cases op.apply v with
      | ok r => exact hA.push h₁ r
      | error r => exact hA.raise offset _ (fun _ _ => rfl) h₁
  | pushConstant => exact (hA.constant h).bind fun (_, v) m₁ n₁ h₁ => hA.push h₁ v
  | pushNil => exact hA.push h _
  | pushTrue => exact hA.push h _
  | pushFalse => exact hA.push h _
  | pop => exact (hA.pop h).bind fun v m₁ n₁ h₁ => .ok _ h₁
  | print => exact (hA.pop h).bind fun v m₁ n₁ h₁ => hA.printLine _ h₁
  | defineGlobal =>
      refine (hA.globalName h).bind fun name m₁ n₁ h₁ => (hA.pop h₁).bind fun v m₂ n₂ h₂ => ?_
      exact hA.setGlobal h₂ name v
  | setGlobal =>
      refine (hA.globalName h).bind fun name m₁ n₁ h₁ => (hA.top h₁).bind fun v m₂ n₂ h₂ => .get ?_
      rw [← hA.contains h₂]
      by_cases hname : m₂.globals.contains name = true
      · rw [if_pos hname]
        exact hA.setGlobal h₂ name v
      · rw [if_neg hname]
        exact hA.raise offset _ (fun _ _ => rfl) h₂
  | getGlobal =>
      refine (hA.globalName h).bind fun name m₁ n₁ h₁ => .get ?_
      rw [← hA.globals h₁]
      cases m₁.globals[name]? with
      | some v => exact hA.push h₁ v
      | none => exact hA.raise offset _ (fun _ _ => rfl) h₁
  | setLocal =>
      refine (hA.decode h _).bind fun slot m₁ n₁ h₁ => (hA.top h₁).bind fun v m₂ n₂ h₂ => ?_
      exact (hA.place h₂ slot).bind fun i m₃ n₃ h₃ => hA.setPlace h₃ i v
  | getLocal =>
      refine (hA.decode h _).bind fun slot m₁ n₁ h₁ => (hA.place h₁ slot).bind fun i m₂ n₂ h₂ => .get ?_
      rw [← hA.stack h₂]
      exact hA.push h₂ _
  | jump => exact (hA.decode h _).bind fun distance m₁ n₁ h₁ => hA.decode h₁ _
  | jumpIfFalse => exact hA.jumpWhen h false
  | jumpIfTrue => exact hA.jumpWhen h true
  | jumpSigned => exact (hA.decode h _).bind fun distance m₁ n₁ h₁ => hA.decode h₁ _
  | trap => exact .error (hA.fault _) h

/-- Every step keeps the machines alike. -/
theorem step : A.Results (Machine.step m) (Machine.step n) := by
  refine .get ?_
  rw [← hA.reader h]
  exact (hA.decode h _).bind fun op m₁ n₁ h₁ => hA.perform h₁ _ op

theorem loadConstants (k : Nat) : A.Results (Execution.loadConstants k m) (Execution.loadConstants k n) := by
  induction k generalizing m n with
  | zero => exact .ok () h
  | succ k ih =>
      refine .get ?_
      rw [← hA.reader h]
      by_cases hmarker : (m.reader.peek? == some Constant.marker) = true
      · rw [if_pos hmarker]
        refine (hA.decode h _).bind fun e m₁ n₁ h₁ => .get ?_
        rw [← hA.constants h₁]
        by_cases hindex : e.index.toNat = m₁.constants.size
        · rw [if_pos hindex]
          have hset := hA.setConstants (m₁.constants.push e.constant.value) h₁
          nth_rewrite 2 [hA.constants h₁] at hset
          exact Results.bind (.ok () hset) fun _ m₂ n₂ h₂ => ih h₂
        · rw [if_neg hindex]
          exact .error (hA.fault _) h₁
      · rw [if_neg hmarker]
        exact .ok () h

end SameCode

/-! ## Runs -/

inductive Advance (A : Accord) (fuel : Nat) (m n : Machine) : Prop where
  /-- In the same number of steps, to the end of the code of the first and to a machine that is alike. -/
  | arrived (k : Nat) (m' n' : Machine) (hk : k ≤ fuel) (hm : Reaches k m m') (hn : Reaches k n n')
      (h : A.machines m' n') (hend : m'.reader.atEnd = true)
  | running (m' n' : Machine) (hm : Machine.run fuel m = .running m') (hn : Machine.run fuel n = .running n')
      (h : A.machines m' n')
  | failed (f g : Failure) (m' n' : Machine) (hm : Machine.run fuel m = .ended (.error f m'))
      (hn : Machine.run fuel n = .ended (.error g n')) (hf : A.failures f g) (h : A.machines m' n')
  | excused (f : Failure) (m' : Machine) (hm : Machine.run fuel m = .ended (.error f m')) (hf : A.excused f)

theorem Advance.after {m' n' : Machine} {fuel : Nat} (hm : Reaches 1 m m') (hn : Reaches 1 n n')
    (h : A.Advance fuel m' n') : A.Advance (1 + fuel) m n := by
  cases h with
  | arrived k m'' n'' hk hm' hn' h hend =>
      exact .arrived (1 + k) m'' n'' (Nat.add_le_add_left hk 1) (hm.trans hm') (hn.trans hn') h hend
  | running m'' n'' hm' hn' h => exact .running m'' n'' ((hm fuel).trans hm') ((hn fuel).trans hn') h
  | failed f g m'' n'' hm' hn' hf h => exact .failed f g m'' n'' ((hm fuel).trans hm') ((hn fuel).trans hn') hf h
  | excused f m'' hm' hf => exact .excused f m'' ((hm fuel).trans hm') hf

/-- **Machines that every step keeps alike stay alike** up to the end of the code of the first. -/
theorem lockstep (hstep : ∀ {m n}, A.machines m n → m.reader.atEnd = false →
      n.reader.atEnd = false ∧ A.Results (Machine.step m) (Machine.step n))
    (h : A.machines m n) (fuel : Nat) : A.Advance fuel m n := by
  induction fuel generalizing m n with
  | zero => exact .running m n rfl rfl h
  | succ fuel ih =>
      cases hend : m.reader.atEnd with
      | true => exact .arrived 0 m n (Nat.zero_le _) (.refl m) (.refl n) h hend
      | false =>
          obtain ⟨hend', hresults⟩ := hstep h hend
          have hm := Machine.run_succ hend
          have hn := Machine.run_succ hend'
          rw [Nat.add_comm]
          generalize Machine.step m = r at hresults hm
          generalize Machine.step n = s at hresults hn
          cases hresults with
          | ok _ h' => exact .after hm hn (ih h')
          | error hf h' => exact .failed _ _ _ _ (hm fuel) (hn fuel) hf h'
          | excused hf => exact .excused _ _ (hm fuel) hf

inductive Progresses (A : Accord) : Progress Failure Machine → Progress Failure Machine → Prop where
  | running {m n : Machine} (h : A.machines m n) : Progresses A (.running m) (.running n)
  | ended {r s : EStateM.Result Failure Machine Unit} (h : A.Results r s) : Progresses A (.ended r) (.ended s)
  | excused {f : Failure} {m : Machine} {p : Progress Failure Machine} (hf : A.excused f) :
      Progresses A (.ended (.error f m)) p

/-- Machines that also come to the end of their code together come equally far with any number of steps. -/
theorem run (hstep : ∀ {m n}, A.machines m n → m.reader.atEnd = false →
      n.reader.atEnd = false ∧ A.Results (Machine.step m) (Machine.step n))
    (hflush : ∀ {m n}, A.machines m n → m.reader.atEnd = true →
      n.reader.atEnd = true ∧ A.Results (Execution.flush m) (Execution.flush n))
    (h : A.machines m n) (fuel : Nat) : A.Progresses (Machine.run fuel m) (Machine.run fuel n) := by
  cases A.lockstep hstep h fuel with
  | arrived k m' n' hk hm hn h' hend =>
      obtain ⟨hend', hresults⟩ := hflush h' hend
      obtain ⟨j, rfl⟩ := Nat.exists_eq_add_of_le hk
      rw [hm, hn]
      cases j with
      | zero => exact .running h'
      | succ j =>
          rw [Machine.run, Machine.run, if_pos hend, if_pos hend']
          exact .ended hresults
  | running m' n' hm hn h' =>
      rw [hm, hn]
      exact .running h'
  | failed f g m' n' hm hn hf h' =>
      rw [hm, hn]
      exact .ended (.error hf h')
  | excused f m' hm hf =>
      rw [hm]
      exact .excused hf

/-- Machines that run the same code come equally far. -/
theorem SameCode.run (hA : A.SameCode) (h : A.machines m n) (fuel : Nat) :
    A.Progresses (Machine.run fuel m) (Machine.run fuel n) := by
  refine A.run (fun h hend => ⟨?_, hA.step h⟩) (fun h hend => ⟨?_, hA.flush h⟩) h fuel
  · rwa [← hA.reader h]
  · rwa [← hA.reader h]

/-- Machines that execute the same code from its beginning come equally far. -/
theorem SameCode.execute (hA : A.SameCode) {code : Array UInt8} {spans spans' : SpanTable}
    (h : A.machines (m.start code spans) (n.start code spans')) (fuel : Nat) :
    A.Progresses (m.execute fuel code spans) (n.execute fuel code spans') := by
  have hload : A.Results (Machine.load code spans m) (Machine.load code spans' n) := hA.loadConstants h code.size
  unfold Machine.execute
  generalize Machine.load code spans m = r at hload
  generalize Machine.load code spans' n = s at hload
  cases hload with
  | ok _ h => exact hA.run h fuel
  | error hf h => exact .ended (.error hf h)
  | excused hf => exact .excused hf

end Accord

end Lox
