import Lox.Proofs.Scoping
import Lox.Proofs.Stepping

/-!
# Machines that follow an evaluation

* `World.on` : the machine that stands for a world, with the values of an unfinished expression on top;
* `Follows` : from a machine on, the run goes where an evaluation goes: to the machine that stands for its
  result, to the same halt, or on for at least as many steps as the evaluation had rounds;
* `Follows.bind`, `Follows.after`, `Follows.before` : how runs that follow are put together;
* `Hosts` : a machine that has loaded a program; `Hosts.read_follows`, `Hosts.assign_follows`, ... : its single
  instructions follow what they stand for.
-/

namespace Lox

open Machine (Reaches Stops)

/-! ## Machines that stand for a world -/

namespace World

/-- The machine at offset `o` of the code of `base` that stands for the world, with `temps` on its stack
above the variables. -/
def on (w : World) (base : Machine) (o : Nat) (temps : List Value) : Machine :=
  { base with
    reader := { base.reader with offset := o }
    stack := temps ++ w.blocks.values
    globals := w.globals
    sink := { base.sink with written := base.sink.written ++ w.output } }

structure Shown (w : World) (base m : Machine) : Prop where
  globals : m.globals = w.globals
  sink : m.sink = { base.sink with written := base.sink.written ++ w.output }

/-- The variables of the innermost block are on top of the stack. -/
theorem on_cons (globals : Globals) (block : List (String × Value)) (outer : Environment) (output : ByteArray)
    (base : Machine) (o : Nat) :
    on ⟨globals, block :: outer, output⟩ base o [] = on ⟨globals, outer, output⟩ base o (block.map Prod.snd) := by
  simp [on, Environment.values]

theorem shown_on (w : World) (base : Machine) (o : Nat) (temps : List Value) :
    w.Shown base (w.on base o temps) :=
  ⟨rfl, rfl⟩

end World

/-- A machine that has loaded a compiled program and has a sink that accepts any output. -/
structure Hosts (base : Machine) (out : Compiled) : Prop extends base.Runs out where
  sound : out.pool.Sound
  unbounded : base.sink.limit = none

/-! ## Following an evaluation -/

/-- From `m` on the machine does what an evaluation with the given result does. If the evaluation is
exhausted, the machine goes on for `rounds` steps at least. -/
def Follows {α : Type} (base : Machine) (rounds : Nat) (m : Machine) (next : α → World → Machine) :
    EStateM.Result Halt World α → Prop
  | .ok a w => ∃ n, Reaches n m (next a w)
  | .error (.error e) w => ∃ m', Stops m (.runtime e) m' ∧ w.Shown base m'
  | .error .trap w => ∃ o m', Stops m (.fault (.trap o)) m' ∧ w.Shown base m'
  | .error .exhausted _ => ∃ n m', rounds ≤ n ∧ Reaches n m m'

namespace Follows

variable {α β : Type} {base m m' : Machine} {k j n : Nat} {next : α → World → Machine}
  {r : EStateM.Result Halt World α}

theorem mono (h : Follows base k m next r) (hjk : j ≤ k) : Follows base j m next r := by
  rcases r with ⟨a, w⟩ | ⟨e | _ | _, w⟩
  · exact h
  · exact h
  · exact h
  · obtain ⟨n, m', hn, hm'⟩ := h
    exact ⟨n, m', Nat.le_trans hjk hn, hm'⟩

/-- Steps that are taken before count for the rounds. -/
theorem after (hm : Reaches n m m') (h : Follows base k m' next r) : Follows base (n + k) m next r := by
  rcases r with ⟨a, w⟩ | ⟨e | _ | _, w⟩
  · obtain ⟨j, hj⟩ := h
    exact ⟨n + j, hm.trans hj⟩
  · obtain ⟨m₂, hstop, hshown⟩ := h
    exact ⟨m₂, hm.stops hstop, hshown⟩
  · obtain ⟨o, m₂, hstop, hshown⟩ := h
    exact ⟨o, m₂, hm.stops hstop, hshown⟩
  · obtain ⟨j, m₂, hj, hreach⟩ := h
    exact ⟨n + j, m₂, Nat.add_le_add_left hj n, hm.trans hreach⟩

/-- Steps that are taken afterwards. -/
theorem before {next' : α → World → Machine} (h : Follows base k m next r)
    (hnext : ∀ a w, ∃ n, Reaches n (next a w) (next' a w)) : Follows base k m next' r := by
  rcases r with ⟨a, w⟩ | ⟨e | _ | _, w⟩
  · obtain ⟨j, hj⟩ := h
    obtain ⟨n, hn⟩ := hnext a w
    exact ⟨j + n, hj.trans hn⟩
  all_goals exact h

/-- One evaluation after the other. -/
theorem bind {x : Evaluation α} {f : α → Evaluation β} {mid : α → World → Machine}
    {next : β → World → Machine} {w : World} (hx : Follows base k m mid (x w))
    (hf : ∀ a w', x w = .ok a w' → Follows base k (mid a w') next (f a w')) :
    Follows base k m next ((x >>= f) w) := by
  cases hr : x w with
  | ok a w' =>
      rw [apply_bind_of_ok hr]
      rw [hr] at hx
      obtain ⟨n, hn⟩ := hx
      exact (after hn (hf a w' hr)).mono (Nat.le_add_left k n)
  | error e w' =>
      rw [apply_bind_of_error hr]
      rw [hr] at hx
      rcases e with e | _ | _ <;> exact hx

end Follows

/-! ## Single instructions -/

/-- A sink without a limit takes all of a text. -/
theorem Sink.write_apply {s : Sink} (hs : s.limit = none) (text : String) :
    Sink.write text s = .ok () { s with written := s.written ++ text.toUTF8 } := by
  have hroom : s.room text.toUTF8.size = text.toUTF8.size := by rw [room, hs]
  unfold write
  simp only [hroom]
  rw [if_neg (Nat.lt_irrefl _), ByteArray.extract_zero_size]

namespace Hosts

variable {out : Compiled} {base : Machine} {w : World} {o k h : Nat} {temps : List Value} {l : Line}
  {name : String} {s : Span} {v : Value} {σ : Scope}

theorem runs_on (hb : Hosts base out) (w : World) (o : Nat) (temps : List Value) :
    (w.on base o temps).Runs out :=
  ⟨hb.code, hb.spans, hb.constants⟩

theorem reaches (hb : Hosts base out) (hl : out.HoldsLine o l) {m' : Machine}
    (h : l.execute o (w.on base (o + l.instr.size) temps) = .ok () m') : Reaches 1 (w.on base o temps) m' :=
  Machine.reaches_of_execute (hb.runs_on w o temps) hb.sound hl h

theorem stops (hb : Hosts base out) (hl : out.HoldsLine o l) {f : Failure} {m' : Machine}
    (h : l.execute o (w.on base (o + l.instr.size) temps) = .error f m') : Stops (w.on base o temps) f m' :=
  Machine.stops_of_execute (hb.runs_on w o temps) hb.sound hl h

theorem pop (hb : Hosts base out) (hl : out.HoldsLine o ⟨.pop, s, h⟩) :
    Reaches 1 (w.on base o (v :: temps)) (w.on base (o + 1) temps) :=
  hb.reaches hl rfl

theorem literal_follows (hb : Hosts base out) (hl : out.HoldsLine o ⟨v.instr, s, h⟩) :
    Reaches 1 (w.on base o temps) (w.on base (o + v.instr.size) (v :: temps)) := by
  apply hb.reaches hl
  rcases v with _ | (_ | _) | _ | _ <;> rfl

/-- The slot of a variable is the place of its value below the unfinished values. -/
theorem place_on {slot : Nat} (hslot : slot < w.blocks.scope.height) (base : Machine) (temps : List Value)
    (x : Nat) :
    slot < (w.on base x temps).stack.length ∧
      (w.on base x temps).stack.length - 1 - slot = temps.length + (w.blocks.scope.height - 1 - slot) := by
  simp only [World.on, List.length_append, Environment.length_values]
  omega

theorem read_follows (hb : Hosts base out)
    (hσ : w.blocks.scope = σ) (hl : out.HoldsLine o ⟨σ.access .getLocal .getGlobal name, s, h⟩) :
    Follows base k (w.on base o temps) (fun v w' => w'.on base (o + 2) (v :: temps))
      (Evaluation.read name s w) := by
  subst hσ
  unfold Evaluation.read
  rw [apply_bind_of_ok (apply_get w)]
  cases hslot : w.blocks.scope.slot? name with
  | some slot =>
      obtain ⟨hlt, v, hlookup, hvalue⟩ := Environment.lookup_eq_some hslot
      obtain ⟨hplace, hindex⟩ := place_on hlt base temps (o + 2)
      have hget : (temps ++ w.blocks.values).getD (temps.length + (w.blocks.scope.height - 1 - slot)) .nil = v := by
        rw [List.getD_eq_getElem?_getD, List.getElem?_append_right (Nat.le_add_right ..),
          Nat.add_sub_cancel_left, hvalue]
        rfl
      rw [Scope.access, hslot] at hl
      rw [hlookup]
      refine ⟨1, hb.reaches hl ((Line.execute_getLocal hl.fits hplace).trans ?_)⟩
      rw [hindex]
      exact congrArg (fun u => EStateM.Result.ok () (w.on base (o + 2) (u :: temps))) hget
  | none =>
      rw [Scope.access, hslot] at hl
      rw [Environment.lookup_eq_none hslot]
      have hexecute := @Line.execute_getGlobal (w.on base (o + 2) temps) o h s name
      have hglobals : (w.on base (o + 2) temps).globals = w.globals := rfl
      rw [hglobals] at hexecute
      cases hglobal : w.globals[name]? with
      | some v =>
          rw [hglobal] at hexecute
          exact ⟨1, hb.reaches hl hexecute⟩
      | none =>
          rw [hglobal] at hexecute
          exact ⟨_, hb.stops hl hexecute, w.shown_on ..⟩

theorem assign_follows (hb : Hosts base out)
    (hσ : w.blocks.scope = σ) (hl : out.HoldsLine o ⟨σ.access .setLocal .setGlobal name, s, h⟩) :
    Follows base k (w.on base o (v :: temps)) (fun _ w' => w'.on base (o + 2) (v :: temps))
      (Evaluation.assign name v s w) := by
  subst hσ
  unfold Evaluation.assign
  rw [apply_bind_of_ok (apply_get w)]
  cases hslot : w.blocks.scope.slot? name with
  | some slot =>
      obtain ⟨hlt, -⟩ := Environment.lookup_eq_some hslot
      obtain ⟨blocks, hassign, hvalues⟩ := Environment.assign?_eq_some v hslot
      obtain ⟨hplace, hindex⟩ := place_on hlt base (v :: temps) (o + 2)
      have hset : (v :: temps ++ w.blocks.values).set ((v :: temps).length + (w.blocks.scope.height - 1 - slot)) v =
          v :: temps ++ blocks.values := by
        rw [List.set_append_right _ _ (Nat.le_add_right ..), Nat.add_sub_cancel_left, hvalues]
      rw [Scope.access, hslot] at hl
      rw [hassign]
      refine ⟨1, hb.reaches hl ((Line.execute_setLocal rfl hl.fits hplace).trans ?_)⟩
      rw [hindex]
      exact congrArg (fun stack => EStateM.Result.ok () { w.on base (o + 2) (v :: temps) with stack }) hset
  | none =>
      rw [Scope.access, hslot] at hl
      rw [Environment.assign?_eq_none v hslot]
      have hexecute := @Line.execute_setGlobal (w.on base (o + 2) (v :: temps)) o h s v _ name rfl
      change _ = if w.globals.contains name then _ else _ at hexecute
      cases hglobal : w.globals.contains name with
      | true =>
          rw [hglobal] at hexecute
          exact ⟨1, hb.reaches hl hexecute⟩
      | false =>
          rw [hglobal] at hexecute
          exact ⟨_, hb.stops hl hexecute, w.shown_on ..⟩

theorem binary_follows (hb : Hosts base out) {op : BinaryOp} {a b : Value}
    (hl : out.HoldsLine o ⟨.binary op, s, h⟩) :
    Follows base k (w.on base o (b :: a :: temps)) (fun v w' => w'.on base (o + 1) (v :: temps))
      (Evaluation.binary op a b s w) := by
  have hexecute := @Line.execute_binary (w.on base (o + 1) (b :: a :: temps)) o h s a b _ op rfl
  unfold Evaluation.binary
  cases hop : op.apply a b with
  | ok v =>
      rw [hop] at hexecute
      exact ⟨1, hb.reaches hl hexecute⟩
  | error r =>
      rw [hop] at hexecute
      cases r <;> exact ⟨_, hb.stops hl hexecute, ⟨rfl, rfl⟩⟩

theorem unary_follows (hb : Hosts base out) {op : UnaryOp} (hl : out.HoldsLine o ⟨.unary op, s, h⟩) :
    Follows base k (w.on base o (v :: temps)) (fun r w' => w'.on base (o + 1) (r :: temps))
      (Evaluation.unary op v s w) := by
  have hexecute := @Line.execute_unary (w.on base (o + 1) (v :: temps)) o h s v _ op rfl
  unfold Evaluation.unary
  cases hop : op.apply v with
  | ok r =>
      rw [hop] at hexecute
      exact ⟨1, hb.reaches hl hexecute⟩
  | error r =>
      rw [hop] at hexecute
      exact ⟨_, hb.stops hl hexecute, ⟨rfl, rfl⟩⟩

theorem trap_follows {α : Type} (hb : Hosts base out) (hl : out.HoldsLine o ⟨.trap, s, h⟩)
    {next : α → World → Machine} : Follows base k (w.on base o temps) next ((throw .trap : Evaluation α) w) :=
  ⟨o, _, hb.stops hl rfl, w.shown_on ..⟩

/-- The jump over a right operand is taken when the left operand decides. -/
theorem branch (hb : Hosts base out) {op : LogicalOp} {d : Nat} (hl : out.HoldsLine o ⟨op.instr d, s, h⟩)
    (hle : o + 3 + d ≤ out.code.size) :
    Reaches 1 (w.on base o (v :: temps))
      (w.on base (if op.decides v then o + 3 + d else o + 3) (v :: temps)) := by
  rw [← hb.code] at hle
  cases op with
  | and =>
      have hexecute := @Line.execute_jumpIfFalse (w.on base o (v :: temps)) (o + 3) o h s v _ d rfl hle
      refine hb.reaches hl (hexecute.trans ?_)
      cases hv : v.truthy <;> simp only [LogicalOp.decides, hv] <;> rfl
  | or =>
      have hexecute := @Line.execute_jumpIfTrue (w.on base o (v :: temps)) (o + 3) o h s v _ d rfl hle
      refine hb.reaches hl (hexecute.trans ?_)
      cases hv : v.truthy <;> simp only [LogicalOp.decides, hv] <;> rfl

theorem branch_taken (hb : Hosts base out) {op : LogicalOp} {d : Nat} (hl : out.HoldsLine o ⟨op.instr d, s, h⟩)
    (hle : o + 3 + d ≤ out.code.size) (hv : op.decides v = true) :
    Reaches 1 (w.on base o (v :: temps)) (w.on base (o + 3 + d) (v :: temps)) := by
  have hbranch := @branch out base w o h temps s v hb op d hl hle
  rwa [if_pos hv] at hbranch

/-- A branch that is not taken removes the value it looked at. -/
theorem branch_passed (hb : Hosts base out) {op : LogicalOp} {d : Nat} (hl : out.HoldsLine o ⟨op.instr d, s, h⟩)
    (hle : o + 3 + d ≤ out.code.size) (hpop : out.HoldsLine (o + 3) ⟨.pop, s, h⟩) (hv : op.decides v = false) :
    Reaches 2 (w.on base o (v :: temps)) (w.on base (o + 3 + 1) temps) := by
  have hbranch := @branch out base w o h temps s v hb op d hl hle
  rw [if_neg (by simp [hv])] at hbranch
  exact hbranch.trans (hb.pop hpop)

theorem print (hb : Hosts base out) (hl : out.HoldsLine o ⟨.print, s, h⟩) :
    Reaches 1 (w.on base o (v :: temps))
      ({ w with output := w.output ++ (v.text ++ "\n").toUTF8 }.on base (o + 1) temps) := by
  apply hb.reaches hl
  have hwrite := Sink.write_apply (s := (w.on base (o + 1) temps).sink) hb.unbounded (v.text ++ "\n")
  change Execution.printLine v.text (w.on base (o + 1) temps) = _
  unfold Execution.printLine
  rw [hwrite]
  simp only [World.on, ByteArray.append_assoc]

theorem pops (hb : Hosts base out) (vs : List Value) (hold : out.Holds o (Assembly.pops s h vs.length)) :
    Reaches vs.length (w.on base o (vs ++ temps)) (w.on base (o + vs.length) temps) := by
  induction vs generalizing o with
  | nil => exact .refl _
  | cons v vs ih =>
      have hfirst : Reaches 1 (w.on base o (v :: (vs ++ temps))) (w.on base (o + 1) (vs ++ temps)) := hb.pop hold.1
      have hall := hfirst.trans (ih hold.2)
      rwa [Nat.add_right_comm, Nat.add_comm 1] at hall

theorem jump (hb : Hosts base out) {d target : Nat} (hl : out.HoldsLine o ⟨.jump d, s, h⟩)
    (htarget : target = o + 3 + d) (hle : target ≤ out.code.size) :
    Reaches 1 (w.on base o temps) (w.on base target temps) := by
  subst htarget
  rw [← hb.code] at hle
  exact hb.reaches hl (@Line.execute_jump (w.on base o temps) (o + 3) o h s d hle)

theorem loop (hb : Hosts base out) {d target : Nat} (hl : out.HoldsLine o ⟨.loop d, s, h⟩)
    (htarget : target + d = o + 3) : Reaches 1 (w.on base o temps) (w.on base target temps) := by
  obtain rfl : target = o + 3 - d := by omega
  have hle : o + 3 ≤ base.reader.code.size := by
    rw [hb.code]
    exact hl.le_size
  exact hb.reaches hl (@Line.execute_loop (w.on base o temps) (o + 3) o h s d (by omega) hle)

/-- A condition that holds is removed, and what stands behind it is executed. -/
theorem condition_true (hb : Hosts base out) {d : Nat} (hl : out.HoldsLine o ⟨.jumpIfFalse d, s, h⟩)
    (hle : o + 3 + d ≤ out.code.size) (hpop : out.HoldsLine (o + 3) ⟨.pop, s, h⟩) (hv : v.truthy = true) :
    Reaches 2 (w.on base o (v :: temps)) (w.on base (o + 3 + 1) temps) :=
  @branch_passed out base w o h temps s v hb .and d hl hle hpop (by rw [LogicalOp.decides, hv]; rfl)

/-- A condition that does not hold is removed where the jump leads to. -/
theorem condition_false (hb : Hosts base out) {d target : Nat} (hl : out.HoldsLine o ⟨.jumpIfFalse d, s, h⟩)
    (htarget : target = o + 3 + d) (hpop : out.HoldsLine target ⟨.pop, s, h⟩) (hv : v.truthy = false) :
    Reaches 2 (w.on base o (v :: temps)) (w.on base (target + 1) temps) := by
  subst htarget
  have htaken := @branch_taken out base w o h temps s v hb .and d hl (Nat.le_of_succ_le hpop.le_size)
    (by rw [LogicalOp.decides, hv]; rfl)
  exact htaken.trans (hb.pop hpop)

end Hosts

end Lox
