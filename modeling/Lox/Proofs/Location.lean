import Lox.Proofs.Discipline
import Lox.Proofs.Failing
import Lox.Proofs.Failures
import Lox.Proofs.Lockstep
import Lox.Proofs.Preservation

/-!
# Where errors are reported

An error of a program is reported at the node that fails, and nothing but this place depends on the table of spans.

* `Machine.execute_unlocated` : code executed without a table of spans does the same, with errors at no place;
* `Accord.unbounded` : a sink that refuses output changes nothing before it does;
* `Program.exists_fails_of_run` : an error that the machine makes is that of the node that fails first;
* `Steady.spanAt?_of_step` : it is located by the entry that the table has for the instruction;
* `compile_locates_errors` : all this of compiled programs.
-/

namespace Lox

/-! ## Without a table of spans -/

/-- The failure at no place. -/
def Failure.unlocated : Failure → Failure
  | runtime e => runtime (e.relocate {})
  | fault f => fault f

/-- The machine without a table of spans. -/
def Machine.unlocated (m : Machine) : Machine :=
  { m with spans := {} }

def Progress.unlocated : Progress Failure Machine → Progress Failure Machine
  | running m => running m.unlocated
  | ended (.ok u m) => ended (.ok u m.unlocated)
  | ended (.error f m) => ended (.error f.unlocated m.unlocated)

namespace Accord

def unlocated : Accord where
  machines m n := n = m.unlocated
  failures f g := g = f.unlocated
  excused _ := False

theorem unlocated_sameCode : unlocated.SameCode where
  stack := by rintro m n rfl; rfl
  globals := by rintro m n rfl name; rfl
  setStack := by rintro m n vs rfl; rfl
  insertGlobal := by rintro m n name v rfl; rfl
  fault f := rfl
  printLine := by
    rintro m n text rfl
    unfold Execution.printLine
    rw [Machine.unlocated]
    cases Sink.write (text ++ "\n") m.sink with
    | ok _ sink => exact .ok () rfl
    | error e sink => exact .error rfl rfl
  reader := by rintro m n rfl; rfl
  constants := by rintro m n rfl; rfl
  setReader := by rintro m n r rfl; rfl
  setConstants := by rintro m n vs rfl; rfl
  raise := by
    rintro m n offset e he rfl
    unfold Execution.raise
    rw [apply_bind_of_ok (apply_get m), apply_bind_of_ok (apply_get m.unlocated)]
    exact .error (congrArg Failure.runtime (he _ _).symm) rfl
  flush := by
    rintro m n rfl
    unfold Execution.flush
    rw [Machine.unlocated]
    cases Sink.flush m.sink with
    | ok _ sink => exact .ok () rfl
    | error e sink => exact .error rfl rfl

theorem eq_unlocated {p q : Progress Failure Machine} (h : unlocated.Progresses p q) : q = p.unlocated := by
  cases h with
  | running h => exact congrArg Progress.running h
  | ended h =>
      cases h with
      | ok u h => rw [h]; rfl
      | error hf h => rw [hf, h]; rfl
      | excused hf => exact hf.elim
  | excused hf => exact hf.elim

end Accord

/-- Code executed without a table of spans does the same as with one. -/
theorem Machine.execute_unlocated (m : Machine) (fuel : Nat) (code : Array UInt8) (spans : SpanTable) :
    m.execute fuel code {} = (m.execute fuel code spans).unlocated :=
  Accord.eq_unlocated (Accord.unlocated_sameCode.execute rfl fuel)

/-! ## Sinks that refuse output -/

def Machine.unbounded (m : Machine) : Machine :=
  { m with sink := { written := m.sink.written } }

theorem Sink.room_le (s : Sink) (n : Nat) : s.room n ≤ n := by
  unfold room
  split <;> omega

namespace Accord

def unbounded : Accord where
  machines m n := n = m.unbounded
  failures f g := g = f
  excused f := ∃ e, f = .runtime (.output e)

theorem unbounded_sameCode : unbounded.SameCode where
  stack := by rintro m n rfl; rfl
  globals := by rintro m n rfl name; rfl
  setStack := by rintro m n vs rfl; rfl
  insertGlobal := by rintro m n name v rfl; rfl
  fault f := rfl
  printLine := by
    rintro m n text rfl
    have hunbounded := Sink.write_apply (s := m.unbounded.sink) rfl (text ++ "\n")
    unfold Execution.printLine
    rw [hunbounded, Sink.write]
    have hroom := m.sink.room_le (text ++ "\n").toUTF8.size
    by_cases hfull : m.sink.room (text ++ "\n").toUTF8.size < (text ++ "\n").toUTF8.size
    · simp only [if_pos hfull]
      exact .excused ⟨_, rfl⟩
    · have hfits : m.sink.room (text ++ "\n").toUTF8.size = (text ++ "\n").toUTF8.size := by omega
      simp only [hfits, Nat.lt_irrefl, if_false, ByteArray.extract_zero_size]
      exact .ok () rfl
  reader := by rintro m n rfl; rfl
  constants := by rintro m n rfl; rfl
  setReader := by rintro m n r rfl; rfl
  setConstants := by rintro m n vs rfl; rfl
  raise := by
    rintro m n offset e - rfl
    unfold Execution.raise
    rw [apply_bind_of_ok (apply_get m), apply_bind_of_ok (apply_get m.unbounded)]
    exact .error rfl rfl
  flush := by
    rintro m n rfl
    unfold Execution.flush Sink.flush
    cases m.sink.flushFails with
    | true => exact .excused ⟨_, rfl⟩
    | false => exact .ok () rfl

end Accord

/-! ## The node that fails -/

section Programs

variable {p : Program} {out : Compiled} {m m' : Machine} {e : RuntimeError} {s : Span}

theorem Program.execAll_of_behaviour {rounds : Nat} {globals : Globals} {b : Behaviour}
    (hb : p.behaviour? rounds globals = some b) (houtcome : b.outcome = .error e) :
    ∃ w, Stmt.execAll rounds p { globals } = .error (.error e) w := by
  unfold Program.behaviour? at hb
  split at hb
  · cases hb
    cases houtcome
  · cases hb
    cases houtcome
    exact ⟨_, by assumption⟩
  · cases hb
    cases houtcome
  · cases hb

/-- An error that the machine makes while it executes a program is that of the node that fails first. -/
theorem Program.exists_fails_of_run (hp : p.WellFormed) (h : out.Carries p.assembly) {fuel : Nat}
    (hrun : Machine.run fuel (m.loaded out) = .ended (.error (.runtime e) m')) (hs : e.span? = some s) :
    ∃ n v, p.ComesTo { globals := m.globals } n v ∧ n.Fails v e := by
  have hprogress := Accord.unbounded_sameCode.run (m := m.loaded out) rfl fuel
  have hunbounded : ∃ m'', Machine.run fuel (m.unbounded.loaded out) = .ended (.error (.runtime e) m'') := by
    rw [hrun] at hprogress
    change Accord.unbounded.Progresses _ (Machine.run fuel (m.unbounded.loaded out)) at hprogress
    generalize Machine.run fuel (m.unbounded.loaded out) = q at hprogress
    cases hprogress with
    | ended hresults =>
        cases hresults with
        | error hf _ =>
            cases hf
            exact ⟨_, rfl⟩
        | excused hf =>
            obtain ⟨e', he⟩ := hf
            cases he
            cases hs
    | excused hf =>
        obtain ⟨e', he⟩ := hf
        cases he
        cases hs
  obtain ⟨m'', hrun'⟩ := hunbounded
  have hm : m.unbounded.sink.NeverFails := ⟨rfl, rfl⟩
  cases hb : p.behaviour? fuel m.globals with
  | none =>
      obtain ⟨k, m₁, hle, hrunning⟩ := Program.running_of_exhausted hp h hm hb
      have hended := Machine.run_add_of_ended hrun' (k - fuel)
      rw [Nat.add_sub_cancel' hle, hrunning] at hended
      cases hended
  | some b =>
      obtain ⟨fuel', r, hr, hshows⟩ := Program.shows_of_behaviour hp h hm hb
      obtain rfl := Machine.ended_unique hrun' hr
      obtain ⟨w, hw⟩ := Program.execAll_of_behaviour hb (Option.some.inj hshows.outcome).symm
      exact Program.exists_fails fuel p hw

/-! ## The entry of the table -/

/-- A run that fails does so in one step, or when output is flushed at the end. -/
theorem Machine.exists_step_of_run {f : Failure} {fuel : Nat} (hrun : run fuel m = .ended (.error f m')) :
    ∃ k m₁, run k m = .running m₁ ∧
      (m₁.reader.atEnd = false ∧ step m₁ = .error f m' ∨ Execution.flush m₁ = .error f m') := by
  induction fuel generalizing m with
  | zero => cases hrun
  | succ fuel ih =>
      cases hend : m.reader.atEnd with
      | true =>
          rw [run, if_pos hend] at hrun
          exact ⟨0, m, rfl, .inr (Progress.ended.inj hrun)⟩
      | false =>
          rw [Nat.add_comm, run_succ hend] at hrun
          cases hstep : step m with
          | ok _ m₁ =>
              rw [hstep] at hrun
              obtain ⟨k, m₂, hk, hfails⟩ := ih hrun
              refine ⟨1 + k, m₂, ?_, hfails⟩
              rw [run_succ hend, hstep]
              exact hk
          | error f' m₁ =>
              rw [hstep] at hrun
              cases hrun
              exact ⟨0, m, rfl, .inl ⟨hend, hstep⟩⟩

theorem Execution.span?_of_flush (h : flush m = .error (.runtime e) m') : e.span? = none := by
  unfold flush at h
  split at h <;> cases h
  rfl

/-- The computation makes no error that is located anywhere but at the span. -/
def Execution.Blames {α : Type} (s : Span) (x : Execution α) : Prop :=
  ∀ m e m', x m = .error (.runtime e) m' → ∀ t ∈ e.span?, t = s

/-- The failure is not located anywhere but at the span. -/
def Failure.LocatedAt (s : Span) : Failure → Prop
  | runtime e => ∀ t ∈ e.span?, t = s
  | fault _ => True

theorem Failure.locatedAt_of_span? (he : e.span? = some s) : Failure.LocatedAt s (.runtime e) := by
  intro t ht
  rw [he] at ht
  exact (Option.some.inj ht).symm

open Execution in
/-- What a line fails with is located at its span. -/
theorem Line.execute_blames (o : Nat) (l : Line) : Blames l.span (l.execute o) := by
  suffices h : FailsOnly (Failure.LocatedAt l.span) (l.execute o) from fun m e m' hm => h m _ m' hm
  obtain ⟨i, s, h⟩ := l
  have hfault : ∀ f, Failure.LocatedAt s (.fault f) := fun f => trivial
  have houtput : ∀ e, Failure.LocatedAt s (.runtime (.output e)) := by
    intro e t ht
    cases ht
  have hpush : ∀ v, FailsOnly (Failure.LocatedAt s) (push v) := fun v => .of_modify _
  cases i with
  | binary op =>
      refine .bind (pop_failsOnly hfault) fun b => .bind (pop_failsOnly hfault) fun a => ?_
      cases op.apply a b with
      | ok v => exact hpush v
      | error r => cases r <;> exact .of_throw (Failure.locatedAt_of_span? rfl)
  | unary op =>
      refine .bind (pop_failsOnly hfault) fun v => ?_
      cases op.apply v with
      | ok r => exact hpush r
      | error r => exact .of_throw (Failure.locatedAt_of_span? rfl)
  | pushConstant k => exact hpush _
  | pushNil => exact hpush _
  | pushTrue => exact hpush _
  | pushFalse => exact hpush _
  | pop => exact .bind (pop_failsOnly hfault) fun v => .of_pure ()
  | print => exact .bind (pop_failsOnly hfault) fun v => printLine_failsOnly houtput _
  | defineGlobal name => exact .bind (pop_failsOnly hfault) fun v => .of_modify _
  | setGlobal name =>
      refine .bind (top_failsOnly hfault) fun v => .bind .of_get fun m => ?_
      by_cases hname : m.globals.contains name = true
      · rw [if_pos hname]
        exact .of_modify _
      · rw [if_neg hname]
        exact .of_throw (Failure.locatedAt_of_span? rfl)
  | getGlobal name =>
      refine .bind .of_get fun m => ?_
      cases m.globals[name]? with
      | some v => exact hpush v
      | none => exact .of_throw (Failure.locatedAt_of_span? rfl)
  | setLocal slot => exact .bind (top_failsOnly hfault) fun v => .bind (place_failsOnly hfault _) fun i => .of_modify _
  | getLocal slot => exact .bind (place_failsOnly hfault _) fun i => .bind .of_get fun m => hpush _
  | jump d => exact decode_failsOnly hfault _
  | jumpIfFalse d =>
      refine .bind (top_failsOnly hfault) fun v => ?_
      by_cases hv : v.truthy = false
      · rw [if_pos hv]
        exact decode_failsOnly hfault _
      · rw [if_neg hv]
        exact .of_pure ()
  | jumpIfTrue d =>
      refine .bind (top_failsOnly hfault) fun v => ?_
      by_cases hv : v.truthy = true
      · rw [if_pos hv]
        exact decode_failsOnly hfault _
      · rw [if_neg hv]
        exact .of_pure ()
  | loop d => exact decode_failsOnly hfault _
  | trap => exact fault_failsOnly hfault _

/-- An error in a step is located by the entry of the table for the instruction. -/
theorem Steady.spanAt?_of_step (hp : p.WellFormed) (h : out.Carries p.assembly) (hm : Steady p out m)
    (hend : m.reader.atEnd = false) (hstep : m.step = .error (.runtime e) m') (hs : e.span? = some s) :
    out.spans.spanAt? m.reader.offset = some s := by
  obtain ⟨l, hl, -, -⟩ := hm.line hp h hend
  rw [Machine.step_eq hm.toRuns h.sound hl] at hstep
  rw [hl.span, Line.execute_blames _ l _ _ _ hstep s hs]

/-- **Errors are reported at the node that fails.** The node that fails first has the span of the error; this span is
the one that the table has for the instruction that fails; and without the table the same happens, with the error
at no place. -/
theorem compile_locates_errors (hp : p.WellFormed) (hc : compile p = .ok out) (m : Machine) (fuel : Nat) :
    (∀ e s m', m.execute fuel out.code out.spans = .ended (.error (.runtime e) m') → e.span? = some s →
      (∃ n v, p.ComesTo { globals := m.globals } n v ∧ n.Fails v e ∧ n.span = s) ∧
      ∃ k m₁, m.execute k out.code out.spans = .running m₁ ∧ m₁.step = .error (.runtime e) m' ∧
        out.spans.spanAt? m₁.reader.offset = some s) ∧
      m.execute fuel out.code {} = (m.execute fuel out.code out.spans).unlocated := by
  have h := compile_carries hc
  refine ⟨?_, m.execute_unlocated fuel out.code out.spans⟩
  intro e s m' hrun hs
  simp only [h.execute_eq m] at hrun ⊢
  constructor
  · obtain ⟨n, v, hn, hfails⟩ := Program.exists_fails_of_run hp h hrun hs
    refine ⟨n, v, hn, hfails, ?_⟩
    rw [hfails.span_eq] at hs
    exact Option.some.inj hs
  · obtain ⟨k, m₁, hk, ⟨hend, hstep⟩ | hflush⟩ := Machine.exists_step_of_run hrun
    · have hsteady := (Steady.loaded p out m).run hp h k
      rw [hk] at hsteady
      exact ⟨k, m₁, hk, hstep, hsteady.spanAt?_of_step hp h hend hstep hs⟩
    · rw [Execution.span?_of_flush hflush] at hs
      cases hs

end Programs

def Outcome.error? : Outcome → Option RuntimeError
  | error e => some e
  | _ => none

theorem Outcome.eq_error_of_of? {r : EStateM.Result Failure Machine Unit} {b : Outcome} {e : RuntimeError}
    (h : Outcome.of? r = some b) (herror : b.error? = some e) : ∃ m', r = .error (.runtime e) m' := by
  unfold Outcome.of? at h
  split at h <;> cases h <;> cases herror
  exact ⟨_, rfl⟩

/-- `var a = "b"; while (a) { print a; a = a - nil; }` with the span of the difference. -/
def Program.failingRound : Program :=
  [.var "a" (some (.literal (.string "b") {})) {},
    .whileLoop (.var "a" {})
      (.block
        [.print (.var "a" {}) {},
          .expression (.assign "a" (.binary .subtract (.var "a" {}) (.literal .nil {}) ⟨38, 45, 1, 39⟩) {}) {}] {})
      {}]

theorem compile_locates_errors_failingRound :
    ∃ out fuel m', compile Program.failingRound = .ok out ∧
      Machine.execute fuel out.code out.spans {} =
        .ended (.error (.runtime (.unsupportedBinary .subtract .string .nil ⟨38, 45, 1, 39⟩)) m') ∧
      (∃ n v, Program.failingRound.ComesTo {} n v ∧
        n.Fails v (.unsupportedBinary .subtract .string .nil ⟨38, 45, 1, 39⟩) ∧ n.span = ⟨38, 45, 1, 39⟩) ∧
      Machine.execute fuel out.code {} {} =
        .ended (.error (.runtime (.unsupportedBinary .subtract .string .nil {})) m'.unlocated) := by
  have hp : Program.failingRound.WellFormed := by decide
  have hok : (compile Program.failingRound).isOk = true := by decide +kernel
  have hb : ((Program.failingRound.behaviour? 1 {}).bind (·.outcome.error?)) =
      some (.unsupportedBinary .subtract .string .nil ⟨38, 45, 1, 39⟩) := by decide +kernel
  cases hc : compile Program.failingRound with
  | error e => rw [hc] at hok; cases hok
  | ok out =>
      have hm : ({} : Machine).sink.NeverFails := ⟨rfl, rfl⟩
      obtain ⟨b, hbehaviour, herror⟩ := Option.bind_eq_some_iff.mp hb
      obtain ⟨fuel, r, hrun, hshows⟩ := Program.shows_of_behaviour hp (compile_carries hc) hm hbehaviour
      obtain ⟨m', rfl⟩ := Outcome.eq_error_of_of? hshows.outcome herror
      rw [← (compile_carries hc).execute_eq] at hrun
      obtain ⟨hlocates, hunlocated⟩ := compile_locates_errors hp hc {} fuel
      refine ⟨out, fuel, m', rfl, hrun, (hlocates _ _ m' hrun rfl).1, ?_⟩
      rw [hunlocated, hrun]
      rfl

end Lox
