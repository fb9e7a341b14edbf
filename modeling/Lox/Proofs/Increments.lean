import Lox.Proofs.Discipline
import Lox.Proofs.Landing
import Lox.Proofs.Lockstep
import Lox.Proofs.Preservation
import Lox.Proofs.Recompilation

/-!
# Programs in two parts

A program may be compiled and executed in one piece or part after part, with the globals handed on.

* `Shared` : assembly that stands in the code of two compiled programs, at the end of the first;
* `Shared.Twins` : two machines at the same place of it, with the same values;
* `Shared.Twins.step` : a step keeps twins twins, `Shared.accord` being the accord for `Accord.lockstep`;
* `EndsAlike` : two runs end with the same failure, stack and globals;
* `compile_append_runs` : a program of two parts does what its parts do in turn.
-/

namespace Lox

open Machine (Reaches)

/-! ## Parts of programs -/

theorem Stmt.assemblyAll_append (σ : Scope) (p q : List Stmt) :
    Stmt.assemblyAll σ (p ++ q) = Stmt.assemblyAll σ p ++ Stmt.assemblyAll (σ.extend (Stmt.declaredAll p)) q := by
  induction p generalizing σ with
  | nil => simp [Stmt.assemblyAll, Stmt.declaredAll]
  | cons s p ih =>
      rw [List.cons_append, Stmt.assemblyAll, ih, Stmt.assemblyAll, Stmt.declaredAll, Scope.extend_append,
        List.append_assoc]

theorem Program.assembly_append (p q : Program) : Program.assembly (p ++ q) = p.assembly ++ q.assembly :=
  Stmt.assemblyAll_append [] p q

/-- The failure, wherever a trap stands. -/
def Failure.unplaced : Failure → Failure
  | fault (.trap _) => fault (.trap 0)
  | f => f

/-- Assembly that stands in the code of two compiled programs, at the end of the first. -/
structure Shared where
  assembly : Assembly
  first : Compiled
  second : Compiled
  start₁ : Nat
  start₂ : Nat
  holds₁ : first.Holds start₁ assembly
  holds₂ : second.Holds start₂ assembly
  sound₁ : first.pool.Sound
  sound₂ : second.pool.Sound
  lands : Assembly.All (Line.Lands (assembly.IsBoundary 0)) 0 assembly
  size₁ : first.code.size = start₁ + assembly.size
  size₂ : start₂ + assembly.size ≤ second.code.size

namespace Shared

variable {p q : Program} {out part : Compiled}

def leading (hout : out.Carries (p.assembly ++ q.assembly)) (hpart : part.Carries p.assembly) : Shared where
  assembly := p.assembly
  first := part
  second := out
  start₁ := part.start
  start₂ := out.start
  holds₁ := hpart.holds
  holds₂ := (Compiled.holds_append.mp hout.holds).1
  sound₁ := hpart.sound
  sound₂ := hout.sound
  lands := p.lands 0
  size₁ := hpart.size_code
  size₂ := by
    rw [hout.size_code, Assembly.size_append]
    omega

def trailing (hout : out.Carries (p.assembly ++ q.assembly)) (hpart : part.Carries q.assembly) : Shared where
  assembly := q.assembly
  first := part
  second := out
  start₁ := part.start
  start₂ := out.start + p.assembly.size
  holds₁ := hpart.holds
  holds₂ := hout.holds_suffix
  sound₁ := hpart.sound
  sound₂ := hout.sound
  lands := q.lands 0
  size₁ := hpart.size_code
  size₂ := by
    rw [hout.size_code, Assembly.size_append]
    omega

/-! ## Twins -/

/-- Two machines at the same place of the assembly, with the same values, which have written the same since their
sinks held `s₁` and `s₂`. -/
structure Twins (t : Shared) (s₁ s₂ : ByteArray) (m n : Machine) : Prop where
  runs₁ : m.Runs t.first
  runs₂ : n.Runs t.second
  place : ∃ x, t.assembly.IsBoundary 0 x ∧ m.reader.offset = t.start₁ + x ∧ n.reader.offset = t.start₂ + x
  stack : m.stack = n.stack
  globals : m.globals = n.globals
  output : ∃ w, m.sink = { written := s₁ ++ w } ∧ n.sink = { written := s₂ ++ w }

/-- Twins are alike; their failures differ in the place of a trap at most. -/
def accord (t : Shared) (s₁ s₂ : ByteArray) : Accord where
  machines := t.Twins s₁ s₂
  failures f g := f.unplaced = g.unplaced
  excused _ := False

variable {t : Shared} {s₁ s₂ : ByteArray} {m n : Machine}

theorem accord_shares (t : Shared) (s₁ s₂ : ByteArray) : (t.accord s₁ s₂).Shares where
  stack h := h.stack
  globals h name := by rw [h.globals]
  setStack vs h :=
    { h with runs₁ := h.runs₁.congr rfl rfl rfl, runs₂ := h.runs₂.congr rfl rfl rfl, stack := rfl }
  insertGlobal name v h :=
    { h with
      runs₁ := h.runs₁.congr rfl rfl rfl
      runs₂ := h.runs₂.congr rfl rfl rfl
      globals := congrArg (·.insert name v) h.globals }
  fault f := rfl
  printLine := by
    intro m n text h
    obtain ⟨w, hm, hn⟩ := h.output
    unfold Execution.printLine
    rw [hm, hn, Sink.write_apply rfl, Sink.write_apply rfl]
    refine .ok () { h with
      runs₁ := h.runs₁.congr rfl rfl rfl
      runs₂ := h.runs₂.congr rfl rfl rfl
      output := ⟨w ++ (text ++ "\n").toUTF8, ?_, ?_⟩ }
    · simp [ByteArray.append_assoc]
    · simp [ByteArray.append_assoc]

theorem Twins.goto (h : t.Twins s₁ s₂ m n) {x : Nat} (hx : t.assembly.IsBoundary 0 x) :
    t.Twins s₁ s₂ (m.goto (t.start₁ + x)) (n.goto (t.start₂ + x)) :=
  { h with runs₁ := h.runs₁.goto _, runs₂ := h.runs₂.goto _, place := ⟨x, hx, rfl, rfl⟩ }

/-- Twins that jump by the same distance are at the same place afterwards. -/
theorem Twins.jump (h : t.Twins s₁ s₂ m n) {x y : Nat} {d : Int} (hd : (x : Int) + d = y)
    (hy : t.assembly.IsBoundary 0 y) :
    (t.accord s₁ s₂).Results (Execution.decode (Reader.jump d) (m.goto (t.start₁ + x)))
      (Execution.decode (Reader.jump d) (n.goto (t.start₂ + x))) := by
  have hle := hy.le.2
  have hsize₁ := t.size₁
  have hsize₂ := t.size₂
  have hm : t.start₁ + y ≤ m.reader.code.size := by
    rw [h.runs₁.code]
    omega
  have hn : t.start₂ + y ≤ n.reader.code.size := by
    rw [h.runs₂.code]
    omega
  rw [Execution.jump_apply (by omega) hm, Execution.jump_apply (by omega) hn]
  exact .ok () (h.goto hy)

/-- Twins that execute the same line stay twins. -/
theorem Twins.execute (h : t.Twins s₁ s₂ m n) {l : Line} {x : Nat} (hl : l.Lands (t.assembly.IsBoundary 0) x)
    (hbehind : t.assembly.IsBoundary 0 (x + l.instr.size)) :
    (t.accord s₁ s₂).Results
      (l.execute (t.start₁ + x) (m.goto (t.start₁ + (x + l.instr.size))))
      (l.execute (t.start₂ + x) (n.goto (t.start₂ + (x + l.instr.size)))) := by
  have hA := accord_shares t s₁ s₂
  have h' := h.goto hbehind
  obtain ⟨hnext, hback⟩ := hl
  obtain ⟨i, s, height⟩ := l
  cases i with
  | binary op =>
      refine (hA.pop h').bind fun b m₁ n₁ h₁ => (hA.pop h₁).bind fun a m₂ n₂ h₂ => ?_
      cases op.apply a b with
      | ok v => exact hA.push h₂ v
      | error r => cases r <;> exact .error rfl h₂
  | unary op =>
      refine (hA.pop h').bind fun v m₁ n₁ h₁ => ?_
      cases op.apply v with
      | ok r => exact hA.push h₁ r
      | error r => exact .error rfl h₁
  | pushConstant k => exact hA.push h' _
  | pushNil => exact hA.push h' _
  | pushTrue => exact hA.push h' _
  | pushFalse => exact hA.push h' _
  | pop => exact (hA.pop h').bind fun v m₁ n₁ h₁ => .ok () h₁
  | print => exact (hA.pop h').bind fun v m₁ n₁ h₁ => hA.printLine _ h₁
  | defineGlobal name => exact (hA.pop h').bind fun v m₁ n₁ h₁ => hA.setGlobal h₁ name v
  | setGlobal name =>
      refine (hA.top h').bind fun v m₁ n₁ h₁ => .get ?_
      rw [← hA.contains h₁]
      by_cases hname : m₁.globals.contains name = true
      · rw [if_pos hname]
        exact hA.setGlobal h₁ name v
      · rw [if_neg hname]
        exact .error rfl h₁
  | getGlobal name =>
      refine .get ?_
      rw [← hA.globals h']
      cases (m.goto _).globals[name]? with
      | some v => exact hA.push h' v
      | none => exact .error rfl h'
  | setLocal slot =>
      refine (hA.top h').bind fun v m₁ n₁ h₁ => (hA.place h₁ _).bind fun i m₂ n₂ h₂ => ?_
      exact hA.setPlace h₂ i v
  | getLocal slot =>
      refine (hA.place h' _).bind fun i m₁ n₁ h₁ => .get ?_
      rw [← hA.stack h₁]
      exact hA.push h₁ _
  | jump d => exact h.jump (by push_cast; rfl) (hnext _ (List.mem_singleton_self _))
  | jumpIfFalse d =>
      refine (hA.top h').bind_of_ok fun v m₁ n₁ hm hn h₁ => ?_
      obtain ⟨-, rfl⟩ := Execution.top_eq_ok hm
      obtain ⟨-, rfl⟩ := Execution.top_eq_ok hn
      by_cases hv : v.truthy = false
      · rw [if_pos hv]
        exact h.jump (by push_cast; rfl) (hnext _ (by simp [Instr.next]))
      · rw [if_neg hv]
        exact .ok () h'
  | jumpIfTrue d =>
      refine (hA.top h').bind_of_ok fun v m₁ n₁ hm hn h₁ => ?_
      obtain ⟨-, rfl⟩ := Execution.top_eq_ok hm
      obtain ⟨-, rfl⟩ := Execution.top_eq_ok hn
      by_cases hv : v.truthy = true
      · rw [if_pos hv]
        exact h.jump (by push_cast; rfl) (hnext _ (by simp [Instr.next]))
      · rw [if_neg hv]
        exact .ok () h'
  | loop d =>
      have hd := (hback d rfl).2
      exact h.jump (by rw [Instr.size_loop]; omega) (hnext _ (List.mem_singleton_self _))
  | trap => exact .error rfl h'

/-- A step keeps twins twins, up to the end of the assembly. -/
theorem Twins.step (h : t.Twins s₁ s₂ m n) (hend : m.reader.atEnd = false) :
    n.reader.atEnd = false ∧ (t.accord s₁ s₂).Results m.step n.step := by
  obtain ⟨x, hx, hm, hn⟩ := h.place
  rcases hx.line_or_end with ⟨pre, l, post, ha, rfl⟩ | rfl
  · have hl₁ : t.first.HoldsLine m.reader.offset l := by
      have := t.holds₁.line ha
      rwa [hm, Nat.zero_add]
    have hl₂ : t.second.HoldsLine n.reader.offset l := by
      have := t.holds₂.line ha
      rwa [hn, Nat.zero_add]
    have hbehind : t.assembly.IsBoundary 0 (0 + pre.size + l.instr.size) :=
      ⟨pre ++ [l], post, by simp [ha], by simp⟩
    refine ⟨Machine.atEnd_of_holdsLine h.runs₂ hl₂, ?_⟩
    rw [Machine.step_eq h.runs₁ t.sound₁ hl₁, Machine.step_eq h.runs₂ t.sound₂ hl₂, hm, hn, Nat.add_assoc,
      Nat.add_assoc t.start₂]
    exact h.execute (t.lands.line ha) hbehind
  · rw [Reader.atEnd, decide_eq_false_iff_not, h.runs₁.code, t.size₁] at hend
    omega

theorem Twins.neverFails (h : t.Twins s₁ s₂ m n) : m.sink.NeverFails := by
  obtain ⟨w, hm, -⟩ := h.output
  rw [hm]
  exact ⟨rfl, rfl⟩

theorem Twins.flush (h : t.Twins s₁ s₂ m n) :
    (t.accord s₁ s₂).Results (Execution.flush m) (Execution.flush n) := by
  obtain ⟨w, hm, hn⟩ := h.output
  unfold Execution.flush
  rw [hm, hn]
  exact .ok () { h with
    runs₁ := h.runs₁.congr rfl rfl rfl, runs₂ := h.runs₂.congr rfl rfl rfl, output := ⟨w, rfl, rfl⟩ }

/-- When the first of two twins is at the end of its code, the second is behind the assembly. -/
theorem Twins.offset_of_atEnd (h : t.Twins s₁ s₂ m n) (hend : m.reader.atEnd = true) :
    n.reader.offset = t.start₂ + t.assembly.size := by
  obtain ⟨x, hx, hm, hn⟩ := h.place
  have hle := hx.le.2
  rw [Reader.atEnd, decide_eq_true_iff, h.runs₁.code, t.size₁] at hend
  omega

/-- Twins that both come to the end of their code with the assembly come equally far. -/
theorem Twins.run (h : t.Twins s₁ s₂ m n) (hsize : t.second.code.size = t.start₂ + t.assembly.size) (fuel : Nat) :
    (t.accord s₁ s₂).Progresses (m.run fuel) (n.run fuel) := by
  refine (t.accord s₁ s₂).run (fun h hend => h.step hend) (fun h hend => ⟨?_, h.flush⟩) h fuel
  have hoffset := h.offset_of_atEnd hend
  rw [Reader.atEnd, decide_eq_true_iff, h.runs₂.code, hsize]
  omega

/-- When the run of the first of two twins is over, either it has failed and so has the second, or it has got to the
end of its code and the second is its twin there. -/
theorem Twins.ended (h : t.Twins s₁ s₂ m n) {fuel : Nat} {r : EStateM.Result Failure Machine Unit}
    (hrun : m.run fuel = .ended r) :
    (∃ f g m' n', r = .error f m' ∧ n.run fuel = .ended (.error g n') ∧ f.unplaced = g.unplaced ∧
        t.Twins s₁ s₂ m' n') ∨
      ∃ k m' n', r = .ok () m' ∧ Reaches k m m' ∧ Reaches k n n' ∧ t.Twins s₁ s₂ m' n' ∧
        m'.reader.atEnd = true := by
  have hadvance : (t.accord s₁ s₂).Advance fuel m n := Accord.lockstep (fun h hend => Twins.step h hend) h fuel
  cases hadvance with
  | arrived k m' n' hk hm hn h' hend =>
      obtain ⟨j, rfl⟩ := Nat.exists_eq_add_of_le hk
      rw [hm] at hrun
      cases j with
      | zero => cases hrun
      | succ j =>
          rw [Machine.run_of_atEnd hend (Twins.neverFails h').flush] at hrun
          cases hrun
          exact .inr ⟨k, m', n', rfl, hm, hn, h', hend⟩
  | running m' n' hm hn h' =>
      rw [hrun] at hm
      cases hm
  | failed f g m' n' hm hn hf h' =>
      rw [hrun] at hm
      cases hm
      exact .inl ⟨f, g, m', n', rfl, hn, hf, h'⟩
  | excused f m' hm hf => exact hf.elim

/-- Machines that load a program and its first part are twins. -/
theorem twins_leading (hout : out.Carries (p.assembly ++ q.assembly)) (hpart : part.Carries p.assembly)
    (hm : m.sink.NeverFails) :
    (leading hout hpart).Twins m.sink.written m.sink.written (m.loaded part) (m.loaded out) where
  runs₁ := m.loaded_runs part
  runs₂ := m.loaded_runs out
  place := ⟨0, ⟨[], _, rfl, rfl⟩, rfl, rfl⟩
  stack := rfl
  globals := rfl
  output := ⟨.empty, hm.eq, hm.eq⟩

/-- A machine that loads the rest of a program is the twin of one that has come to it. -/
theorem twins_trailing (hout : out.Carries (p.assembly ++ q.assembly)) (hpart : part.Carries q.assembly)
    (hm : m.sink.NeverFails) (hn : n.sink.NeverFails) (hruns : n.Runs out)
    (hoffset : n.reader.offset = out.start + p.assembly.size) (hstack : n.stack = [])
    (hglobals : m.globals = n.globals) :
    (trailing hout hpart).Twins m.sink.written n.sink.written (m.loaded part) n where
  runs₁ := m.loaded_runs part
  runs₂ := hruns
  place := ⟨0, ⟨[], _, rfl, rfl⟩, rfl, hoffset⟩
  stack := hstack.symm
  globals := hglobals
  output := ⟨.empty, hm.eq, hn.eq⟩

end Shared

/-! ## Programs -/

def Machine.failure? : EStateM.Result Failure Machine Unit → Option Failure
  | .ok _ _ => none
  | .error f _ => some f

/-- Two runs both succeed, or fail in the same way but for the place of a trap, and leave the same values. -/
structure EndsAlike (r s : EStateM.Result Failure Machine Unit) : Prop where
  failure : (Machine.failure? r).map Failure.unplaced = (Machine.failure? s).map Failure.unplaced
  stack : (Machine.left r).stack = (Machine.left s).stack
  globals : (Machine.left r).globals = (Machine.left s).globals

theorem Shared.endsAlike {t : Shared} {s₁ s₂ : ByteArray} {r s : EStateM.Result Failure Machine Unit}
    (h : (t.accord s₁ s₂).Results r s) :
    EndsAlike r s ∧ ∃ w, (Machine.left r).sink.written = s₁ ++ w ∧ (Machine.left s).sink.written = s₂ ++ w := by
  cases h with
  | ok u h =>
      obtain ⟨w, hm, hn⟩ := h.output
      exact ⟨⟨rfl, h.stack, h.globals⟩, w, congrArg Sink.written hm, congrArg Sink.written hn⟩
  | error hf h =>
      obtain ⟨w, hm, hn⟩ := h.output
      exact ⟨⟨congrArg some hf, h.stack, h.globals⟩, w, congrArg Sink.written hm, congrArg Sink.written hn⟩
  | excused hf => exact hf.elim

theorem Shared.ended_or_running {t : Shared} {s₁ s₂ : ByteArray} {a b : Progress Failure Machine}
    (h : (t.accord s₁ s₂).Progresses a b) :
    (∃ r s, a = .ended r ∧ b = .ended s ∧ (t.accord s₁ s₂).Results r s) ∨
      ∃ m n, a = .running m ∧ b = .running n := by
  cases h with
  | running h => exact .inr ⟨_, _, rfl, rfl⟩
  | ended h => exact .inl ⟨_, _, rfl, rfl, h⟩
  | excused hf => exact hf.elim

section Twins

variable {t : Shared} {s₁ s₂ : ByteArray} {m n : Machine} {fuel : Nat}

/-- Twins that both come to the end of their code with the assembly end at the same time. -/
theorem Shared.Twins.ends_iff (h : t.Twins s₁ s₂ m n)
    (hsize : t.second.code.size = t.start₂ + t.assembly.size) (fuel : Nat) :
    (∃ r, m.run fuel = .ended r) ↔ ∃ s, n.run fuel = .ended s := by
  rcases Shared.ended_or_running (h.run hsize fuel) with ⟨r, s, hr, hs, -⟩ | ⟨m', n', hm', hn'⟩
  · exact ⟨fun _ => ⟨s, hs⟩, fun _ => ⟨r, hr⟩⟩
  · rw [hm', hn']
    constructor
    · rintro ⟨_, hr⟩
      cases hr
    · rintro ⟨_, hs⟩
      cases hs

/-- Such twins end alike, however long each of them is run. -/
theorem Shared.Twins.endsAlike (h : t.Twins s₁ s₂ m n) (hsize : t.second.code.size = t.start₂ + t.assembly.size)
    {fuel' : Nat} {r s : EStateM.Result Failure Machine Unit} (hm : m.run fuel = .ended r)
    (hn : n.run fuel' = .ended s) :
    EndsAlike r s ∧ ∃ w, (Machine.left r).sink.written = s₁ ++ w ∧ (Machine.left s).sink.written = s₂ ++ w := by
  rcases Shared.ended_or_running (h.run hsize fuel) with ⟨r', s', hr, hs, hresults⟩ | ⟨m', n', hm', -⟩
  · rw [hm] at hr
    cases hr
    obtain rfl := Machine.ended_unique hn hs
    exact Shared.endsAlike hresults
  · rw [hm] at hm'
    cases hm'

end Twins

section Programs

variable {p q : Program} {out first second : Compiled} {m m' n : Machine} {fuel : Nat}

/-- A failure of the first part is a failure of the whole program. -/
theorem Program.fails_of_leading (hout : out.Carries (p.assembly ++ q.assembly)) (hfirst : first.Carries p.assembly)
    (hm : m.sink.NeverFails) {f : Failure} (hrun : (m.loaded first).run fuel = .ended (.error f m')) :
    ∃ r, (m.loaded out).run fuel = .ended r ∧ EndsAlike (.error f m') r ∧
      (Machine.left r).sink.written = m'.sink.written := by
  rcases (Shared.twins_leading hout hfirst hm).ended hrun with ⟨f', g, m₁, n₁, hr, hn₁, hf, h⟩ | ⟨k, m₁, n₁, hr, -⟩
  · cases hr
    obtain ⟨halike, w, hw, hw'⟩ := Shared.endsAlike (.error hf h)
    exact ⟨_, hn₁, halike, hw'.trans hw.symm⟩
  · cases hr

/-- When the first part succeeds, the whole program comes to its rest with the same globals and an empty stack. -/
theorem Program.reaches_trailing (hp : p.WellFormed) (hout : out.Carries (p.assembly ++ q.assembly))
    (hfirst : first.Carries p.assembly) (hm : m.sink.NeverFails)
    (hrun : (m.loaded first).run fuel = .ended (.ok () m')) :
    ∃ k n, Reaches k (m.loaded out) n ∧ n.Runs out ∧ n.reader.offset = out.start + p.assembly.size ∧
      n.stack = [] ∧ n.globals = m'.globals ∧
      ∃ w, m'.sink.written = m.sink.written ++ w ∧ n.sink = { written := m.sink.written ++ w } := by
  rcases (Shared.twins_leading hout hfirst hm).ended hrun with ⟨f, g, m₁, n₁, hr, -⟩ | ⟨k, m₁, n₁, hr, hm₁, hn₁, h, hend⟩
  · cases hr
  · cases hr
    have hsteady := (Steady.loaded p first m).run hp hfirst k
    rw [show (m.loaded first).run k = .running m' from hm₁ 0] at hsteady
    have hstack := hsteady.stack_of_atEnd hfirst hend
    obtain ⟨w, hw, hw'⟩ := h.output
    exact ⟨k, n₁, hn₁, h.runs₂, h.offset_of_atEnd hend, h.stack.symm.trans hstack, h.globals.symm, w,
      congrArg Sink.written hw, hw'⟩

/-- **A program of two parts does what its parts do in turn.** Each part can be compiled by itself. If the first part
fails, so does the program, in the same way and with the same output. If it succeeds, the program goes on like the
second part started with the globals that the first has left, and its output is that of both. -/
theorem compile_append_runs (hp : p.WellFormed) (hc : compile (p ++ q) = .ok out) :
    ∃ first second, compile p = .ok first ∧ compile q = .ok second ∧ ∀ m : Machine, m.sink.NeverFails →
      (∀ fuel f m', m.execute fuel first.code first.spans = .ended (.error f m') →
        ∃ r, m.execute fuel out.code out.spans = .ended r ∧ EndsAlike (.error f m') r ∧
          (Machine.left r).sink.written = m'.sink.written) ∧
      ∀ fuel m' (n : Machine), m.execute fuel first.code first.spans = .ended (.ok () m') →
        n.globals = m'.globals → n.sink.NeverFails →
        ((∃ fuel r, m.execute fuel out.code out.spans = .ended r) ↔
          ∃ fuel s, n.execute fuel second.code second.spans = .ended s) ∧
        ∀ fuel r fuel' s, m.execute fuel out.code out.spans = .ended r →
          n.execute fuel' second.code second.spans = .ended s → EndsAlike s r ∧
          ∃ w w', m'.sink.written = m.sink.written ++ w ∧ (Machine.left s).sink.written = n.sink.written ++ w' ∧
            (Machine.left r).sink.written = m.sink.written ++ (w ++ w') := by
  obtain ⟨first, second, hp₁, hq₁⟩ := compile_append hc
  have hfirst := compile_carries hp₁
  have hsecond := compile_carries hq₁
  have hout := compile_carries hc
  rw [Program.assembly_append] at hout
  refine ⟨first, second, hp₁, hq₁, fun m hm => ⟨?_, ?_⟩⟩
  · intro fuel f m' hrun
    rw [hfirst.execute_eq] at hrun
    rw [hout.execute_eq]
    exact Program.fails_of_leading hout hfirst hm hrun
  · intro fuel m' n hrun hglobals hn
    simp only [hfirst.execute_eq, hsecond.execute_eq, hout.execute_eq] at hrun ⊢
    obtain ⟨k, n', hreaches, hruns, hoffset, hstack, hglobals', w, hw, hsink⟩ :=
      Program.reaches_trailing hp hout hfirst hm hrun
    have htwins := Shared.twins_trailing hout hsecond hn (by rw [hsink]; exact ⟨rfl, rfl⟩) hruns hoffset hstack
      (hglobals.trans hglobals'.symm)
    have hsize : out.code.size = out.start + p.assembly.size + q.assembly.size := by
      rw [hout.size_code, Assembly.size_append, Nat.add_assoc]
    refine ⟨⟨?_, ?_⟩, ?_⟩
    · rintro ⟨fuel, r, hr⟩
      exact ⟨fuel, (htwins.ends_iff hsize fuel).mpr ⟨r, hreaches.ended hr⟩⟩
    · rintro ⟨fuel, s, hs⟩
      obtain ⟨r, hr⟩ := (htwins.ends_iff hsize fuel).mp ⟨s, hs⟩
      exact ⟨k + fuel, r, (hreaches fuel).trans hr⟩
    · intro fuel r fuel' s hr hs
      obtain ⟨halike, w', hw₁, hw₂⟩ := htwins.endsAlike hsize hs (hreaches.ended hr)
      refine ⟨halike, w, w', hw, hw₁, ?_⟩
      rw [hw₂, hsink, ByteArray.append_assoc]

end Programs

def Program.opening : Program :=
  [.var "a" (some (.literal (.string "b") {})) {},
    .block [.var "c" (some (.var "a" {})) {}, .print (.var "c" {}) {}] {}]

def Program.sequel : Program :=
  [.whileLoop (.var "a" {})
    (.block [.print (.var "a" {}) {}, .expression (.assign "a" (.literal .nil {}) {}) {}] {}) {}]

theorem compile_append_runs_sequel :
    ∃ out first second fuel m' fuel₁ r fuel₂ s,
      compile (Program.opening ++ Program.sequel) = .ok out ∧ compile Program.opening = .ok first ∧
      compile Program.sequel = .ok second ∧
      Machine.execute fuel first.code first.spans {} = .ended (.ok () m') ∧
      Machine.execute fuel₁ out.code out.spans {} = .ended r ∧
      Machine.execute fuel₂ second.code second.spans { globals := m'.globals } = .ended s ∧ EndsAlike s r ∧
      (Machine.left r).sink.written = m'.sink.written ++ (Machine.left s).sink.written := by
  have hok : (compile (Program.opening ++ Program.sequel)).isOk = true := by decide +kernel
  have hopening : (match compile Program.opening with
      | .ok c => match Machine.execute 20 c.code c.spans {} with
        | .ended (.ok _ _) => true
        | _ => false
      | .error _ => false) = true := by decide +kernel
  have hwhole : (match compile (Program.opening ++ Program.sequel) with
      | .ok c => match Machine.execute 40 c.code c.spans {} with
        | .ended _ => true
        | _ => false
      | .error _ => false) = true := by decide +kernel
  cases hc : compile (Program.opening ++ Program.sequel) with
  | error e => rw [hc] at hok; cases hok
  | ok out =>
      obtain ⟨first, second, hp, hq, hruns⟩ := compile_append_runs (by decide) hc
      obtain ⟨-, hafter⟩ := hruns {} ⟨rfl, rfl⟩
      simp only [hp] at hopening
      simp only [hc] at hwhole
      split at hopening
      · rename_i m' hm'
        split at hwhole
        · rename_i r hr
          obtain ⟨hends, halike⟩ := hafter 20 m' { globals := m'.globals } hm' rfl ⟨rfl, rfl⟩
          obtain ⟨fuel, s, hs⟩ := hends.mp ⟨40, r, hr⟩
          obtain ⟨hsr, w, w', hw, hw', hwr⟩ := halike 40 r fuel s hr hs
          refine ⟨out, first, second, 20, m', 40, r, fuel, s, rfl, hp, hq, hm', hr, hs, hsr, ?_⟩
          simp [hw, hw', hwr]
        · cases hwhole
      · cases hopening

end Lox
