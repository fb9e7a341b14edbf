import Lox.Proofs.Boundaries
import Lox.Proofs.Stepping

/-!
# The discipline of the stack

* `Line.execute_leads` : a balanced line leads to a place with the height it leaves, or fails as programs may;
* `Steady` : the machine is at a place with a height, and has that many values; `Steady.run` : it stays so;
* `Disciplined` : what holds of the machine before every instruction;
* `compile_keepsDiscipline` : compiled programs keep the discipline, and so never fault but at the trap.
-/

namespace Lox

/-! ## One step -/

/-- What the execution of a line at offset `o` comes to: a place that the line leads to with as many values as
it leaves, an error of the program, or the trap. -/
def Leads (out : Compiled) (o : Nat) (l : Line) : EStateM.Result Failure Machine Unit → Prop
  | .ok _ m => m.Runs out ∧ m.reader.offset ∈ l.instr.next o ∧
      m.stack.length = l.height - l.instr.needs + l.instr.leaves
  | .error (.fault f) _ => f = .trap o
  | .error (.runtime _) _ => True

variable {out : Compiled} {H : Nat → Option Nat} {o : Nat} {l : Line} {m : Machine}

/-- A line that is executed with the right number of values leads where it should. -/
theorem Line.execute_leads (hm : m.Runs out) (hfits : l.instr.Fits out.pool.constants) (hb : l.Balanced H o)
    (hsize : ∀ o' ∈ l.instr.next o, o' ≤ out.code.size) (hoffset : m.reader.offset = o + l.instr.size)
    (hread : o + l.instr.size ≤ out.code.size) (hstack : m.stack.length = l.height) :
    Leads out o l (l.execute o m) := by
  obtain ⟨hneeds, hslot, hback, -⟩ := hb
  obtain ⟨i, s, h⟩ := l
  dsimp only at *
  have hruns : ∀ m' : Machine, m'.reader.code = m.reader.code → m'.spans = m.spans → m'.constants = m.constants →
      m'.Runs out := fun m' hc hs hk => ⟨hc.trans hm.code, hs.trans hm.spans, hk.trans hm.constants⟩
  have hgoto : m.goto (o + i.size) = m := by rw [← hoffset]; rfl
  have hmem : i.next o = [o + i.size] → m.reader.offset ∈ i.next o := fun h => by
    rw [h, hoffset]
    exact List.mem_singleton_self _
  obtain ⟨args, rest, hs, hargs, hrest⟩ : ∃ args rest, m.stack = args ++ rest ∧ args.length = i.needs ∧
      rest.length = h - i.needs :=
    ⟨m.stack.take i.needs, m.stack.drop i.needs, (List.take_append_drop ..).symm, by simp; omega, by simp; omega⟩
  cases i with
  | binary op =>
      obtain ⟨b, a, rfl⟩ := List.length_eq_two.mp hargs
      rw [Line.execute_binary hs]
      cases op.apply a b with
      | ok v => exact ⟨hruns _ rfl rfl rfl, hmem rfl, congrArg (· + 1) hrest⟩
      | error r => cases r <;> trivial
  | unary op =>
      obtain ⟨v, rfl⟩ := List.length_eq_one_iff.mp hargs
      rw [Line.execute_unary hs]
      cases op.apply v with
      | ok r => exact ⟨hruns _ rfl rfl rfl, hmem rfl, congrArg (· + 1) hrest⟩
      | error r => trivial
  | pushConstant k => exact ⟨hruns _ rfl rfl rfl, hmem rfl, congrArg (· + 1) hstack⟩
  | pushNil => exact ⟨hruns _ rfl rfl rfl, hmem rfl, congrArg (· + 1) hstack⟩
  | pushTrue => exact ⟨hruns _ rfl rfl rfl, hmem rfl, congrArg (· + 1) hstack⟩
  | pushFalse => exact ⟨hruns _ rfl rfl rfl, hmem rfl, congrArg (· + 1) hstack⟩
  | pop =>
      obtain ⟨v, rfl⟩ := List.length_eq_one_iff.mp hargs
      rw [Line.execute_pop hs]
      exact ⟨hruns _ rfl rfl rfl, hmem rfl, hrest⟩
  | print =>
      obtain ⟨v, rfl⟩ := List.length_eq_one_iff.mp hargs
      rw [Line.execute_print hs]
      unfold Execution.printLine
      split
      · exact ⟨hruns _ rfl rfl rfl, hmem rfl, hrest⟩
      · trivial
  | defineGlobal name =>
      obtain ⟨v, rfl⟩ := List.length_eq_one_iff.mp hargs
      rw [Line.execute_defineGlobal hs]
      exact ⟨hruns _ rfl rfl rfl, hmem rfl, hrest⟩
  | setGlobal name =>
      obtain ⟨v, rfl⟩ := List.length_eq_one_iff.mp hargs
      rw [Line.execute_setGlobal hs]
      split
      · exact ⟨hruns _ rfl rfl rfl, hmem rfl, hstack.trans (Nat.sub_add_cancel hneeds).symm⟩
      · trivial
  | getGlobal name =>
      rw [Line.execute_getGlobal]
      split
      · exact ⟨hruns _ rfl rfl rfl, hmem rfl, congrArg (· + 1) hstack⟩
      · trivial
  | setLocal slot =>
      obtain ⟨v, rfl⟩ := List.length_eq_one_iff.mp hargs
      rw [Line.execute_setLocal hs hfits (hstack ▸ hslot slot rfl)]
      refine ⟨hruns _ rfl rfl rfl, hmem rfl, ?_⟩
      rw [List.length_set]
      exact hstack.trans (Nat.sub_add_cancel hneeds).symm
  | getLocal slot =>
      rw [Line.execute_getLocal hfits (hstack ▸ hslot slot rfl)]
      exact ⟨hruns _ rfl rfl rfl, hmem rfl, congrArg (· + 1) hstack⟩
  | jump d =>
      have hle : o + 3 + d ≤ m.reader.code.size := hm.code ▸ hsize _ (List.mem_singleton_self _)
      rw [← hgoto, Instr.size_jump, Line.execute_jump hle]
      exact ⟨hruns _ rfl rfl rfl, List.mem_singleton_self _, hstack⟩
  | jumpIfFalse d =>
      obtain ⟨v, rfl⟩ := List.length_eq_one_iff.mp hargs
      have hle : o + 3 + d ≤ m.reader.code.size := hm.code ▸ hsize _ (by simp [Instr.next])
      rw [← hgoto, Instr.size_jumpIfFalse, Line.execute_jumpIfFalse hs hle]
      refine ⟨hruns _ rfl rfl rfl, ?_, hstack.trans (Nat.sub_add_cancel hneeds).symm⟩
      cases v.truthy <;> simp [Instr.next, Machine.goto]
  | jumpIfTrue d =>
      obtain ⟨v, rfl⟩ := List.length_eq_one_iff.mp hargs
      have hle : o + 3 + d ≤ m.reader.code.size := hm.code ▸ hsize _ (by simp [Instr.next])
      rw [← hgoto, Instr.size_jumpIfTrue, Line.execute_jumpIfTrue hs hle]
      refine ⟨hruns _ rfl rfl rfl, ?_, hstack.trans (Nat.sub_add_cancel hneeds).symm⟩
      cases v.truthy <;> simp [Instr.next, Machine.goto]
  | loop d =>
      have hd : d ≤ o + 3 := hback
      rw [← hgoto, Instr.size_loop, Line.execute_loop hd (hm.code ▸ hread)]
      exact ⟨hruns _ rfl rfl rfl, List.mem_singleton_self _, hstack⟩
  | trap => exact rfl

/-! ## Runs -/

structure Steady (p : Program) (out : Compiled) (m : Machine) : Prop extends m.Runs out where
  height : p.heightAt? out m.reader.offset = some m.stack.length

variable {p : Program}

/-- Where a height is known there is a line of the program, if it is not the end. -/
theorem Program.line_of_height (hp : p.WellFormed) (h : out.Carries p.assembly) {k : Nat}
    (hk : p.heightAt? out o = some k) (hend : o < out.code.size) :
    ∃ l, out.HoldsLine o l ∧ l.height = k ∧ l.Balanced (p.heightAt? out) o := by
  rcases Assembly.heightAt?_eq_some hk with ⟨pre, l, post, heq, rfl, hl⟩ | ⟨rfl, -⟩
  · have hbalanced := Program.balanced hp out
    rw [heq, Assembly.balanced_append, Assembly.balanced_cons] at hbalanced
    rw [heq] at h
    exact ⟨l, h.holdsLine, hl, hbalanced.2.1⟩
  · rw [h.size_code] at hend
    exact absurd hend (Nat.lt_irrefl _)

theorem Program.le_size_of_height (h : out.Carries p.assembly) {k : Nat} (hk : p.heightAt? out o = some k) :
    o ≤ out.code.size := by
  rw [h.size_code]
  rcases Assembly.heightAt?_eq_some hk with ⟨pre, l, post, heq, rfl, -⟩ | ⟨rfl, -⟩
  · rw [heq, Assembly.size_append]
    omega
  · exact Nat.le_refl _

namespace Steady

theorem loaded (p : Program) (out : Compiled) (m : Machine) : Steady p out (m.loaded out) where
  toRuns := m.loaded_runs out
  height := Stmt.height_startAll p (Assembly.marked_heightAt? [] p.assembly) (Assembly.heightAt?_end p.assembly)

theorem line (hp : p.WellFormed) (h : out.Carries p.assembly) (hs : Steady p out m) (hend : m.reader.atEnd = false) :
    ∃ l, out.HoldsLine m.reader.offset l ∧ l.height = m.stack.length ∧
      l.Balanced (p.heightAt? out) m.reader.offset := by
  rw [Reader.atEnd, decide_eq_false_iff_not, hs.code, Nat.not_le] at hend
  exact Program.line_of_height hp h hs.height hend

/-- A step keeps the machine steady, unless the program fails or comes to the trap. -/
theorem step (hp : p.WellFormed) (h : out.Carries p.assembly) (hs : Steady p out m)
    (hend : m.reader.atEnd = false) : match m.step with
      | .ok _ m' => Steady p out m'
      | .error (.fault f) _ => f = .trap m.reader.offset
      | .error (.runtime _) _ => True := by
  obtain ⟨l, hl, hheight, hbalanced⟩ := hs.line hp h hend
  have hsize : ∀ o ∈ l.instr.next m.reader.offset, o ≤ out.code.size := by
    intro o ho
    exact Program.le_size_of_height h (hbalanced.next o ho)
  have hleads := Line.execute_leads (hs.goto (m.reader.offset + l.instr.size)) hl.fits hbalanced hsize rfl hl.le_size
    hheight.symm
  rw [Machine.step_eq hs.toRuns h.sound hl]
  revert hleads
  generalize l.execute m.reader.offset (m.goto (m.reader.offset + l.instr.size)) = r
  intro hleads
  match r, hleads with
  | .ok _ m', ⟨hruns, hnext, hlength⟩ => exact ⟨hruns, by rw [hlength]; exact hbalanced.next _ hnext⟩
  | .error (.fault f) _, hf => exact hf
  | .error (.runtime _) _, _ => trivial

/-- At the end of the code the stack is empty. -/
theorem stack_of_atEnd (h : out.Carries p.assembly) (hs : Steady p out m) (hend : m.reader.atEnd = true) :
    m.stack = [] := by
  have hle := Program.le_size_of_height h hs.height
  rw [Reader.atEnd, decide_eq_true_iff, hs.code] at hend
  have hoffset : m.reader.offset = out.start + p.assembly.size := by
    rw [← h.size_code]
    omega
  have hheight := hs.height
  rw [hoffset, Program.heightAt?, Assembly.heightAt?_end] at hheight
  exact List.length_eq_zero_iff.mp (Option.some.inj hheight).symm

/-- What a run from a steady machine comes to. -/
theorem run (hp : p.WellFormed) (h : out.Carries p.assembly) (hs : Steady p out m) (fuel : Nat) :
    match m.run fuel with
    | .running m' => Steady p out m'
    | .ended (.ok _ m') => m'.stack = []
    | .ended (.error (.fault f) _) => ∃ o, f = .trap o
    | .ended (.error (.runtime _) _) => True := by
  induction fuel generalizing m with
  | zero => exact hs
  | succ fuel ih =>
      rw [Machine.run]
      cases hend : m.reader.atEnd with
      | true =>
          have hstack := hs.stack_of_atEnd h hend
          simp only [if_true, Execution.flush]
          cases Sink.flush m.sink with
          | ok _ sink => exact hstack
          | error e sink => trivial
      | false =>
          have hstep := hs.step hp h hend
          revert hstep
          generalize m.step = r
          intro hstep
          cases r with
          | ok _ m' => exact ih hstep
          | error f m' =>
              cases f with
              | fault f => exact ⟨_, hstep⟩
              | runtime e => trivial

end Steady

/-! ## What holds before every instruction -/

/-- What the machine needs of an operand of one byte, when there are `depth` values on the stack: the slot of a
local variable is on it, a constant has been loaded, and the name of a global variable is a text. -/
def Opcode.Accepts (depth : Nat) (constants : Array Value) (operand : UInt8) : Opcode → Prop
  | setLocal | getLocal => operand.toNat < depth
  | pushConstant => operand.toNat < constants.size
  | defineGlobal | setGlobal | getGlobal => ∃ name, constants[operand.toNat]? = some (.string name)
  | _ => True

/-- The operand of an instruction with one is acceptable. -/
theorem Instr.accepts_operand {pool : List Constant} {i : Instr} {h : Nat} (hlen : pool.length ≤ 256)
    (hfits : i.Fits pool) (hslot : ∀ slot ∈ i.slot?, slot < h) (hform : i.opcode.form = .byte) :
    ∃ b, i.operand pool = [b] ∧ i.opcode.Accepts h (pool.map Constant.value).toArray b := by
  have hindex : ∀ k ∈ pool, (UInt8.ofNat (pool.idxOf k)).toNat = pool.idxOf k := by
    intro k hk
    exact UInt8.toNat_ofNat_of_lt' (Nat.lt_of_lt_of_le (List.idxOf_lt_length_of_mem hk) hlen)
  have hname : ∀ name, .string name ∈ pool → ∃ name', ((pool.map Constant.value).toArray)[(UInt8.ofNat
      (pool.idxOf (.string name))).toNat]? = some (.string name') := by
    intro name hk
    rw [hindex _ hk, List.getElem?_toArray, List.getElem?_map, List.getElem?_idxOf hk]
    exact ⟨name, rfl⟩
  have hlocal : ∀ slot, slot < 256 → slot < h → (UInt8.ofNat slot).toNat < h := by
    intro slot hlt hslot
    rwa [UInt8.toNat_ofNat_of_lt' hlt]
  cases i with
  | pushConstant k =>
      refine ⟨_, rfl, ?_⟩
      rw [opcode, Opcode.Accepts, hindex k hfits, List.size_toArray, List.length_map]
      exact List.idxOf_lt_length_of_mem hfits
  | defineGlobal name => exact ⟨_, rfl, hname name hfits⟩
  | setGlobal name => exact ⟨_, rfl, hname name hfits⟩
  | getGlobal name => exact ⟨_, rfl, hname name hfits⟩
  | setLocal slot => exact ⟨_, rfl, hlocal slot hfits (hslot slot rfl)⟩
  | getLocal slot => exact ⟨_, rfl, hlocal slot hfits (hslot slot rfl)⟩
  | _ => cases hform

/-- Before the next instruction, the stack has the depth that belongs to the place in the code, and the operand
of the instruction is acceptable. -/
structure Disciplined (depth : Nat → Option Nat) (m : Machine) : Prop where
  height : depth m.reader.offset = some m.stack.length
  operand : ∀ op : Opcode, m.reader.code[m.reader.offset]? = some op.toByte → op.form = .byte →
    ∃ b, m.reader.code[m.reader.offset + 1]? = some b ∧ op.Accepts m.stack.length m.constants b

theorem Steady.disciplined (hp : p.WellFormed) (h : out.Carries p.assembly) (hs : Steady p out m) :
    Disciplined (p.heightAt? out) m where
  height := hs.height
  operand := by
    intro op hop hform
    obtain ⟨hlt, -⟩ := Array.getElem?_eq_some_iff.mp hop
    have hend : m.reader.atEnd = false := by
      rw [Reader.atEnd, decide_eq_false_iff_not]
      omega
    obtain ⟨l, hl, hheight, hbalanced⟩ := hs.line hp h hend
    have hline : out.code[m.reader.offset]? = some l.instr.opcode.toByte := hl.bytes 0 _ rfl
    rw [hs.code, hline] at hop
    have hsame : some l.instr.opcode = some op := by
      rw [← Opcode.ofByte?_toByte, ← Opcode.ofByte?_toByte, Option.some.inj hop]
    obtain rfl := Option.some.inj hsame
    obtain ⟨b, hoperand, haccepts⟩ := Instr.accepts_operand h.sound.length_le hl.fits hbalanced.slot hform
    refine ⟨b, Machine.operand_byte hs.toRuns hl hoperand, ?_⟩
    rwa [hs.constants, ← hheight]

/-- What a compiled program is known to do to the stack, however far it is executed and whatever is left in the
machine from before. -/
structure KeepsDiscipline (p : Program) (out : Compiled) (depth : Nat → Option Nat) : Prop where
  /-- The depth of the stack depends on the place in the code alone. -/
  running : ∀ m fuel m', Machine.execute fuel out.code out.spans m = .running m' → Disciplined depth m'
  /-- Before and behind each statement there are the local variables on the stack. -/
  boundary : ∀ s c, Compilation.Meets p {} s c → ∃ c', Compilation.statement s c = .ok () c' ∧
    depth (out.start + c.chunk.offset) = some c.locals.length ∧
    depth (out.start + c'.chunk.offset) = some c'.locals.length
  fault : ∀ m fuel f m', Machine.execute fuel out.code out.spans m = .ended (.error (.fault f) m') → ∃ o, f = .trap o
  success : ∀ m fuel m', Machine.execute fuel out.code out.spans m = .ended (.ok () m') → m'.stack = []

/-- **Compiled programs keep the discipline of the stack.** -/
theorem compile_keepsDiscipline (hp : p.WellFormed) (hc : compile p = .ok out) :
    ∃ depth, KeepsDiscipline p out depth := by
  have h := compile_carries hc
  have hrun := fun m => (Steady.loaded p out m).run hp h
  refine ⟨p.heightAt? out, ?_, ?_, ?_, ?_⟩
  · intro m fuel m' hm
    have hsteady := hrun m fuel
    rw [← h.execute_eq m fuel, hm] at hsteady
    exact hsteady.disciplined hp h
  · intro s c hmeets
    obtain ⟨c', hplaced⟩ := Program.placed hp hc
    exact hmeets.boundaries hplaced
  · intro m fuel f m' hm
    have hfault := hrun m fuel
    rwa [← h.execute_eq m fuel, hm] at hfault
  · intro m fuel m' hm
    have hempty := hrun m fuel
    rwa [← h.execute_eq m fuel, hm] at hempty

def Program.nestedScopes : Program :=
  [.block
    [.var "a" (some (.literal (.boolean true) {})) {},
      .block
        [.var "b" (some (.var "a" {})) {},
          .whileLoop (.logical .and (.var "b" {}) (.var "a" {}) {})
            (.block
              [.var "c" (some (.unary .not (.var "b" {}) {})) {},
                .expression (.assign "b" (.var "c" {}) {}) {}] {})
            {}]
        {},
      .ifElse (.var "a" {}) (.print (.var "a" {}) {}) (some (.expression (.assign "a" (.literal .nil {}) {}) {})) {}]
    {}]

theorem compile_keepsDiscipline_nestedScopes :
    Program.nestedScopes.WellFormed ∧
      ∃ out depth, compile Program.nestedScopes = .ok out ∧ KeepsDiscipline Program.nestedScopes out depth := by
  have hp : Program.nestedScopes.WellFormed := by decide
  have hok : (compile Program.nestedScopes).isOk = true := by decide +kernel
  cases hc : compile Program.nestedScopes with
  | error e => rw [hc] at hok; cases hok
  | ok out =>
      obtain ⟨depth, hdepth⟩ := compile_keepsDiscipline hp hc
      exact ⟨hp, out, depth, rfl, hdepth⟩

end Lox
