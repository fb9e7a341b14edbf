import Lox.Proofs.Layout

/-!
# The height of the stack

Every instruction of a program is executed with the same number of values on the stack, whichever way the
machine got there.

* `Instr.needs`, `Instr.leaves`, `Instr.next` : how many values an instruction takes and leaves, and where the
  machine goes on;
* `Assembly.heightAt?` : the number of values before the instruction at an offset;
* `Line.Balanced` : the heights at all places where a line leads to agree with what it leaves;
* `Expr.balanced`, `Stmt.balanced`, `Program.balanced` : all lines of a program are balanced.
-/

namespace Lox

/-! ## Instructions -/

namespace Instr

/-- How many values an instruction finds on the stack and takes or looks at. -/
def needs : Instr → Nat
  | binary _ => 2
  | unary _ | pop | print | defineGlobal _ | setGlobal _ | setLocal _ | jumpIfFalse _ | jumpIfTrue _ => 1
  | pushConstant _ | pushNil | pushTrue | pushFalse | getGlobal _ | getLocal _ | jump _ | loop _ | trap => 0

/-- How many values an instruction leaves in the place of those it needs. -/
def leaves : Instr → Nat
  | binary _ | unary _ | pushConstant _ | pushNil | pushTrue | pushFalse | setGlobal _ | getGlobal _ | setLocal _
  | getLocal _ | jumpIfFalse _ | jumpIfTrue _ => 1
  | pop | print | defineGlobal _ | jump _ | loop _ | trap => 0

/-- Where the machine may go on after an instruction at offset `o`. -/
def next (o : Nat) : Instr → List Nat
  | jump d => [o + 3 + d]
  | jumpIfFalse d | jumpIfTrue d => [o + 3, o + 3 + d]
  | loop d => [o + 3 - d]
  | trap => []
  | i => [o + i.size]

def slot? : Instr → Option Nat
  | setLocal slot | getLocal slot => some slot
  | _ => none

def back : Instr → Nat
  | loop d => d
  | _ => 0

end Instr

/-- A line that finds enough values on the stack and agrees with the heights of all places it leads to. -/
structure Line.Balanced (H : Nat → Option Nat) (o : Nat) (l : Line) : Prop where
  needs : l.instr.needs ≤ l.height
  slot : ∀ slot ∈ l.instr.slot?, slot < l.height
  back : l.instr.back ≤ o + l.instr.size
  next : ∀ o' ∈ l.instr.next o, H o' = some (l.height - l.instr.needs + l.instr.leaves)

namespace Assembly

/-- The height of the stack at an offset, where the assembly starts at offset `start`. Behind the last
line the stack is empty. -/
def heightAt? (start : Nat) : Assembly → Nat → Option Nat
  | [], o => if o = start then some 0 else none
  | l :: a, o => if o = start then some l.height else heightAt? (start + l.instr.size) a o

def Marked (H : Nat → Option Nat) (o : Nat) (a : Assembly) : Prop :=
  All (fun o l => H o = some l.height) o a

def Balanced (H : Nat → Option Nat) (o : Nat) (a : Assembly) : Prop :=
  All (Line.Balanced H) o a

variable {H : Nat → Option Nat} {o start h : Nat} {a b pre post : Assembly} {l : Line}

theorem marked_append : Marked H o (a ++ b) ↔ Marked H o a ∧ Marked H (o + a.size) b :=
  all_append

theorem marked_cons : Marked H o (l :: a) ↔ H o = some l.height ∧ Marked H (o + l.instr.size) a :=
  Iff.rfl

theorem balanced_append : Balanced H o (a ++ b) ↔ Balanced H o a ∧ Balanced H (o + a.size) b :=
  all_append

theorem balanced_cons : Balanced H o (l :: a) ↔ l.Balanced H o ∧ Balanced H (o + l.instr.size) a :=
  Iff.rfl

theorem heightAt?_append (pre a : Assembly) (ho : start + pre.size ≤ o) :
    heightAt? start (pre ++ a) o = heightAt? (start + pre.size) a o := by
  induction pre generalizing start with
  | nil => simp
  | cons l pre ih =>
      have hpos := l.instr.size_pos
      rw [size_cons] at ho
      rw [List.cons_append, heightAt?, if_neg (by omega), ih (by omega), size_cons, Nat.add_assoc]

theorem marked_heightAt? (pre a : Assembly) :
    Marked (heightAt? start (pre ++ a)) (start + pre.size) a := by
  induction a generalizing pre with
  | nil => trivial
  | cons l a ih =>
      refine marked_cons.mpr ⟨?_, ?_⟩
      · rw [heightAt?_append pre _ (Nat.le_refl _), heightAt?, if_pos rfl]
      · have hnext := ih (pre ++ [l])
        rw [List.append_assoc] at hnext
        simpa [Nat.add_assoc] using hnext

theorem heightAt?_end (a : Assembly) : heightAt? start a (start + a.size) = some 0 := by
  have hend := heightAt?_append a [] (Nat.le_refl (start + a.size))
  rw [List.append_nil] at hend
  rw [hend, heightAt?, if_pos rfl]

/-- A place with a height is the beginning of a line or the end. -/
theorem heightAt?_eq_some (hH : heightAt? start a o = some h) :
    (∃ (pre : Assembly) (l : Line) (post : Assembly), a = pre ++ l :: post ∧ o = start + pre.size ∧ l.height = h) ∨
      (o = start + a.size ∧ h = 0) := by
  induction a generalizing start with
  | nil =>
      rw [heightAt?] at hH
      split at hH
      · cases hH
        exact .inr ⟨by simpa using ‹o = start›, rfl⟩
      · cases hH
  | cons l a ih =>
      rw [heightAt?] at hH
      split at hH
      · cases hH
        exact .inl ⟨[], l, a, rfl, by simpa using ‹o = start›, rfl⟩
      · rcases ih hH with ⟨pre, l', post, rfl, rfl, rfl⟩ | ⟨rfl, rfl⟩
        · exact .inl ⟨l :: pre, l', post, rfl, by simp [Nat.add_assoc], rfl⟩
        · exact .inr ⟨by simp [Nat.add_assoc], rfl⟩

end Assembly

/-! ## Expressions -/

theorem Scope.slot?_lt {σ : Scope} {name : String} {slot : Nat} (h : σ.slot? name = some slot) :
    slot < σ.height :=
  slotIn_lt h

namespace Expr

/-- The first instruction of an expression is executed with the values that were there before it. -/
theorem assembly_eq_cons (e : Expr) (σ : Scope) (h : Nat) :
    ∃ l a, e.assembly σ h = l :: a ∧ l.height = h := by
  induction e generalizing h with
  | literal v s => exact ⟨_, _, rfl, rfl⟩
  | var name s => exact ⟨_, _, rfl, rfl⟩
  | assign name value s ih =>
      obtain ⟨l, a, heq, hl⟩ := ih h
      exact ⟨l, _, by rw [assembly, heq]; rfl, hl⟩
  | unary op operand s ih =>
      obtain ⟨l, a, heq, hl⟩ := ih h
      exact ⟨l, _, by rw [assembly, heq]; rfl, hl⟩
  | binary op left right s ihl ihr =>
      obtain ⟨l, a, heq, hl⟩ := ihl h
      exact ⟨l, _, by rw [assembly, heq]; rfl, hl⟩
  | logical op left right s ihl ihr =>
      obtain ⟨l, a, heq, hl⟩ := ihl h
      exact ⟨l, _, by rw [assembly, heq]; rfl, hl⟩
  | grouping inner s ih => exact ih h
  | call callee arguments s => exact ⟨_, _, rfl, rfl⟩

variable {H : Nat → Option Nat} {o h : Nat} {σ : Scope}

theorem height_start (e : Expr) (hm : Assembly.Marked H o (e.assembly σ h)) : H o = some h := by
  obtain ⟨l, a, heq, rfl⟩ := e.assembly_eq_cons σ h
  rw [heq] at hm
  exact hm.1

end Expr

/-- An instruction that goes on behind itself. -/
theorem Line.Balanced.single {H : Nat → Option Nat} {o h : Nat} {i : Instr} {s : Span} (hneeds : i.needs ≤ h)
    (hslot : ∀ slot ∈ i.slot?, slot < h) (hnext : i.next o = [o + i.size])
    (hback : i.back = 0) (hH : H (o + i.size) = some (h - i.needs + i.leaves)) :
    Line.Balanced H o ⟨i, s, h⟩ where
  needs := hneeds
  slot := hslot
  back := by rw [hback]; exact Nat.zero_le _
  next := by
    intro o' ho'
    rw [hnext, List.mem_singleton] at ho'
    rw [ho', hH]

/-- An instruction that goes on behind itself and accesses no local variable. -/
theorem Line.Balanced.free {H : Nat → Option Nat} {o h : Nat} {i : Instr} {s : Span} (hneeds : i.needs ≤ h)
    (hslot : i.slot? = none) (hnext : i.next o = [o + i.size]) (hback : i.back = 0)
    (hH : H (o + i.size) = some (h - i.needs + i.leaves)) : Line.Balanced H o ⟨i, s, h⟩ := by
  refine .single hneeds ?_ hnext hback hH
  intro slot hs
  rw [hslot] at hs
  exact absurd hs (Option.not_mem_none slot)

theorem Line.Balanced.trap {H : Nat → Option Nat} {o h : Nat} {s : Span} : Line.Balanced H o ⟨.trap, s, h⟩ :=
  ⟨Nat.zero_le _, fun _ hs => absurd hs (Option.not_mem_none _), Nat.zero_le _, fun _ ho => absurd ho List.not_mem_nil⟩

theorem Line.Balanced.jump {H : Nat → Option Nat} {o h d : Nat} {s : Span} (hH : H (o + 3 + d) = some h) :
    Line.Balanced H o ⟨.jump d, s, h⟩ :=
  ⟨Nat.zero_le _, fun _ hs => absurd hs (Option.not_mem_none _), Nat.zero_le _, fun _ ho => List.mem_singleton.mp ho ▸ hH⟩

theorem Line.Balanced.loop {H : Nat → Option Nat} {o h d : Nat} {s : Span} (hd : d ≤ o + 3)
    (hH : H (o + 3 - d) = some h) : Line.Balanced H o ⟨.loop d, s, h⟩ :=
  ⟨Nat.zero_le _, fun _ hs => absurd hs (Option.not_mem_none _), hd, fun _ ho => List.mem_singleton.mp ho ▸ hH⟩

/-- A jump that depends on the topmost value and leaves it. -/
theorem Line.Balanced.branch {H : Nat → Option Nat} {o h d : Nat} {s : Span} (op : LogicalOp)
    (hpass : H (o + 3) = some (h + 1)) (htake : H (o + 3 + d) = some (h + 1)) :
    Line.Balanced H o ⟨op.instr d, s, h + 1⟩ where
  needs := by cases op <;> exact Nat.le_add_left 1 h
  slot := by cases op <;> exact fun _ hs => absurd hs (Option.not_mem_none _)
  back := by cases op <;> exact Nat.zero_le _
  next := by
    have hnext : (op.instr d).next o = [o + 3, o + 3 + d] := by cases op <;> rfl
    have hheight : h + 1 - (op.instr d).needs + (op.instr d).leaves = h + 1 := by cases op <;> rfl
    intro o' ho'
    rw [hnext, List.mem_cons, List.mem_singleton] at ho'
    rw [hheight]
    rcases ho' with rfl | rfl
    · exact hpass
    · exact htake

/-- An access to a variable in scope. -/
theorem Scope.balanced_access {H : Nat → Option Nat} {o h : Nat} {s : Span} {σ : Scope} {name : String}
    {toLocal : Nat → Instr} {toGlobal : String → Instr} (hσ : σ.height ≤ h)
    (hlocal : ∀ slot < h, Line.Balanced H o ⟨toLocal slot, s, h⟩)
    (hglobal : Line.Balanced H o ⟨toGlobal name, s, h⟩) :
    Line.Balanced H o ⟨σ.access toLocal toGlobal name, s, h⟩ := by
  unfold access
  cases hslot : σ.slot? name with
  | none => exact hglobal
  | some slot => exact hlocal slot (Nat.lt_of_lt_of_le (slot?_lt hslot) hσ)

namespace Expr

variable {H : Nat → Option Nat} {o h : Nat} {σ : Scope}

/-- All lines of an expression are balanced, if the expression is followed by what leaves room for its
value. -/
theorem balanced (e : Expr) (hσ : σ.height ≤ h) (hm : Assembly.Marked H o (e.assembly σ h))
    (hend : H (o + (e.assembly σ h).size) = some (h + 1)) : Assembly.Balanced H o (e.assembly σ h) := by
  induction e generalizing o h with
  | literal v s =>
      simp only [assembly, Assembly.size_cons, Assembly.size_nil, Nat.add_zero] at hend
      refine ⟨?_, trivial⟩
      rcases v with _ | (_ | _) | _ | _ <;> exact .free (Nat.zero_le _) rfl rfl rfl hend
  | var name s =>
      simp only [assembly, Assembly.size_cons, Scope.size_access_get] at hend
      refine ⟨Scope.balanced_access hσ (fun slot hlt => ?_) ?_, trivial⟩
      · exact .single (Nat.zero_le _) (fun _ hs => Option.some.inj hs ▸ hlt) rfl rfl hend
      · exact .free (Nat.zero_le _) rfl rfl rfl hend
  | assign name value s ih =>
      simp only [assembly, Assembly.size_append, Assembly.size_cons, Assembly.size_nil, Nat.add_zero,
        Assembly.marked_append, Assembly.marked_cons, Assembly.balanced_append, Scope.size_access_set,
        ← Nat.add_assoc] at hm hend ⊢
      refine ⟨ih hσ hm.1 hm.2.1, Scope.balanced_access (Nat.le_succ_of_le hσ) (fun slot hlt => ?_) ?_, trivial⟩
      · exact .single (Nat.le_add_left 1 h) (fun _ hs => Option.some.inj hs ▸ hlt) rfl rfl hend
      · exact .free (Nat.le_add_left 1 h) rfl rfl rfl hend
  | unary op operand s ih =>
      simp only [assembly, Assembly.size_append, Assembly.size_cons, Assembly.size_nil, Nat.add_zero,
        Assembly.marked_append, Assembly.marked_cons, Assembly.balanced_append, ← Nat.add_assoc] at hm hend ⊢
      refine ⟨ih hσ hm.1 hm.2.1, ?_, trivial⟩
      exact .free (Nat.le_add_left 1 h) rfl rfl rfl hend
  | binary op left right s ihl ihr =>
      simp only [assembly, Assembly.size_append, Assembly.size_cons, Assembly.size_nil, Nat.add_zero,
        Assembly.marked_append, Assembly.marked_cons, Assembly.balanced_append, ← Nat.add_assoc] at hm hend ⊢
      obtain ⟨⟨hleft, hright⟩, hline, -⟩ := hm
      refine ⟨⟨ihl hσ hleft (right.height_start hright), ihr (Nat.le_succ_of_le hσ) hright hline⟩, ?_, trivial⟩
      exact .free (Nat.le_add_left 2 h) rfl rfl rfl hend
  | logical op left right s ihl ihr =>
      simp only [assembly, Assembly.size_append, Assembly.size_cons, Assembly.size_nil, Nat.add_zero,
        Assembly.marked_append, Assembly.marked_cons, Assembly.balanced_append, Assembly.balanced_cons,
        LogicalOp.size_instr, Instr.size_pop, ← Nat.add_assoc] at hm hend ⊢
      obtain ⟨⟨hleft, hjump, hpop, -⟩, hright⟩ := hm
      refine ⟨⟨ihl hσ hleft hjump, ?_, ?_, trivial⟩, ihr hσ hright hend⟩
      · exact .branch op hpop (by rw [← hend]; congr 1; omega)
      · exact .free (Nat.le_add_left 1 h) rfl rfl rfl (right.height_start hright)
  | grouping inner s ih => exact ih hσ hm hend
  | call callee arguments s =>
      exact ⟨.trap, trivial⟩

end Expr

/-! ## Statements -/

theorem Scope.height_cons (names : List String) (σ : Scope) : height (names :: σ) = names.length + σ.height := by
  simp [height]

section Statements

variable {H : Nat → Option Nat} {o h n : Nat} {σ : Scope} {s : Span}

theorem Assembly.height_pops (hm : Marked H o (pops s h n)) (hend : H (o + (pops s h n).size) = some h) :
    H o = some (h + n) := by
  cases n with
  | zero => simpa [pops] using hend
  | succ n => exact hm.1

theorem Assembly.balanced_pops (hm : Marked H o (pops s h n)) (hend : H (o + (pops s h n).size) = some h) :
    Balanced H o (pops s h n) := by
  induction n generalizing o with
  | zero => trivial
  | succ n ih =>
      rw [size_pops, Nat.add_comm n 1, ← Nat.add_assoc] at hend
      have hrest : H (o + 1 + (pops s h n).size) = some h := by rwa [size_pops]
      have hnext : H (o + 1) = some (h + n) := height_pops hm.2 hrest
      exact ⟨.free (Nat.le_add_left 1 _) rfl rfl rfl hnext, ih hm.2 hrest⟩

theorem Expr.initial_height_start {value : Option Expr} (hm : Assembly.Marked H o (Expr.initial σ h s value)) :
    H o = some h := by
  cases value with
  | none => exact hm.1
  | some e => exact e.height_start hm

theorem Expr.balanced_initial {value : Option Expr} (hσ : σ.height ≤ h)
    (hm : Assembly.Marked H o (Expr.initial σ h s value))
    (hend : H (o + (Expr.initial σ h s value).size) = some (h + 1)) :
    Assembly.Balanced H o (Expr.initial σ h s value) := by
  cases value with
  | none => exact ⟨.free (Nat.zero_le _) rfl rfl rfl hend, trivial⟩
  | some e => exact e.balanced hσ hm hend

theorem Scope.declaration_height_start {name : String} {value : Option Expr}
    (hm : Assembly.Marked H o (σ.declaration name value s)) : H o = some σ.height := by
  cases σ with
  | nil => exact Expr.initial_height_start (Assembly.marked_append.mp hm).1
  | cons names outer => exact Expr.initial_height_start hm

theorem Scope.balanced_declaration {name : String} {value : Option Expr}
    (hm : Assembly.Marked H o (σ.declaration name value s))
    (hend : H (o + (σ.declaration name value s).size) = some (σ.extend [name]).height) :
    Assembly.Balanced H o (σ.declaration name value s) := by
  cases σ with
  | nil =>
      simp only [declaration, Assembly.size_append, Assembly.size_cons, Assembly.size_nil, Nat.add_zero,
        Assembly.marked_append, Assembly.marked_cons, Assembly.balanced_append, ← Nat.add_assoc] at hm hend ⊢
      refine ⟨Expr.balanced_initial (Nat.le_refl _) hm.1 hm.2.1, ?_, trivial⟩
      exact .free (Nat.le_refl 1) rfl rfl rfl hend
  | cons names outer =>
      have hheight : (extend (names :: outer) [name]).height = height (names :: outer) + 1 := by
        simp only [extend, height_cons, List.length_append, List.length_singleton]
        omega
      rw [hheight] at hend
      exact Expr.balanced_initial (Nat.le_refl _) hm hend

end Statements

/-- What is on the stack when the statements of a block have been executed. -/
theorem Scope.height_extend_block (σ : Scope) (names : List String) :
    (extend ([] :: σ) names).height = σ.height + names.length := by
  rw [extend, List.append_nil, height_cons, Nat.add_comm]

mutual

/-- Before the first instruction of a statement there are the variables in scope on the stack. -/
theorem Stmt.height_start {H : Nat → Option Nat} (s : Stmt) {σ : Scope} {o : Nat}
    (hm : Assembly.Marked H o (s.assembly σ))
    (hend : H (o + (s.assembly σ).size) = some (σ.extend s.declared).height) : H o = some σ.height := by
  cases s with
  | expression e s =>
      rw [Stmt.assembly, Assembly.marked_append] at hm
      exact e.height_start hm.1
  | print e s =>
      rw [Stmt.assembly, Assembly.marked_append] at hm
      exact e.height_start hm.1
  | var name value s =>
      rw [Stmt.assembly] at hm
      exact Scope.declaration_height_start hm
  | block body s =>
      simp only [Stmt.assembly, Assembly.marked_append, Stmt.declared, Scope.extend_nil, Assembly.size_append,
        ← Nat.add_assoc] at hm hend
      have hbody := Assembly.height_pops hm.2 hend
      rw [← Scope.height_extend_block] at hbody
      have hstart := Stmt.height_startAll body hm.1 hbody
      rwa [Scope.height_cons, List.length_nil, Nat.zero_add] at hstart
  | ifElse c t e s =>
      simp only [Stmt.assembly, Assembly.marked_append] at hm
      exact c.height_start hm.1.1.1.1
  | whileLoop c body s =>
      simp only [Stmt.assembly, Assembly.marked_append] at hm
      exact c.height_start hm.1.1.1
  | function name parameters body s =>
      rw [Stmt.assembly] at hm
      exact hm.1
  | returns value s =>
      rw [Stmt.assembly] at hm
      exact hm.1

theorem Stmt.height_startAll {H : Nat → Option Nat} (body : List Stmt) {σ : Scope} {o : Nat}
    (hm : Assembly.Marked H o (Stmt.assemblyAll σ body))
    (hend : H (o + (Stmt.assemblyAll σ body).size) = some (σ.extend (Stmt.declaredAll body)).height) :
    H o = some σ.height := by
  cases body with
  | nil => simpa [Stmt.assemblyAll, Stmt.declaredAll] using hend
  | cons s rest =>
      rw [Stmt.assemblyAll, Assembly.marked_append] at hm
      rw [Stmt.assemblyAll, Assembly.size_append, ← Nat.add_assoc, Stmt.declaredAll, Scope.extend_append] at hend
      exact Stmt.height_start s hm.1 (Stmt.height_startAll rest hm.2 hend)

end

mutual

/-- All lines of a statement are balanced. -/
theorem Stmt.balanced {H : Nat → Option Nat} (s : Stmt) (hs : s.wellFormed = true) {σ : Scope} {o : Nat}
    (hm : Assembly.Marked H o (s.assembly σ))
    (hend : H (o + (s.assembly σ).size) = some (σ.extend s.declared).height) :
    Assembly.Balanced H o (s.assembly σ) := by
  cases s with
  | expression e s =>
      simp only [Stmt.assembly, Stmt.declared, Scope.extend_nil, Assembly.size_append, Assembly.size_cons,
        Assembly.size_nil, Nat.add_zero, Assembly.marked_append, Assembly.marked_cons, Assembly.balanced_append,
        ← Nat.add_assoc] at hm hend ⊢
      refine ⟨e.balanced (Nat.le_refl _) hm.1 hm.2.1, ?_, trivial⟩
      exact .free (Nat.le_add_left 1 _) rfl rfl rfl hend
  | print e s =>
      simp only [Stmt.assembly, Stmt.declared, Scope.extend_nil, Assembly.size_append, Assembly.size_cons,
        Assembly.size_nil, Nat.add_zero, Assembly.marked_append, Assembly.marked_cons, Assembly.balanced_append,
        ← Nat.add_assoc] at hm hend ⊢
      refine ⟨e.balanced (Nat.le_refl _) hm.1 hm.2.1, ?_, trivial⟩
      exact .free (Nat.le_add_left 1 _) rfl rfl rfl hend
  | var name value s =>
      rw [Stmt.assembly] at hm hend ⊢
      rw [Stmt.declared] at hend
      exact Scope.balanced_declaration hm hend
  | block body s =>
      rw [Stmt.wellFormed] at hs
      simp only [Stmt.assembly, Assembly.marked_append, Stmt.declared, Scope.extend_nil, Assembly.size_append,
        Assembly.balanced_append, ← Nat.add_assoc] at hm hend ⊢
      have hbody := Assembly.height_pops hm.2 hend
      rw [← Scope.height_extend_block] at hbody
      exact ⟨Stmt.balancedAll body hs hm.1 hbody, Assembly.balanced_pops hm.2 hend⟩
  | ifElse c t e s =>
      rw [Stmt.wellFormed, Bool.and_eq_true, Bool.and_eq_true, Bool.not_eq_true'] at hs
      obtain ⟨⟨htv, htw⟩, hew⟩ := hs
      have htd := Stmt.declared_of_wellFormed t htw htv
      simp only [Stmt.assembly, Stmt.declared, htd, Stmt.declaredElse_of_wellFormed e hew, List.append_nil,
        Scope.extend_nil, Assembly.size_append, Assembly.size_cons, Assembly.size_nil, Nat.add_zero,
        Assembly.marked_append, Assembly.marked_cons, Assembly.balanced_append, Assembly.balanced_cons,
        Instr.size_pop, Instr.size_jump, Instr.size_jumpIfFalse, ← Nat.add_assoc] at hm hend ⊢
      obtain ⟨⟨⟨⟨hc, hjump, hpop, -⟩, ht⟩, hskip, hpop', -⟩, he⟩ := hm
      have htend : H (o + (c.assembly σ σ.height).size + 3 + 1 + (t.assembly σ).size) =
          some (σ.extend t.declared).height := by rwa [htd, Scope.extend_nil]
      obtain ⟨hestart, hebalanced⟩ := Stmt.balancedElse e hew he hend
      refine ⟨⟨⟨⟨c.balanced (Nat.le_refl _) hc hjump, ?_, ?_, trivial⟩, Stmt.balanced t htw ht htend⟩, ?_, ?_, trivial⟩,
        hebalanced⟩
      · exact .branch .and hpop (by rw [← hpop']; congr 1; omega)
      · exact .free (Nat.le_add_left 1 _) rfl rfl rfl (t.height_start ht htend)
      · exact .jump (by rw [← hend]; congr 1; omega)
      · exact .free (Nat.le_add_left 1 _) rfl rfl rfl hestart
  | whileLoop c body s =>
      rw [Stmt.wellFormed, Bool.and_eq_true, Bool.not_eq_true'] at hs
      have hd := Stmt.declared_of_wellFormed body hs.2 hs.1
      simp only [Stmt.assembly, Stmt.declared, hd, Scope.extend_nil, Assembly.size_append, Assembly.size_cons,
        Assembly.size_nil, Nat.add_zero, Assembly.marked_append, Assembly.marked_cons, Assembly.balanced_append,
        Assembly.balanced_cons, Instr.size_pop, Instr.size_jumpIfFalse, Instr.size_loop, ← Nat.add_assoc] at hm hend ⊢
      obtain ⟨⟨⟨hc, hjump, hpop, -⟩, hbody⟩, hloop, hpop', -⟩ := hm
      have hbend : H (o + (c.assembly σ σ.height).size + 3 + 1 + (body.assembly σ).size) =
          some (σ.extend body.declared).height := by rwa [hd, Scope.extend_nil]
      refine ⟨⟨⟨c.balanced (Nat.le_refl _) hc hjump, ?_, ?_, trivial⟩, Stmt.balanced body hs.2 hbody hbend⟩, ?_, ?_,
        trivial⟩
      · exact .branch .and hpop (by rw [← hpop']; congr 1; omega)
      · exact .free (Nat.le_add_left 1 _) rfl rfl rfl (body.height_start hbody hbend)
      · exact .loop (by omega) (by rw [← c.height_start hc]; congr 1; omega)
      · exact .free (Nat.le_add_left 1 _) rfl rfl rfl hend
  | function name parameters body s =>
      rw [Stmt.assembly]
      exact ⟨.trap, trivial⟩
  | returns value s =>
      rw [Stmt.assembly]
      exact ⟨.trap, trivial⟩

theorem Stmt.balancedElse {H : Nat → Option Nat} (e : Option Stmt) (he : Stmt.wellFormedElse e = true) {σ : Scope}
    {o : Nat} (hm : Assembly.Marked H o (Stmt.assemblyElse σ e))
    (hend : H (o + (Stmt.assemblyElse σ e).size) = some σ.height) :
    H o = some σ.height ∧ Assembly.Balanced H o (Stmt.assemblyElse σ e) := by
  cases e with
  | none => exact ⟨by simpa [Stmt.assemblyElse] using hend, by rw [Stmt.assemblyElse]; trivial⟩
  | some s =>
      rw [Stmt.wellFormedElse, Bool.and_eq_true, Bool.not_eq_true'] at he
      rw [Stmt.assemblyElse] at hm hend ⊢
      have hend' : H (o + (s.assembly σ).size) = some (σ.extend s.declared).height := by
        rwa [Stmt.declared_of_wellFormed s he.2 he.1, Scope.extend_nil]
      exact ⟨s.height_start hm hend', Stmt.balanced s he.2 hm hend'⟩

theorem Stmt.balancedAll {H : Nat → Option Nat} (body : List Stmt) (hs : Stmt.wellFormedAll body = true) {σ : Scope}
    {o : Nat} (hm : Assembly.Marked H o (Stmt.assemblyAll σ body))
    (hend : H (o + (Stmt.assemblyAll σ body).size) = some (σ.extend (Stmt.declaredAll body)).height) :
    Assembly.Balanced H o (Stmt.assemblyAll σ body) := by
  cases body with
  | nil => rw [Stmt.assemblyAll]; trivial
  | cons s rest =>
      rw [Stmt.wellFormedAll, Bool.and_eq_true] at hs
      rw [Stmt.assemblyAll, Assembly.marked_append] at hm
      rw [Stmt.assemblyAll, Assembly.size_append, ← Nat.add_assoc, Stmt.declaredAll, Scope.extend_append] at hend
      rw [Stmt.assemblyAll, Assembly.balanced_append]
      exact ⟨Stmt.balanced s hs.1 hm.1 (Stmt.height_startAll rest hm.2 hend),
        Stmt.balancedAll rest hs.2 hm.2 hend⟩

end

/-! ## Programs -/

def Program.heightAt? (p : Program) (out : Compiled) (o : Nat) : Option Nat :=
  p.assembly.heightAt? out.start o

/-- All lines of a program are balanced. -/
theorem Program.balanced {p : Program} (hp : p.WellFormed) (out : Compiled) :
    Assembly.Balanced (p.heightAt? out) out.start p.assembly :=
  Stmt.balancedAll p hp (Assembly.marked_heightAt? [] p.assembly) (Assembly.heightAt?_end p.assembly)

end Lox
