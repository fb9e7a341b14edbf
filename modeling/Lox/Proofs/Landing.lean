import Lox.Proofs.Heights

/-!
# Where jumps land

The code of a program never leaves itself: from every instruction the machine goes on at the start of an
instruction of the same code or at its end.

* `Assembly.IsBoundary start a o` : at offset `o` a line of `a` starts, or `a` ends;
* `Assembly.Covers S o a` : the set `S` has all boundaries of `a`;
* `Line.Lands S o l` : a line leads into `S` only, and if it is a loop it leads back;
* `Expr.lands`, `Stmt.lands`, `Program.lands` : all lines of a program land on its boundaries.

Nothing is asked of the program here: branches and loop bodies may be declarations.
-/

namespace Lox

/-! ## Boundaries -/

namespace Assembly

/-- At offset `o` a line starts or the assembly ends, if the assembly starts at offset `start`. -/
def IsBoundary (start : Nat) (a : Assembly) (o : Nat) : Prop :=
  ∃ pre post : Assembly, a = pre ++ post ∧ o = start + pre.size

def Covers (S : Nat → Prop) : Nat → Assembly → Prop
  | o, [] => S o
  | o, l :: a => S o ∧ Covers S (o + l.instr.size) a

variable {S : Nat → Prop} {P : Nat → Line → Prop} {o beginning : Nat} {a b : Assembly} {l : Line}

theorem covers_nil : Covers S o [] ↔ S o :=
  Iff.rfl

theorem covers_cons : Covers S o (l :: a) ↔ S o ∧ Covers S (o + l.instr.size) a :=
  Iff.rfl

theorem Covers.start (h : Covers S o a) : S o := by
  cases a with
  | nil => exact h
  | cons l a => exact h.1

theorem covers_append : Covers S o (a ++ b) ↔ Covers S o a ∧ Covers S (o + a.size) b := by
  induction a generalizing o with
  | nil =>
      rw [List.nil_append, size_nil, Nat.add_zero]
      exact ⟨fun h => ⟨h.start, h⟩, And.right⟩
  | cons l a ih => simp only [List.cons_append, covers_cons, ih, size_cons, Nat.add_assoc, and_assoc]

theorem Covers.stop (h : Covers S o a) : S (o + a.size) := by
  rw [← List.append_nil a, covers_append] at h
  exact h.2

/-- A set that has every boundary covers the assembly. -/
theorem covers_of_isBoundary (h : ∀ o', IsBoundary o a o' → S o') : Covers S o a := by
  induction a generalizing o with
  | nil => exact h o ⟨[], [], rfl, rfl⟩
  | cons l a ih =>
      refine ⟨h o ⟨[], l :: a, rfl, rfl⟩, ih ?_⟩
      rintro o' ⟨pre, post, rfl, rfl⟩
      exact h _ ⟨l :: pre, post, rfl, by rw [size_cons, Nat.add_assoc]⟩

theorem covers_isBoundary (o : Nat) (a : Assembly) : Covers (IsBoundary o a) o a :=
  covers_of_isBoundary fun _ h => h

/-- What holds of all lines holds of each in its place. -/
theorem All.line {pre post : Assembly} (h : All P o a) (ha : a = pre ++ l :: post) : P (o + pre.size) l := by
  rw [ha, all_append] at h
  exact h.2.1

/-- A boundary is the offset of a line, or the end. -/
theorem IsBoundary.line_or_end (h : IsBoundary beginning a o) :
    (∃ (pre : Assembly) (l : Line) (post : Assembly), a = pre ++ l :: post ∧ o = beginning + pre.size) ∨
      o = beginning + a.size := by
  obtain ⟨pre, post, rfl, rfl⟩ := h
  cases post with
  | nil => exact .inr (by rw [List.append_nil])
  | cons l post => exact .inl ⟨pre, l, post, rfl, rfl⟩

theorem IsBoundary.le (h : IsBoundary beginning a o) : beginning ≤ o ∧ o ≤ beginning + a.size := by
  obtain ⟨pre, post, rfl, rfl⟩ := h
  rw [size_append]
  omega

end Assembly

/-! ## Lines -/

/-- A line at offset `o` leads to places of the set only. A loop leads back, and not behind the beginning of the
code. -/
structure Line.Lands (S : Nat → Prop) (o : Nat) (l : Line) : Prop where
  next : ∀ o' ∈ l.instr.next o, S o'
  back : ∀ d, l.instr = .loop d → 3 < d ∧ d ≤ o + 3

namespace Line.Lands

variable {S : Nat → Prop} {o h d : Nat} {s : Span} {i : Instr}

/-- An instruction that goes on behind itself. -/
theorem single (hnext : i.next o = [o + i.size]) (hop : (i.opcode == .jumpSigned) = false) (hS : S (o + i.size)) :
    Lands S o ⟨i, s, h⟩ where
  next := by
    intro o' ho'
    rw [hnext, List.mem_singleton] at ho'
    rwa [ho']
  back := by
    intro d hd
    cases hd
    cases hop

theorem trap : Lands S o ⟨.trap, s, h⟩ where
  next := fun _ ho' => absurd ho' List.not_mem_nil
  back := by
    intro d hd
    cases hd

theorem jump (hS : S (o + 3 + d)) : Lands S o ⟨.jump d, s, h⟩ where
  next := by
    intro o' ho'
    rwa [List.mem_singleton.mp ho']
  back := by
    intro d hd
    cases hd

theorem loop (hd : 3 < d) (hle : d ≤ o + 3) (hS : S (o + 3 - d)) : Lands S o ⟨.loop d, s, h⟩ where
  next := by
    intro o' ho'
    rwa [List.mem_singleton.mp ho']
  back := by
    intro d' hd'
    cases hd'
    exact ⟨hd, hle⟩

/-- A jump that depends on the topmost value. -/
theorem branch (op : LogicalOp) (hpass : S (o + 3)) (htake : S (o + 3 + d)) : Lands S o ⟨op.instr d, s, h⟩ where
  next := by
    have hnext : (op.instr d).next o = [o + 3, o + 3 + d] := by cases op <;> rfl
    intro o' ho'
    rw [hnext, List.mem_cons, List.mem_singleton] at ho'
    rcases ho' with rfl | rfl
    · exact hpass
    · exact htake
  back := by
    intro d' hd'
    cases op <;> cases hd'

/-- An access to a variable. -/
theorem access {σ : Scope} {name : String} {toLocal : Nat → Instr} {toGlobal : String → Instr}
    (hlocal : ∀ slot, Lands S o ⟨toLocal slot, s, h⟩) (hglobal : Lands S o ⟨toGlobal name, s, h⟩) :
    Lands S o ⟨σ.access toLocal toGlobal name, s, h⟩ := by
  unfold Scope.access
  split
  · exact hlocal _
  · exact hglobal

end Line.Lands

/-! ## Programs -/

section Pieces

variable {S : Nat → Prop} {σ : Scope} {o h n : Nat} {s : Span}

/-- All lines of an expression land on its boundaries. -/
theorem Expr.lands (e : Expr) (hS : Assembly.Covers S o (e.assembly σ h)) :
    Assembly.All (Line.Lands S) o (e.assembly σ h) := by
  induction e generalizing o h with
  | literal v s =>
      refine ⟨?_, trivial⟩
      rcases v with _ | (_ | _) | _ | _ <;> exact .single rfl rfl hS.2
  | var name s =>
      simp only [assembly, Assembly.covers_cons, Assembly.covers_nil, Scope.size_access_get] at hS
      exact ⟨.access (fun _ => .single rfl rfl hS.2) (.single rfl rfl hS.2),
        trivial⟩
  | assign name value s ih =>
      simp only [assembly, Assembly.covers_append, Assembly.covers_cons, Assembly.covers_nil,
        Scope.size_access_set, Assembly.all_append] at hS ⊢
      exact ⟨ih hS.1, .access (fun _ => .single rfl rfl hS.2.2)
        (.single rfl rfl hS.2.2), trivial⟩
  | unary op operand s ih =>
      simp only [assembly, Assembly.covers_append, Assembly.covers_cons, Assembly.covers_nil,
        Assembly.all_append] at hS ⊢
      exact ⟨ih hS.1, .single rfl rfl hS.2.2, trivial⟩
  | binary op left right s ihl ihr =>
      simp only [assembly, Assembly.covers_append, Assembly.covers_cons, Assembly.covers_nil,
        Assembly.all_append] at hS ⊢
      exact ⟨⟨ihl hS.1.1, ihr hS.1.2⟩, .single rfl rfl hS.2.2, trivial⟩
  | logical op left right s ihl ihr =>
      simp only [assembly, Assembly.covers_append, Assembly.covers_cons, Assembly.covers_nil, Assembly.all_append,
        Assembly.all_cons, Assembly.size_append, Assembly.size_cons, Assembly.size_nil, Nat.add_zero,
        LogicalOp.size_instr, Instr.size_pop, ← Nat.add_assoc] at hS ⊢
      obtain ⟨⟨hleft, hjump, hpop, hrest⟩, hright⟩ := hS
      have hend := hright.stop
      refine ⟨⟨ihl hleft, .branch op hpop ?_, .single rfl rfl hrest, trivial⟩, ihr hright⟩
      convert hend using 1
      omega
  | grouping inner s ih => exact ih hS
  | call callee arguments s => exact ⟨.trap, trivial⟩

theorem Expr.lands_initial {value : Option Expr} (hS : Assembly.Covers S o (Expr.initial σ h s value)) :
    Assembly.All (Line.Lands S) o (Expr.initial σ h s value) := by
  cases value with
  | none => exact ⟨.single rfl rfl hS.2, trivial⟩
  | some e => exact e.lands hS

theorem Scope.lands_declaration {name : String} {value : Option Expr}
    (hS : Assembly.Covers S o (σ.declaration name value s)) :
    Assembly.All (Line.Lands S) o (σ.declaration name value s) := by
  cases σ with
  | nil =>
      simp only [declaration, Assembly.covers_append, Assembly.covers_cons, Assembly.covers_nil,
        Assembly.all_append] at hS ⊢
      exact ⟨Expr.lands_initial hS.1, .single rfl rfl hS.2.2, trivial⟩
  | cons names outer => exact Expr.lands_initial hS

theorem Assembly.lands_pops (hS : Covers S o (pops s h n)) : All (Line.Lands S) o (pops s h n) := by
  induction n generalizing o with
  | zero => trivial
  | succ n ih => exact ⟨.single rfl rfl hS.2.start, ih hS.2⟩

end Pieces

mutual

/-- All lines of a statement land on its boundaries. -/
theorem Stmt.lands {S : Nat → Prop} (s : Stmt) {σ : Scope} {o : Nat} (hS : Assembly.Covers S o (s.assembly σ)) :
    Assembly.All (Line.Lands S) o (s.assembly σ) := by
  cases s with
  | expression e s =>
      simp only [Stmt.assembly, Assembly.covers_append, Assembly.covers_cons, Assembly.covers_nil,
        Assembly.all_append] at hS ⊢
      exact ⟨e.lands hS.1, .single rfl rfl hS.2.2, trivial⟩
  | print e s =>
      simp only [Stmt.assembly, Assembly.covers_append, Assembly.covers_cons, Assembly.covers_nil,
        Assembly.all_append] at hS ⊢
      exact ⟨e.lands hS.1, .single rfl rfl hS.2.2, trivial⟩
  | var name value s =>
      rw [Stmt.assembly] at hS ⊢
      exact Scope.lands_declaration hS
  | block body s =>
      rw [Stmt.assembly, Assembly.covers_append] at hS
      rw [Stmt.assembly, Assembly.all_append]
      exact ⟨Stmt.landsAll body hS.1, Assembly.lands_pops hS.2⟩
  | ifElse c t e s =>
      simp only [Stmt.assembly, Assembly.covers_append, Assembly.covers_cons, Assembly.covers_nil,
        Assembly.all_append, Assembly.all_cons, Assembly.size_append, Assembly.size_cons, Assembly.size_nil,
        Nat.add_zero, Instr.size_pop, Instr.size_jump, Instr.size_jumpIfFalse, ← Nat.add_assoc] at hS ⊢
      obtain ⟨⟨⟨⟨hc, -, hpop, hthen⟩, ht⟩, -, hpop', helse⟩, he⟩ := hS
      have hend := he.stop
      refine ⟨⟨⟨⟨c.lands hc, .branch .and hpop ?_, .single rfl rfl hthen, trivial⟩,
        Stmt.lands t ht⟩, .jump ?_, .single rfl rfl helse, trivial⟩, Stmt.landsElse e he⟩
      · convert hpop' using 1
        omega
      · convert hend using 1
        omega
  | whileLoop c body s =>
      simp only [Stmt.assembly, Assembly.covers_append, Assembly.covers_cons, Assembly.covers_nil,
        Assembly.all_append, Assembly.all_cons, Assembly.size_append, Assembly.size_cons, Assembly.size_nil,
        Nat.add_zero, Instr.size_pop, Instr.size_loop, Instr.size_jumpIfFalse, ← Nat.add_assoc] at hS ⊢
      obtain ⟨⟨⟨hc, -, hpop, hround⟩, hbody⟩, -, hpop', hend⟩ := hS
      refine ⟨⟨⟨c.lands hc, .branch .and hpop ?_, .single rfl rfl hround, trivial⟩,
        Stmt.lands body hbody⟩, .loop (by omega) (by omega) ?_, .single rfl rfl hend, trivial⟩
      · convert hpop' using 1
        omega
      · convert hc.start using 1
        omega
  | function name parameters body s =>
      rw [Stmt.assembly]
      exact ⟨.trap, trivial⟩
  | returns value s =>
      rw [Stmt.assembly]
      exact ⟨.trap, trivial⟩

theorem Stmt.landsElse {S : Nat → Prop} (e : Option Stmt) {σ : Scope} {o : Nat}
    (hS : Assembly.Covers S o (Stmt.assemblyElse σ e)) :
    Assembly.All (Line.Lands S) o (Stmt.assemblyElse σ e) := by
  cases e with
  | none => rw [Stmt.assemblyElse]; trivial
  | some s =>
      rw [Stmt.assemblyElse] at hS ⊢
      exact Stmt.lands s hS

theorem Stmt.landsAll {S : Nat → Prop} (body : List Stmt) {σ : Scope} {o : Nat}
    (hS : Assembly.Covers S o (Stmt.assemblyAll σ body)) :
    Assembly.All (Line.Lands S) o (Stmt.assemblyAll σ body) := by
  cases body with
  | nil => rw [Stmt.assemblyAll]; trivial
  | cons s rest =>
      rw [Stmt.assemblyAll, Assembly.covers_append] at hS
      rw [Stmt.assemblyAll, Assembly.all_append]
      exact ⟨Stmt.lands s hS.1, Stmt.landsAll rest hS.2⟩

end

/-- **All lines of a program land on its boundaries.** -/
theorem Program.lands (p : Program) (start : Nat) :
    Assembly.All (Line.Lands (p.assembly.IsBoundary start)) start p.assembly :=
  Stmt.landsAll p (Assembly.covers_isBoundary start p.assembly)

end Lox
