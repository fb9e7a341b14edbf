import Lox.Proofs.Heights
import Lox.Proofs.Interning

/-!
# Limits

What keeps a program from being compiled, said of the program alone.

* `Expr.parts`, `Program.statements`, `Program.expressions` : what is compiled of a program, each part with the
  variables in scope before it;
* `Expr.codeSize`, `Stmt.codeSize` : how many bytes the code of a part takes;
* `Program.constants` : the constants that a program asks for;
* `Program.WithinLimits` : no name is declared twice or used too early, and there is room for all variables,
  constants and jumps;
* `Stmt.fits_iff` : when the instructions of a statement can be written.

Nothing is asked of what stands in a function, behind `return` or in a call, since a trap takes its place.
-/

namespace Lox

/-! ## What is compiled -/

/-- The parts of an expression that are compiled, the expression itself first. -/
def Expr.parts : Expr → List Expr
  | .literal v s => [.literal v s]
  | .var name s => [.var name s]
  | .assign name value s => .assign name value s :: value.parts
  | .unary op operand s => .unary op operand s :: operand.parts
  | .binary op left right s => .binary op left right s :: (left.parts ++ right.parts)
  | .logical op left right s => .logical op left right s :: (left.parts ++ right.parts)
  | .grouping inner s => .grouping inner s :: inner.parts
  | .call callee arguments s => [.call callee arguments s]

def Expr.named? : Expr → Option String
  | .var name _ => some name
  | .assign name _ _ => some name
  | _ => none

/-- Something that is compiled, and the variables in scope before it. -/
structure Site (α : Type) where
  scope : Scope
  node : α

mutual

/-- The statements that are compiled in a statement, the statement itself first. -/
def Stmt.sites (σ : Scope) : Stmt → List (Site Stmt)
  | .block body s => ⟨σ, .block body s⟩ :: Stmt.sitesAll ([] :: σ) body
  | .ifElse condition thenBranch elseBranch s =>
    ⟨σ, .ifElse condition thenBranch elseBranch s⟩ ::
      (thenBranch.sites σ ++ Stmt.sitesElse (σ.extend thenBranch.declared) elseBranch)
  | .whileLoop condition body s => ⟨σ, .whileLoop condition body s⟩ :: body.sites σ
  | s => [⟨σ, s⟩]

def Stmt.sitesElse (σ : Scope) : Option Stmt → List (Site Stmt)
  | none => []
  | some s => s.sites σ

def Stmt.sitesAll (σ : Scope) : List Stmt → List (Site Stmt)
  | [] => []
  | s :: rest => s.sites σ ++ Stmt.sitesAll (σ.extend s.declared) rest

end

/-- The expressions that stand in a statement, but not in a statement inside it, and are compiled. -/
def Stmt.expressions : Stmt → List Expr
  | .expression e _ => [e]
  | .print e _ => [e]
  | .var _ value _ => value.toList
  | .ifElse condition _ _ _ => [condition]
  | .whileLoop condition _ _ => [condition]
  | _ => []

def Program.statements (p : Program) : List (Site Stmt) :=
  Stmt.sitesAll [] p

/-- The expressions of a program that are compiled, the parts of larger ones included. -/
def Program.expressions (p : Program) : List (Site Expr) :=
  p.statements.flatMap fun x => (x.node.expressions.flatMap Expr.parts).map (Site.mk x.scope)

theorem Program.forall_mem_expressions {p : Program} {P : Site Expr → Prop} :
    (∀ y ∈ p.expressions, P y) ↔
      ∀ x ∈ p.statements, ∀ e ∈ x.node.expressions, ∀ e' ∈ e.parts, P ⟨x.scope, e'⟩ := by
  simp only [expressions, List.forall_mem_flatMap, List.forall_mem_map]

/-! ## Sizes -/

def Expr.codeSize : Expr → Nat
  | .literal (.number _) _ => 2
  | .literal (.string _) _ => 2
  | .literal _ _ => 1
  | .var _ _ => 2
  | .assign _ value _ => value.codeSize + 2
  | .unary _ operand _ => operand.codeSize + 1
  | .binary _ left right _ => left.codeSize + right.codeSize + 1
  | .logical _ left right _ => left.codeSize + right.codeSize + 4
  | .grouping inner _ => inner.codeSize
  | .call _ _ _ => 1

def Expr.initialSize : Option Expr → Nat
  | none => 1
  | some e => e.codeSize

mutual

/-- How many bytes the code of a statement takes. A variable that is not declared in a block takes two more, since it
is stored as a global. -/
def Stmt.codeSize (inBlock : Bool) : Stmt → Nat
  | .expression e _ => e.codeSize + 1
  | .print e _ => e.codeSize + 1
  | .var _ value _ => Expr.initialSize value + if inBlock then 0 else 2
  | .block body _ => Stmt.codeSizeAll true body + (Stmt.declaredAll body).length
  | .ifElse condition thenBranch elseBranch _ =>
    condition.codeSize + thenBranch.codeSize inBlock + Stmt.codeSizeElse inBlock elseBranch + 8
  | .whileLoop condition body _ => condition.codeSize + body.codeSize inBlock + 8
  | .function _ _ _ _ => 1
  | .returns _ _ => 1

def Stmt.codeSizeElse (inBlock : Bool) : Option Stmt → Nat
  | none => 0
  | some s => s.codeSize inBlock

def Stmt.codeSizeAll (inBlock : Bool) : List Stmt → Nat
  | [] => 0
  | s :: rest => s.codeSize inBlock + Stmt.codeSizeAll inBlock rest

end

def Scope.isBlock (σ : Scope) : Bool :=
  !σ.isEmpty

@[simp] theorem Scope.isBlock_nil : isBlock [] = false := rfl

@[simp] theorem Scope.isBlock_cons (names : List String) (σ : Scope) : isBlock (names :: σ) = true := rfl

@[simp] theorem Scope.isBlock_extend (σ : Scope) (names : List String) : (σ.extend names).isBlock = σ.isBlock := by
  cases σ <;> rfl

theorem Expr.size_assembly (e : Expr) (σ : Scope) (h : Nat) : (e.assembly σ h).size = e.codeSize := by
  induction e generalizing h with
  | literal v s => rcases v with _ | (_ | _) | _ | _ <;> rfl
  | var name s => simp [assembly, codeSize]
  | assign name value s ih => simp [assembly, codeSize, ih]
  | unary op operand s ih => simp [assembly, codeSize, ih]
  | binary op left right s ihl ihr => simp [assembly, codeSize, ihl, ihr, Nat.add_assoc]
  | logical op left right s ihl ihr =>
      simp only [assembly, codeSize, Assembly.size_append, Assembly.size_cons, Assembly.size_nil, ihl, ihr,
        LogicalOp.size_instr, Instr.size_pop]
      omega
  | grouping inner s ih => exact ih h
  | call callee arguments s => rfl

theorem Expr.size_initial (σ : Scope) (h : Nat) (s : Span) (value : Option Expr) :
    (Expr.initial σ h s value).size = Expr.initialSize value := by
  cases value with
  | none => rfl
  | some e => exact e.size_assembly σ h

mutual

theorem Stmt.size_assembly (s : Stmt) (σ : Scope) : (s.assembly σ).size = s.codeSize σ.isBlock := by
  cases s with
  | expression e s => simp [assembly, codeSize, e.size_assembly]
  | print e s => simp [assembly, codeSize, e.size_assembly]
  | var name value s =>
      cases σ with
      | nil => simp [assembly, codeSize, Scope.declaration, Expr.size_initial]
      | cons names outer => simp [assembly, codeSize, Scope.declaration, Expr.size_initial]
  | block body s => simp [assembly, codeSize, Stmt.size_assemblyAll body]
  | ifElse condition thenBranch elseBranch s =>
      simp only [assembly, codeSize, Assembly.size_append, Assembly.size_cons, Assembly.size_nil,
        condition.size_assembly, thenBranch.size_assembly, Stmt.size_assemblyElse elseBranch, Scope.isBlock_extend,
        Instr.size_jumpIfFalse, Instr.size_jump, Instr.size_pop]
      omega
  | whileLoop condition body s =>
      simp only [assembly, codeSize, Assembly.size_append, Assembly.size_cons, Assembly.size_nil,
        condition.size_assembly, body.size_assembly, Instr.size_jumpIfFalse, Instr.size_loop, Instr.size_pop]
      omega
  | function name parameters body s => rfl
  | returns value s => rfl

theorem Stmt.size_assemblyElse (e : Option Stmt) (σ : Scope) :
    (Stmt.assemblyElse σ e).size = Stmt.codeSizeElse σ.isBlock e := by
  cases e with
  | none => rfl
  | some s => exact s.size_assembly σ

theorem Stmt.size_assemblyAll (body : List Stmt) (σ : Scope) :
    (Stmt.assemblyAll σ body).size = Stmt.codeSizeAll σ.isBlock body := by
  cases body with
  | nil => rfl
  | cons s rest =>
      rw [assemblyAll, codeSizeAll, Assembly.size_append, s.size_assembly, Stmt.size_assemblyAll rest,
        Scope.isBlock_extend]

end

/-! ## Constants -/

/-- The constants that an expression itself asks for: its value, or its name if that is the name of a global. -/
def Expr.constants (σ : Scope) : Expr → List Constant
  | .literal (.number x) _ => [.number x]
  | .literal (.string t) _ => [.string t]
  | .var name _ => if σ.slot? name = none then [.string name] else []
  | .assign name _ _ => if σ.slot? name = none then [.string name] else []
  | _ => []

/-- The constant that a statement itself asks for: the name of the global that it declares. -/
def Stmt.constants (σ : Scope) : Stmt → List Constant
  | .var name _ _ => if σ = [] then [.string name] else []
  | _ => []

def Program.constants (p : Program) : List Constant :=
  p.statements.flatMap (fun x => x.node.constants x.scope) ++
    p.expressions.flatMap (fun y => y.node.constants y.scope)

/-! ## Instructions that can be written -/

namespace Assembly

/-- All instructions can be written, if the constants are those of the pool. -/
def Fits (pool : List Constant) (a : Assembly) : Prop :=
  ∀ l ∈ a, l.instr.Fits pool

variable {pool : List Constant} {a b : Assembly}

@[simp] theorem fits_nil : Fits pool [] := by
  simp [Fits]

@[simp] theorem fits_cons {l : Line} : Fits pool (l :: a) ↔ l.instr.Fits pool ∧ Fits pool a := by
  simp [Fits]

@[simp] theorem fits_append : Fits pool (a ++ b) ↔ Fits pool a ∧ Fits pool b := by
  simp [Fits, or_imp, forall_and]

theorem fits_pops (s : Span) (h n : Nat) : Fits pool (pops s h n) := by
  induction n with
  | zero => exact fits_nil
  | succ n ih => exact fits_cons.mpr ⟨trivial, ih⟩

end Assembly

def Expr.JumpsFit : Expr → Prop
  | .logical _ _ right _ => 1 + right.codeSize ≤ 65535
  | _ => True

/-- The jumps of a statement over its parts, and back to them, are not too far. -/
def Stmt.JumpsFit (σ : Scope) : Stmt → Prop
  | .ifElse _ thenBranch elseBranch _ =>
    thenBranch.codeSize σ.isBlock + 4 ≤ 65535 ∧ Stmt.codeSizeElse σ.isBlock elseBranch + 1 ≤ 65535
  | .whileLoop condition body _ => condition.codeSize + body.codeSize σ.isBlock + 7 ≤ 32768
  | _ => True

def Expr.Writable (pool : List Constant) (σ : Scope) (e : Expr) : Prop :=
  e.JumpsFit ∧ ∀ k ∈ e.constants σ, k ∈ pool

def Stmt.Writable (pool : List Constant) (σ : Scope) (s : Stmt) : Prop :=
  s.JumpsFit σ ∧ (∀ k ∈ s.constants σ, k ∈ pool) ∧ ∀ e ∈ s.expressions, ∀ e' ∈ e.parts, e'.Writable pool σ

section Writable

variable {pool : List Constant} {σ : Scope}

theorem Scope.fits_access (pool : List Constant) (hσ : σ.height ≤ 256) (toLocal : Nat → Instr)
    (toGlobal : String → Instr) (name : String)
    (hlocal : ∀ slot, (toLocal slot).Fits pool ↔ slot < 256)
    (hglobal : (toGlobal name).Fits pool ↔ .string name ∈ pool) :
    (σ.access toLocal toGlobal name).Fits pool ↔
      ∀ k ∈ if σ.slot? name = none then [Constant.string name] else [], k ∈ pool := by
  unfold access
  cases hslot : σ.slot? name with
  | none => simp [hglobal]
  | some slot =>
      have hlt : slot < 256 := Nat.lt_of_lt_of_le (slotIn_lt hslot) hσ
      simp [hlocal, hlt]

/-- An expression that names no constant and has no jump of its own. -/
theorem Expr.writable_of_plain {e : Expr} (hjumps : e.JumpsFit) (hconstants : e.constants σ = []) :
    e.Writable pool σ :=
  ⟨hjumps, by simp [hconstants]⟩

/-- The instructions of an expression can be written just if those of all its parts can. -/
theorem Expr.fits_iff (e : Expr) (h : Nat) (hσ : σ.height ≤ 256) :
    (e.assembly σ h).Fits pool ↔ ∀ e' ∈ e.parts, e'.Writable pool σ := by
  induction e generalizing h with
  | literal v s =>
      rcases v with _ | (_ | _) | _ | _ <;>
        simp [assembly, parts, Writable, JumpsFit, constants, Value.instr, Instr.Fits]
  | var name s =>
      have hfits := σ.fits_access pool hσ .getLocal .getGlobal name (fun _ => Iff.rfl) Iff.rfl
      simp [assembly, parts, hfits, Writable, JumpsFit, constants]
  | assign name value s ih =>
      have hfits := σ.fits_access pool hσ .setLocal .setGlobal name (fun _ => Iff.rfl) Iff.rfl
      have hself : (assign name value s).Writable pool σ ↔ (σ.access .setLocal .setGlobal name).Fits pool := by
        simp [hfits, Writable, JumpsFit, constants]
      simp only [assembly, parts, Assembly.fits_append, Assembly.fits_cons, Assembly.fits_nil, List.forall_mem_cons, ih,
        hself, and_true]
      exact and_comm
  | unary op operand s ih =>
      have hself : (unary op operand s).Writable pool σ := writable_of_plain trivial rfl
      have hline : (Instr.unary op).Fits pool := trivial
      simp [assembly, parts, ih, hself, hline]
  | binary op left right s ihl ihr =>
      have hself : (binary op left right s).Writable pool σ := writable_of_plain trivial rfl
      have hline : (Instr.binary op).Fits pool := trivial
      simp [assembly, parts, ihl, ihr, hself, hline, or_imp, forall_and]
  | logical op left right s ihl ihr =>
      have hself : (logical op left right s).Writable pool σ ↔
          (op.instr ((right.assembly σ h).size + 1)).Fits pool := by
        rw [(isForwardJump_shortCircuit op).fits, right.size_assembly, Nat.add_comm]
        exact ⟨And.left, fun hle => writable_of_plain hle rfl⟩
      have hpop : Instr.pop.Fits pool := trivial
      simp only [assembly, parts, Assembly.fits_append, Assembly.fits_cons, Assembly.fits_nil, List.forall_mem_cons,
        List.forall_mem_append, ihl, ihr, hself, hpop, and_true]
      tauto
  | grouping inner s ih =>
      have hself : (grouping inner s).Writable pool σ := writable_of_plain trivial rfl
      simp [assembly, parts, ih, hself]
  | call callee arguments s =>
      have hself : (call callee arguments s).Writable pool σ := writable_of_plain trivial rfl
      have hline : Instr.trap.Fits pool := trivial
      simp [assembly, parts, hself, hline]

theorem Expr.initial_fits_iff (pool : List Constant) (s : Span) (value : Option Expr) (h : Nat) (hσ : σ.height ≤ 256) :
    (Expr.initial σ h s value).Fits pool ↔ ∀ e ∈ value.toList, ∀ e' ∈ e.parts, e'.Writable pool σ := by
  cases value with
  | none => simp [initial, Instr.Fits]
  | some e => simpa [initial] using e.fits_iff h hσ

/-- A statement whose instructions are those of its expressions and some that can always be written. -/
theorem Stmt.writable_of_plain (pool : List Constant) (s : Stmt) (hjumps : s.JumpsFit σ)
    (hconstants : s.constants σ = []) :
    s.Writable pool σ ↔ ∀ e ∈ s.expressions, ∀ e' ∈ e.parts, e'.Writable pool σ := by
  simp [Stmt.Writable, hjumps, hconstants]

end Writable

mutual

/-- The instructions of a statement can be written just if those of all statements in it can. -/
theorem Stmt.fits_iff (pool : List Constant) (s : Stmt) {σ : Scope} (hσ : ∀ x ∈ s.sites σ, x.scope.height ≤ 256) :
    (s.assembly σ).Fits pool ↔ ∀ x ∈ s.sites σ, x.node.Writable pool x.scope := by
  cases s with
  | expression e s =>
      have hheight : σ.height ≤ 256 := hσ _ List.mem_cons_self
      have hself := Stmt.writable_of_plain (σ := σ) pool (.expression e s) trivial rfl
      simp [assembly, sites, hself, expressions, e.fits_iff _ hheight, Instr.Fits]
  | print e s =>
      have hheight : σ.height ≤ 256 := hσ _ List.mem_cons_self
      have hself := Stmt.writable_of_plain (σ := σ) pool (.print e s) trivial rfl
      simp [assembly, sites, hself, expressions, e.fits_iff _ hheight, Instr.Fits]
  | var name value s =>
      have hheight : σ.height ≤ 256 := hσ _ List.mem_cons_self
      have hvalue := Expr.initial_fits_iff pool s value σ.height hheight
      cases σ with
      | nil =>
          have hself : (Stmt.var name value s).Writable pool [] ↔ (Instr.defineGlobal name).Fits pool ∧
              (Expr.initial [] (Scope.height []) s value).Fits pool := by
            simp [Stmt.Writable, JumpsFit, constants, expressions, hvalue, Instr.Fits]
          simp only [assembly, sites, Scope.declaration, List.forall_mem_singleton, hself, Assembly.fits_append,
            Assembly.fits_cons, Assembly.fits_nil, and_true]
          exact and_comm
      | cons names outer =>
          simp [assembly, sites, Scope.declaration, hvalue, Stmt.Writable, JumpsFit, constants, expressions]
  | block body s =>
      have hbody := Stmt.fits_iffAll pool body (σ := [] :: σ) fun x hx => hσ x (List.mem_cons_of_mem _ hx)
      have hself := Stmt.writable_of_plain (σ := σ) pool (.block body s) trivial rfl
      simp [assembly, sites, hbody, hself, expressions, Assembly.fits_pops]
  | ifElse condition thenBranch elseBranch s =>
      have hheight : σ.height ≤ 256 := hσ _ List.mem_cons_self
      have hthen := Stmt.fits_iff pool thenBranch (σ := σ) fun x hx => hσ x (by simp [sites, hx])
      have helse := Stmt.fits_iffElse pool elseBranch (σ := σ.extend thenBranch.declared)
        fun x hx => hσ x (by simp [sites, hx])
      have hself : (Stmt.ifElse condition thenBranch elseBranch s).Writable pool σ ↔
          (Instr.jumpIfFalse ((thenBranch.assembly σ).size + 4)).Fits pool ∧
          (Instr.jump ((Stmt.assemblyElse (σ.extend thenBranch.declared) elseBranch).size + 1)).Fits pool ∧
          (condition.assembly σ σ.height).Fits pool := by
        simp [Stmt.Writable, JumpsFit, constants, expressions, Instr.Fits, thenBranch.size_assembly,
          Stmt.size_assemblyElse, condition.fits_iff _ hheight, and_assoc]
      have hpop : Instr.pop.Fits pool := trivial
      simp only [assembly, sites, Assembly.fits_append, Assembly.fits_cons, Assembly.fits_nil, List.forall_mem_cons,
        List.forall_mem_append, hthen, helse, hself, hpop, and_true]
      tauto
  | whileLoop condition body s =>
      have hheight : σ.height ≤ 256 := hσ _ List.mem_cons_self
      have hbody := Stmt.fits_iff pool body (σ := σ) fun x hx => hσ x (by simp [sites, hx])
      have hself : (Stmt.whileLoop condition body s).Writable pool σ ↔
          (Instr.loop ((condition.assembly σ σ.height).size + (body.assembly σ).size + 7)).Fits pool ∧
          (condition.assembly σ σ.height).Fits pool := by
        simp [Stmt.Writable, JumpsFit, constants, expressions, Instr.Fits, body.size_assembly, condition.size_assembly,
          condition.fits_iff _ hheight]
      -- where the jump back is not too far, the jump out of the loop is not either
      have hjump : (Instr.loop ((condition.assembly σ σ.height).size + (body.assembly σ).size + 7)).Fits pool →
          (Instr.jumpIfFalse ((body.assembly σ).size + 4)).Fits pool := by
        intro hloop
        have : (condition.assembly σ σ.height).size + (body.assembly σ).size + 7 ≤ 0x8000 := hloop
        show (body.assembly σ).size + 4 ≤ 0xffff
        omega
      have hpop : Instr.pop.Fits pool := trivial
      simp only [assembly, sites, Assembly.fits_append, Assembly.fits_cons, Assembly.fits_nil, List.forall_mem_cons,
        hbody, hself, hpop, and_true]
      tauto
  | function name parameters body s =>
      have hself := Stmt.writable_of_plain (σ := σ) pool (.function name parameters body s) trivial rfl
      simp [assembly, sites, hself, expressions, Instr.Fits]
  | returns value s =>
      have hself := Stmt.writable_of_plain (σ := σ) pool (.returns value s) trivial rfl
      simp [assembly, sites, hself, expressions, Instr.Fits]

theorem Stmt.fits_iffElse (pool : List Constant) (e : Option Stmt) {σ : Scope}
    (hσ : ∀ x ∈ Stmt.sitesElse σ e, x.scope.height ≤ 256) :
    (Stmt.assemblyElse σ e).Fits pool ↔ ∀ x ∈ Stmt.sitesElse σ e, x.node.Writable pool x.scope := by
  cases e with
  | none => simp [assemblyElse, sitesElse]
  | some s => exact s.fits_iff pool hσ

theorem Stmt.fits_iffAll (pool : List Constant) (body : List Stmt) {σ : Scope}
    (hσ : ∀ x ∈ Stmt.sitesAll σ body, x.scope.height ≤ 256) :
    (Stmt.assemblyAll σ body).Fits pool ↔ ∀ x ∈ Stmt.sitesAll σ body, x.node.Writable pool x.scope := by
  cases body with
  | nil => simp [assemblyAll, sitesAll]
  | cons s rest =>
      simp only [sitesAll, List.forall_mem_append] at hσ
      rw [assemblyAll, sitesAll, Assembly.fits_append, List.forall_mem_append, s.fits_iff pool hσ.1,
        Stmt.fits_iffAll pool rest hσ.2]

end

/-! ## The limits -/

/-- The program uses its names as it may, and has room for its variables, its constants and its jumps. -/
structure Program.WithinLimits (p : Program) : Prop where
  /-- No block declares a name twice. -/
  names : ∀ σ body s, ⟨σ, .block body s⟩ ∈ p.statements → (Stmt.declaredAll body).Nodup
  /-- What a local variable starts with neither reads nor assigns to a variable of that name. -/
  initializers : ∀ σ name e s, ⟨σ, .var name (some e) s⟩ ∈ p.statements → σ ≠ [] →
    ∀ e' ∈ e.parts, e'.named? ≠ some name
  locals : ∀ σ s, ⟨σ, s⟩ ∈ p.statements → (σ.extend s.declared).height ≤ 256
  /-- There are at most 256 constants; numbers are told apart by their bits. -/
  constants : p.constants.dedup.length ≤ 256
  texts : ∀ t, .string t ∈ p.constants → '\x00' ∉ t.toList
  /-- The right operand of `and` and `or` can be jumped over. -/
  operators : ∀ σ op left right s, ⟨σ, .logical op left right s⟩ ∈ p.expressions → 1 + right.codeSize ≤ 65535
  branches : ∀ σ condition thenBranch elseBranch s,
    ⟨σ, .ifElse condition thenBranch elseBranch s⟩ ∈ p.statements →
    thenBranch.codeSize σ.isBlock + 4 ≤ 65535 ∧ Stmt.codeSizeElse σ.isBlock elseBranch + 1 ≤ 65535
  /-- A loop can jump back to its condition. -/
  loops : ∀ σ condition body s, ⟨σ, .whileLoop condition body s⟩ ∈ p.statements →
    condition.codeSize + body.codeSize σ.isBlock + 7 ≤ 32768

end Lox
