import Mathlib.Algebra.GroupWithZero.Nat
import Mathlib.Tactic.SplitIfs
import Lox.Code.Compiled

/-!
# Assembly

What a program compiles to, as a function of the program alone. Constants stand for themselves and not
for their index, and every jump is written with its distance.

* `Instr` : an instruction with its operand; `Instr.bytes pool` is how code carries it;
* `Line` : an instruction with its span and the number of values on the stack before it;
* `Scope` : the names of the local variables in scope, block by block;
* `Expr.assembly`, `Stmt.assembly`, `Program.assembly` : the instructions of a program.

That `compile` writes these instructions is shown in `Lox.Proofs.Emission`.
-/

namespace Lox

/-! ## Instructions -/

/-- An instruction of a compiled program with its operand. The distance of a jump counts from behind
the operand. -/
inductive Instr where
  | binary (op : BinaryOp)
  | unary (op : UnaryOp)
  | pushConstant (k : Constant)
  | pushNil
  | pushTrue
  | pushFalse
  | pop
  | print
  | defineGlobal (name : String)
  | setGlobal (name : String)
  | getGlobal (name : String)
  | setLocal (slot : Nat)
  | getLocal (slot : Nat)
  | jump (distance : Nat)
  | jumpIfFalse (distance : Nat)
  | jumpIfTrue (distance : Nat)
  | loop (distance : Nat)
  | trap

namespace Instr

def opcode : Instr → Opcode
  | binary op => .binary op
  | unary op => .unary op
  | pushConstant _ => .pushConstant
  | pushNil => .pushNil
  | pushTrue => .pushTrue
  | pushFalse => .pushFalse
  | pop => .pop
  | print => .print
  | defineGlobal _ => .defineGlobal
  | setGlobal _ => .setGlobal
  | getGlobal _ => .getGlobal
  | setLocal _ => .setLocal
  | getLocal _ => .getLocal
  | jump _ => .jump
  | jumpIfFalse _ => .jumpIfFalse
  | jumpIfTrue _ => .jumpIfTrue
  | loop _ => .jumpSigned
  | trap => .trap

def size (i : Instr) : Nat :=
  1 + i.opcode.operandSize

def constant? : Instr → Option Constant
  | pushConstant k => some k
  | defineGlobal name | setGlobal name | getGlobal name => some (.string name)
  | _ => none

/-- The operand, with constants numbered by their place in the pool. -/
def operand (pool : List Constant) : Instr → List UInt8
  | pushConstant k => [UInt8.ofNat (pool.idxOf k)]
  | defineGlobal name | setGlobal name | getGlobal name => [UInt8.ofNat (pool.idxOf (.string name))]
  | setLocal slot | getLocal slot => [UInt8.ofNat slot]
  | jump d | jumpIfFalse d | jumpIfTrue d => toLittleEndian 2 d
  | loop d => toLittleEndian 2 (-(d : Int) % 0x10000).toNat
  | _ => []

def bytes (pool : List Constant) (i : Instr) : List UInt8 :=
  i.opcode.toByte :: i.operand pool

/-- Whether the operand can be written: its constant is in the pool, and its number is in range. -/
def Fits (pool : List Constant) : Instr → Prop
  | pushConstant k => k ∈ pool
  | defineGlobal name | setGlobal name | getGlobal name => .string name ∈ pool
  | setLocal slot | getLocal slot => slot < 256
  | jump d | jumpIfFalse d | jumpIfTrue d => d ≤ 0xffff
  | loop d => d ≤ 0x8000
  | _ => True

theorem length_operand (pool : List Constant) (i : Instr) :
    (i.operand pool).length = i.opcode.operandSize := by
  cases i <;> rfl

theorem length_bytes (pool : List Constant) (i : Instr) : (i.bytes pool).length = i.size := by
  rw [bytes, List.length_cons, length_operand, size, Nat.add_comm]

theorem size_pos (i : Instr) : 0 < i.size := by
  unfold size
  omega

@[simp] theorem size_binary (op : BinaryOp) : (binary op).size = 1 := rfl

@[simp] theorem size_unary (op : UnaryOp) : (unary op).size = 1 := rfl

@[simp] theorem size_pushNil : pushNil.size = 1 := rfl

@[simp] theorem size_pop : pop.size = 1 := rfl

@[simp] theorem size_print : print.size = 1 := rfl

@[simp] theorem size_defineGlobal (name : String) : (defineGlobal name).size = 2 := rfl

@[simp] theorem size_jump (d : Nat) : (jump d).size = 3 := rfl

@[simp] theorem size_jumpIfFalse (d : Nat) : (jumpIfFalse d).size = 3 := rfl

@[simp] theorem size_jumpIfTrue (d : Nat) : (jumpIfTrue d).size = 3 := rfl

@[simp] theorem size_loop (d : Nat) : (loop d).size = 3 := rfl

end Instr

/-! ## Lines of assembly -/

structure Line where
  instr : Instr
  span : Span
  /-- How many values are on the stack when the instruction is executed. -/
  height : Nat

abbrev Assembly := List Line

namespace Assembly

def size (a : Assembly) : Nat :=
  (a.map (·.instr.size)).sum

def bytes (pool : List Constant) (a : Assembly) : List UInt8 :=
  a.flatMap (·.instr.bytes pool)

/-- The offsets and spans of instructions that start at the given offset. -/
def entries (o : Nat) : Assembly → List (Nat × Span)
  | [] => []
  | l :: a => (o, l.span) :: entries (o + l.instr.size) a

@[simp] theorem size_nil : size [] = 0 := rfl

@[simp] theorem size_cons (l : Line) (a : Assembly) : size (l :: a) = l.instr.size + size a := by
  simp [size]

@[simp] theorem size_append (a b : Assembly) : size (a ++ b) = size a + size b := by
  simp [size]

@[simp] theorem bytes_nil (pool : List Constant) : bytes pool [] = [] := rfl

@[simp] theorem bytes_cons (pool : List Constant) (l : Line) (a : Assembly) :
    bytes pool (l :: a) = l.instr.bytes pool ++ bytes pool a := rfl

@[simp] theorem bytes_append (pool : List Constant) (a b : Assembly) :
    bytes pool (a ++ b) = bytes pool a ++ bytes pool b := by
  simp [bytes]

theorem length_bytes (pool : List Constant) (a : Assembly) : (bytes pool a).length = size a := by
  induction a with
  | nil => rfl
  | cons l a ih => rw [bytes_cons, List.length_append, Instr.length_bytes, ih, size_cons]

@[simp] theorem entries_nil (o : Nat) : entries o [] = [] := rfl

@[simp] theorem entries_cons (o : Nat) (l : Line) (a : Assembly) :
    entries o (l :: a) = (o, l.span) :: entries (o + l.instr.size) a := rfl

theorem entries_append (o : Nat) (a b : Assembly) :
    entries o (a ++ b) = entries o a ++ entries (o + size a) b := by
  induction a generalizing o with
  | nil => simp
  | cons l a ih => simp [ih, Nat.add_assoc]

end Assembly

/-! ## Scopes -/

/-- The place from the bottom of the innermost variable of a name; the names have the innermost
first. -/
def slotIn (name : String) : List String → Option Nat
  | [] => none
  | n :: older => if n = name then some older.length else slotIn name older

/-- The names of the variables of the open blocks, the innermost block and in it the newest variable
first. -/
abbrev Scope := List (List String)

namespace Scope

def height (σ : Scope) : Nat :=
  σ.flatten.length

def slot? (σ : Scope) (name : String) : Option Nat :=
  slotIn name σ.flatten

/-- Adds variables to the innermost block. Outside all blocks there are none. -/
def extend : Scope → List String → Scope
  | [], _ => []
  | block :: outer, names => (names ++ block) :: outer

def access (σ : Scope) (toLocal : Nat → Instr) (toGlobal : String → Instr) (name : String) : Instr :=
  match σ.slot? name with
  | some slot => toLocal slot
  | none => toGlobal name

theorem size_access (σ : Scope) {toLocal : Nat → Instr} {toGlobal : String → Instr} (name : String)
    (hlocal : ∀ slot, (toLocal slot).size = 2) (hglobal : (toGlobal name).size = 2) :
    (σ.access toLocal toGlobal name).size = 2 := by
  unfold access
  split
  · exact hlocal _
  · exact hglobal

@[simp] theorem size_access_get (σ : Scope) (name : String) :
    (σ.access .getLocal .getGlobal name).size = 2 :=
  σ.size_access name (fun _ => rfl) rfl

@[simp] theorem size_access_set (σ : Scope) (name : String) :
    (σ.access .setLocal .setGlobal name).size = 2 :=
  σ.size_access name (fun _ => rfl) rfl

@[simp] theorem extend_nil (σ : Scope) : σ.extend [] = σ := by
  cases σ <;> rfl

theorem length_extend (σ : Scope) (names : List String) : (σ.extend names).length = σ.length := by
  cases σ <;> rfl

theorem extend_append (σ : Scope) (ns ms : List String) : σ.extend (ns ++ ms) = (σ.extend ms).extend ns := by
  cases σ <;> simp [extend]

end Scope

/-! ## Expressions -/

def Value.instr : Value → Instr
  | .nil => .pushNil
  | .boolean true => .pushTrue
  | .boolean false => .pushFalse
  | .number x => .pushConstant (.number x)
  | .string s => .pushConstant (.string s)

def LogicalOp.instr (distance : Nat) : LogicalOp → Instr
  | .and => .jumpIfFalse distance
  | .or => .jumpIfTrue distance

@[simp] theorem LogicalOp.size_instr (distance : Nat) (op : LogicalOp) : (op.instr distance).size = 3 := by
  cases op <;> rfl

/-- The instructions of an expression, started with `h` values on the stack. They leave one more. -/
def Expr.assembly (σ : Scope) (h : Nat) : Expr → Assembly
  | .literal v s => [⟨v.instr, s, h⟩]
  | .var name s => [⟨σ.access .getLocal .getGlobal name, s, h⟩]
  | .assign name value s =>
    value.assembly σ h ++ [⟨σ.access .setLocal .setGlobal name, s, h + 1⟩]
  | .unary op operand s => operand.assembly σ h ++ [⟨.unary op, s, h + 1⟩]
  | .binary op left right s =>
    left.assembly σ h ++ right.assembly σ (h + 1) ++ [⟨.binary op, s, h + 2⟩]
  | .logical op left right s =>
    let rest := right.assembly σ h
    left.assembly σ h ++ [⟨op.instr (rest.size + 1), s, h + 1⟩, ⟨.pop, s, h + 1⟩] ++ rest
  | .grouping inner _ => inner.assembly σ h
  | .call _ _ s => [⟨.trap, s, h⟩]

/-! ## Statements -/

mutual

/-- The names that a statement declares in the block it stands in, the newest first. A branch or loop
body that is itself a declaration declares its name there, too. -/
def Stmt.declared : Stmt → List String
  | .var name _ _ => [name]
  | .ifElse _ thenBranch elseBranch _ => Stmt.declaredElse elseBranch ++ thenBranch.declared
  | .whileLoop _ body _ => body.declared
  | _ => []

def Stmt.declaredElse : Option Stmt → List String
  | none => []
  | some s => s.declared

end

def Stmt.declaredAll : List Stmt → List String
  | [] => []
  | s :: rest => declaredAll rest ++ s.declared

/-- Pops the topmost `n` of `h + n` values. -/
def Assembly.pops (span : Span) (h : Nat) : Nat → Assembly
  | 0 => []
  | n + 1 => ⟨.pop, span, h + n + 1⟩ :: pops span h n

@[simp] theorem Assembly.size_pops (span : Span) (h n : Nat) : (pops span h n).size = n := by
  induction n with
  | zero => rfl
  | succ n ih => simp [pops, ih, Nat.add_comm]

def Expr.initial (σ : Scope) (h : Nat) (span : Span) : Option Expr → Assembly
  | none => [⟨.pushNil, span, h⟩]
  | some e => e.assembly σ h

/-- The instructions of the declaration of a variable: a local stays on the stack. -/
def Scope.declaration (σ : Scope) (name : String) (value : Option Expr) (span : Span) : Assembly :=
  match σ with
  | [] => Expr.initial σ σ.height span value ++ [⟨.defineGlobal name, span, σ.height + 1⟩]
  | _ :: _ => Expr.initial σ σ.height span value

mutual

/-- The instructions of a statement, started with the variables in scope on the stack. -/
def Stmt.assembly (σ : Scope) : Stmt → Assembly
  | .expression e s => e.assembly σ σ.height ++ [⟨.pop, s, σ.height + 1⟩]
  | .print e s => e.assembly σ σ.height ++ [⟨.print, s, σ.height + 1⟩]
  | .var name value s => σ.declaration name value s
  | .block body s =>
    Stmt.assemblyAll ([] :: σ) body ++ Assembly.pops s σ.height (Stmt.declaredAll body).length
  | .ifElse condition thenBranch elseBranch s =>
    let onTrue := thenBranch.assembly σ
    let onFalse := Stmt.assemblyElse (σ.extend thenBranch.declared) elseBranch
    condition.assembly σ σ.height ++
      [⟨.jumpIfFalse (onTrue.size + 4), s, σ.height + 1⟩, ⟨.pop, s, σ.height + 1⟩] ++ onTrue ++
      [⟨.jump (onFalse.size + 1), s, σ.height⟩, ⟨.pop, s, σ.height + 1⟩] ++ onFalse
  | .whileLoop condition body s =>
    let test := condition.assembly σ σ.height
    let round := body.assembly σ
    test ++ [⟨.jumpIfFalse (round.size + 4), s, σ.height + 1⟩, ⟨.pop, s, σ.height + 1⟩] ++ round ++
      [⟨.loop (test.size + round.size + 7), s, σ.height⟩, ⟨.pop, s, σ.height + 1⟩]
  | .function _ _ _ s => [⟨.trap, s, σ.height⟩]
  | .returns _ s => [⟨.trap, s, σ.height⟩]

def Stmt.assemblyElse (σ : Scope) : Option Stmt → Assembly
  | none => []
  | some s => s.assembly σ

/-- The instructions of statements in turn, each in the scope that those before it leave. -/
def Stmt.assemblyAll (σ : Scope) : List Stmt → Assembly
  | [] => []
  | s :: rest => s.assembly σ ++ Stmt.assemblyAll (σ.extend s.declared) rest

end

def Program.assembly (p : Program) : Assembly :=
  Stmt.assemblyAll [] p

/-! ## Programs whose branches declare nothing -/

def Stmt.isVar : Stmt → Bool
  | .var _ _ _ => true
  | _ => false

mutual

/-- Whether no branch and no loop body in the statement is itself the declaration of a variable. -/
def Stmt.wellFormed : Stmt → Bool
  | .block body _ => Stmt.wellFormedAll body
  | .ifElse _ thenBranch elseBranch _ =>
    !thenBranch.isVar && thenBranch.wellFormed && Stmt.wellFormedElse elseBranch
  | .whileLoop _ body _ => !body.isVar && body.wellFormed
  | .function _ _ body _ => Stmt.wellFormedAll body
  | _ => true

def Stmt.wellFormedElse : Option Stmt → Bool
  | none => true
  | some s => !s.isVar && s.wellFormed

def Stmt.wellFormedAll : List Stmt → Bool
  | [] => true
  | s :: rest => s.wellFormed && Stmt.wellFormedAll rest

end

/-- A program none of whose branches and loop bodies is itself the declaration of a variable. -/
def Program.WellFormed (p : Program) : Prop :=
  Stmt.wellFormedAll p = true

instance (p : Program) : Decidable p.WellFormed :=
  inferInstanceAs (Decidable (_ = true))

mutual

theorem Stmt.declared_of_wellFormed (s : Stmt) (hs : s.wellFormed = true) (hv : s.isVar = false) :
    s.declared = [] := by
  cases s with
  | ifElse c t e s =>
      simp only [wellFormed, Bool.and_eq_true, Bool.not_eq_true'] at hs
      rw [declared, Stmt.declaredElse_of_wellFormed e hs.2,
        Stmt.declared_of_wellFormed t hs.1.2 hs.1.1, List.append_nil]
  | whileLoop c b s =>
      simp only [wellFormed, Bool.and_eq_true, Bool.not_eq_true'] at hs
      rw [declared, Stmt.declared_of_wellFormed b hs.2 hs.1]
  | var n v s => simp [isVar] at hv
  | _ => simp only [declared]

theorem Stmt.declaredElse_of_wellFormed (e : Option Stmt) (he : Stmt.wellFormedElse e = true) :
    Stmt.declaredElse e = [] := by
  cases e with
  | none => rfl
  | some s =>
      simp only [wellFormedElse, Bool.and_eq_true, Bool.not_eq_true'] at he
      rw [declaredElse, Stmt.declared_of_wellFormed s he.2 he.1]

end

end Lox
