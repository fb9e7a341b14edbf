import Lox.Proofs.Extents

/-!
# Statements as they are written

A `SurfaceStmt` is a statement as it stands in a program. It has `for` loops, which a `Stmt` has not, and no spans.

* `SurfaceStmt.spelling`, `SurfaceStmt.canonical` : its tokens and whether the grammar gives it, as for a `Stmt`;
* `SurfaceStmt.meaning` : the statement that it stands for, without spans;
* `SurfaceStmt.tree run i` : the same statement, with the spans that it has if it begins at token `i`;
* `Stmt.surface` : a statement is written without `for`.
-/

namespace Lox

/-- A statement that has no other statement in it. -/
inductive SimpleStmt where
  | expression (e : Expr)
  | print (e : Expr)
  | var (name : String) (initializer : Option Expr)
  | returns (value : Option Expr)

namespace SimpleStmt

def stmt : SimpleStmt → Stmt
  | expression e => .expression e {}
  | print e => .print e {}
  | var name initializer => .var name initializer {}
  | returns value => .returns value {}

def spelling (c : SimpleStmt) : List TokenKind :=
  c.stmt.spelling

def width (c : SimpleStmt) : Nat :=
  c.spelling.length

def isInitializer : SimpleStmt → Bool
  | expression _ | var .. => true
  | print _ | returns _ => false

/-- The tokens that a `for` loop has in front of its condition: a statement, or else a semicolon. -/
def spellingInitial : Option SimpleStmt → List TokenKind
  | none => [.reserved .semicolon]
  | some c => c.spelling

/-- The statement with the spans that it has if it begins at token `i`. -/
def tree (run : Nat → Nat → Span) (i : Nat) : SimpleStmt → Stmt
  | c@(expression e) => .expression (e.spanned run i) (run i (i + c.width))
  | c@(print e) => .print (e.spanned run (i + 1)) (run i (i + c.width))
  | c@(var name initializer) => .var name (initializer.map (·.spanned run (i + 3))) (run i (i + c.width))
  | c@(returns value) => .returns (value.map (·.spanned run (i + 1))) (run i (i + c.width))

section Widths

variable {e : Expr} {name : String} {value : Option Expr}

theorem width_expression : (expression e).width = e.width + 1 := by
  simp [width, spelling, stmt, Stmt.spelling, Expr.width]

theorem width_print : (print e).width = 1 + e.width + 1 := by
  simp only [width, spelling, stmt, Stmt.spelling, Expr.width, List.length_append, List.length_cons, List.length_nil]
  omega

theorem width_var : (var name value).width = 2 + (Expr.spellingOption [.reserved .equal] value).length + 1 := by
  simp only [width, spelling, stmt, Stmt.spelling, List.length_append, List.length_cons, List.length_nil]
  omega

theorem width_returns : (returns value).width = 1 + (Expr.spellingOption [] value).length + 1 := by
  simp only [width, spelling, stmt, Stmt.spelling, List.length_append, List.length_cons, List.length_nil]
  omega

end Widths

end SimpleStmt

/-- A statement or declaration as it is written. -/
inductive SurfaceStmt where
  | simple (c : SimpleStmt)
  | block (body : List SurfaceStmt)
  | ifElse (condition : Expr) (thenBranch : SurfaceStmt) (elseBranch : Option SurfaceStmt)
  | whileLoop (condition : Expr) (body : SurfaceStmt)
  | forLoop (initializer : Option SimpleStmt) (condition step : Option Expr) (body : SurfaceStmt)
  | function (name : String) (parameters : List String) (body : List SurfaceStmt)

/-- Induction over statements as they are written. -/
@[induction_eliminator]
theorem SurfaceStmt.induction {motive : SurfaceStmt → Prop}
    (simple : ∀ c, motive (.simple c))
    (block : ∀ body, (∀ f ∈ body, motive f) → motive (.block body))
    (ifElse : ∀ condition thenBranch elseBranch, motive thenBranch → (∀ f ∈ elseBranch, motive f) →
      motive (.ifElse condition thenBranch elseBranch))
    (whileLoop : ∀ condition body, motive body → motive (.whileLoop condition body))
    (forLoop : ∀ initializer condition step body, motive body → motive (.forLoop initializer condition step body))
    (function : ∀ name parameters body, (∀ f ∈ body, motive f) → motive (.function name parameters body))
    (f : SurfaceStmt) : motive f := by
  cases f with
  | simple c => exact simple c
  | block body =>
      exact block body fun f _ => SurfaceStmt.induction simple block ifElse whileLoop forLoop function f
  | ifElse condition thenBranch elseBranch =>
      exact ifElse condition thenBranch elseBranch
        (SurfaceStmt.induction simple block ifElse whileLoop forLoop function thenBranch)
        (fun f _ => SurfaceStmt.induction simple block ifElse whileLoop forLoop function f)
  | whileLoop condition body =>
      exact whileLoop condition body (SurfaceStmt.induction simple block ifElse whileLoop forLoop function body)
  | forLoop initializer condition step body =>
      exact forLoop initializer condition step body
        (SurfaceStmt.induction simple block ifElse whileLoop forLoop function body)
  | function name parameters body =>
      exact function name parameters body fun f _ =>
        SurfaceStmt.induction simple block ifElse whileLoop forLoop function f

namespace SurfaceStmt

/-! ## Spelling -/

mutual

def spelling : SurfaceStmt → List TokenKind
  | .simple c => c.spelling
  | .block body => .reserved .leftBrace :: spellingAll body ++ [.reserved .rightBrace]
  | .ifElse condition thenBranch elseBranch =>
    .reserved .if :: .reserved .leftParen :: condition.spelling ++ .reserved .rightParen :: thenBranch.spelling ++
      spellingElse elseBranch
  | .whileLoop condition body =>
    .reserved .while :: .reserved .leftParen :: condition.spelling ++ .reserved .rightParen :: body.spelling
  | .forLoop initializer condition step body =>
    .reserved .for :: .reserved .leftParen :: SimpleStmt.spellingInitial initializer ++
      Expr.spellingOption [] condition ++ .reserved .semicolon :: Expr.spellingOption [] step ++
        .reserved .rightParen :: body.spelling
  | .function name parameters body =>
    .reserved .fun :: .identifier name :: .reserved .leftParen :: spellingNames parameters ++
      .reserved .rightParen :: .reserved .leftBrace :: spellingAll body ++ [.reserved .rightBrace]

def spellingElse : Option SurfaceStmt → List TokenKind
  | none => []
  | some f => .reserved .else :: f.spelling

def spellingAll : List SurfaceStmt → List TokenKind
  | [] => []
  | f :: rest => f.spelling ++ spellingAll rest

end

def width (f : SurfaceStmt) : Nat :=
  f.spelling.length

/-! ## Trees of the grammar -/

/-- Whether the statement is a declaration, which cannot be a branch or the body of a loop. -/
def isDeclaration : SurfaceStmt → Bool
  | .simple c => c.stmt.isDeclaration
  | .function .. => true
  | _ => false

/-- Whether the statement ends with an `if` without `else`, so that an `else` behind it would belong to it. -/
def endsOpen : SurfaceStmt → Bool
  | .ifElse _ _ none => true
  | .ifElse _ _ (some f) => f.endsOpen
  | .whileLoop _ body => body.endsOpen
  | .forLoop _ _ _ body => body.endsOpen
  | _ => false

mutual

/-- Whether the grammar gives the statement. -/
def canonical : SurfaceStmt → Bool
  | .simple c => c.stmt.canonical
  | .block body => canonicalAll body
  | .ifElse condition thenBranch elseBranch =>
    condition.canonical && !thenBranch.isDeclaration && thenBranch.canonical &&
      !(elseBranch.isSome && thenBranch.endsOpen) && canonicalElse elseBranch
  | .whileLoop condition body => condition.canonical && !body.isDeclaration && body.canonical
  | .forLoop initializer condition step body =>
    initializer.all (fun c => c.isInitializer && c.stmt.canonical) && condition.all Expr.canonical &&
      step.all Expr.canonical && !body.isDeclaration && body.canonical
  | .function _ parameters body => parameters.length ≤ Parser.maxArguments && canonicalAll body

def canonicalElse : Option SurfaceStmt → Bool
  | none => true
  | some f => !f.isDeclaration && f.canonical

def canonicalAll : List SurfaceStmt → Bool
  | [] => true
  | f :: rest => f.canonical && canonicalAll rest

end

/-! ## Meaning -/

mutual

/-- The statement that it stands for, without spans. -/
def meaning : SurfaceStmt → Stmt
  | .simple c => c.stmt.bare
  | .block body => .block (meaningAll body) {}
  | .ifElse condition thenBranch elseBranch =>
    .ifElse condition.bare thenBranch.meaning (meaningElse elseBranch) {}
  | .whileLoop condition body => .whileLoop condition.bare body.meaning {}
  | .forLoop initializer condition step body =>
    .forLoop (initializer.map (·.stmt.bare)) (condition.map Expr.bare) (step.map Expr.bare) body.meaning {}
  | .function name parameters body => .function name parameters (meaningAll body) {}

def meaningElse : Option SurfaceStmt → Option Stmt
  | none => none
  | some f => some f.meaning

def meaningAll : List SurfaceStmt → List Stmt
  | [] => []
  | f :: rest => f.meaning :: meaningAll rest

end

mutual

/-- The statement that it stands for, with the span `run i j` at every node that is written, where token `i` is the first
of the node and token `j` stands behind the last one. What a `for` loop stands for has the span of the loop where it has
none of its own. -/
def tree (run : Nat → Nat → Span) : Nat → SurfaceStmt → Stmt
  | i, .simple c => c.tree run i
  | i, f@(.block body) => .block (treeAll run (i + 1) body) (run i (i + f.width))
  | i, f@(.ifElse condition thenBranch elseBranch) =>
    let first := i + 2 + condition.width + 1
    .ifElse (condition.spanned run (i + 2)) (thenBranch.tree run first)
      (treeElse run (first + thenBranch.width) elseBranch) (run i (i + f.width))
  | i, f@(.whileLoop condition body) =>
    .whileLoop (condition.spanned run (i + 2)) (body.tree run (i + 2 + condition.width + 1)) (run i (i + f.width))
  | i, f@(.forLoop initializer condition step body) =>
    let second := i + 2 + (SimpleStmt.spellingInitial initializer).length
    let third := second + (Expr.spellingOption [] condition).length + 1
    let first := third + (Expr.spellingOption [] step).length + 1
    .forLoop (initializer.map (·.tree run (i + 2))) (condition.map (·.spanned run second))
      (step.map (·.spanned run third)) (body.tree run first) (run i (i + f.width))
  | i, f@(.function name parameters body) =>
    .function name parameters (treeAll run (i + 3 + (spellingNames parameters).length + 2) body) (run i (i + f.width))

def treeElse (run : Nat → Nat → Span) : Nat → Option SurfaceStmt → Option Stmt
  | _, none => none
  | i, some f => some (f.tree run (i + 1))

def treeAll (run : Nat → Nat → Span) : Nat → List SurfaceStmt → List Stmt
  | _, [] => []
  | i, f :: rest => f.tree run i :: treeAll run (i + f.width) rest

end

theorem width_pos (f : SurfaceStmt) : 0 < f.width := by
  unfold width
  cases f with
  | simple c => cases c <;> simp [spelling, SimpleStmt.spelling, SimpleStmt.stmt, Stmt.spelling]
  | _ => simp [spelling]

section Widths

variable {condition : Expr} {f : SurfaceStmt} {body : List SurfaceStmt}

theorem width_simple {c : SimpleStmt} : (simple c).width = c.width := by
  rw [width, spelling, SimpleStmt.width]

theorem width_block : (block body).width = 1 + (spellingAll body).length + 1 := by
  simp only [width, spelling, List.length_append, List.length_cons, List.length_nil]
  omega

theorem width_ifElse {elseBranch : Option SurfaceStmt} :
    (ifElse condition f elseBranch).width = 2 + condition.width + 1 + f.width + (spellingElse elseBranch).length := by
  simp only [width, Expr.width, spelling, List.length_append, List.length_cons]
  omega

theorem width_whileLoop : (whileLoop condition f).width = 2 + condition.width + 1 + f.width := by
  simp only [width, Expr.width, spelling, List.length_append, List.length_cons]
  omega

theorem width_forLoop {initializer : Option SimpleStmt} {condition step : Option Expr} :
    (forLoop initializer condition step f).width = 2 + (SimpleStmt.spellingInitial initializer).length +
      (Expr.spellingOption [] condition).length + 1 + (Expr.spellingOption [] step).length + 1 + f.width := by
  simp only [width, spelling, List.length_append, List.length_cons]
  omega

theorem width_function {name : String} {parameters : List String} :
    (function name parameters body).width =
      3 + (spellingNames parameters).length + 2 + (spellingAll body).length + 1 := by
  simp only [width, spelling, List.length_append, List.length_cons, List.length_nil]
  omega

end Widths

end SurfaceStmt

/-! ## Statements without `for` -/

mutual

/-- The statement as it is written without `for`. -/
def Stmt.surface : Stmt → SurfaceStmt
  | .expression e _ => .simple (.expression e)
  | .print e _ => .simple (.print e)
  | .var name initializer _ => .simple (.var name initializer)
  | .block body _ => .block (Stmt.surfaceAll body)
  | .ifElse condition thenBranch elseBranch _ =>
    .ifElse condition thenBranch.surface (Stmt.surfaceElse elseBranch)
  | .whileLoop condition body _ => .whileLoop condition body.surface
  | .function name parameters body _ => .function name parameters (Stmt.surfaceAll body)
  | .returns value _ => .simple (.returns value)

def Stmt.surfaceElse : Option Stmt → Option SurfaceStmt
  | none => none
  | some d => some d.surface

def Stmt.surfaceAll : List Stmt → List SurfaceStmt
  | [] => []
  | d :: rest => d.surface :: Stmt.surfaceAll rest

end

namespace Stmt

theorem isDeclaration_surface (d : Stmt) : d.surface.isDeclaration = d.isDeclaration := by
  cases d <;> rfl

theorem endsOpen_surface (d : Stmt) : d.surface.endsOpen = d.endsOpen := by
  induction d with
  | ifElse condition thenBranch elseBranch s iht ihe =>
      cases elseBranch with
      | none => rfl
      | some d => exact ihe d rfl
  | whileLoop condition body s ih => exact ih
  | _ => rfl

mutual

theorem spelling_surface (d : Stmt) : d.surface.spelling = d.spelling := by
  cases d with
  | block body s => rw [surface, SurfaceStmt.spelling, spelling, spellingAll_surfaceAll body]
  | ifElse condition thenBranch elseBranch s =>
      rw [surface, SurfaceStmt.spelling, spelling, spelling_surface thenBranch]
      cases elseBranch with
      | none => rfl
      | some d => rw [surfaceElse, SurfaceStmt.spellingElse, spellingElse, spelling_surface d]
  | whileLoop condition body s => rw [surface, SurfaceStmt.spelling, spelling, spelling_surface body]
  | function name parameters body s => rw [surface, SurfaceStmt.spelling, spelling, spellingAll_surfaceAll body]
  | _ => rfl

theorem spellingAll_surfaceAll (body : List Stmt) :
    SurfaceStmt.spellingAll (surfaceAll body) = spellingAll body := by
  cases body with
  | nil => rfl
  | cons d rest =>
      rw [surfaceAll, SurfaceStmt.spellingAll, spellingAll, spelling_surface d, spellingAll_surfaceAll rest]

end

mutual

theorem canonical_surface (d : Stmt) : d.surface.canonical = d.canonical := by
  cases d with
  | block body s => rw [surface, SurfaceStmt.canonical, canonical, canonicalAll_surfaceAll body]
  | ifElse condition thenBranch elseBranch s =>
      rw [surface, SurfaceStmt.canonical, canonical, canonical_surface thenBranch, isDeclaration_surface,
        endsOpen_surface]
      cases elseBranch with
      | none => rfl
      | some d =>
          rw [surfaceElse, SurfaceStmt.canonicalElse, canonicalElse, canonical_surface d, isDeclaration_surface]
          rfl
  | whileLoop condition body s =>
      rw [surface, SurfaceStmt.canonical, canonical, canonical_surface body, isDeclaration_surface]
  | function name parameters body s => rw [surface, SurfaceStmt.canonical, canonical, canonicalAll_surfaceAll body]
  | _ => rfl

theorem canonicalAll_surfaceAll (body : List Stmt) :
    SurfaceStmt.canonicalAll (surfaceAll body) = canonicalAll body := by
  cases body with
  | nil => rfl
  | cons d rest =>
      rw [surfaceAll, SurfaceStmt.canonicalAll, canonicalAll, canonical_surface d, canonicalAll_surfaceAll rest]

end

mutual

theorem meaning_surface (d : Stmt) : d.surface.meaning = d.bare := by
  cases d with
  | block body s => rw [surface, SurfaceStmt.meaning, bare, meaningAll_surfaceAll body]
  | ifElse condition thenBranch elseBranch s =>
      rw [surface, SurfaceStmt.meaning, bare, meaning_surface thenBranch]
      cases elseBranch with
      | none => rfl
      | some d => rw [surfaceElse, SurfaceStmt.meaningElse, bareElse, meaning_surface d]
  | whileLoop condition body s => rw [surface, SurfaceStmt.meaning, bare, meaning_surface body]
  | function name parameters body s => rw [surface, SurfaceStmt.meaning, bare, meaningAll_surfaceAll body]
  | _ => rfl

theorem meaningAll_surfaceAll (body : List Stmt) : SurfaceStmt.meaningAll (surfaceAll body) = bareAll body := by
  cases body with
  | nil => rfl
  | cons d rest => rw [surfaceAll, SurfaceStmt.meaningAll, bareAll, meaning_surface d, meaningAll_surfaceAll rest]

end

end Stmt

end Lox
