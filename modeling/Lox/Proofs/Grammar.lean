import Lox.Program.Read
import Lox.Proofs.Induction

/-!
# The grammar

Programs as rows of tokens.

* `Expr.spelling`, `Stmt.spelling`, `Program.spelling` : the tokens that a program spells;
* `Expr.canonical`, `Stmt.canonical`, `Program.Canonical` : whether the tree is one that the grammar gives, so
  that operands are in parentheses wherever they bind too loosely;
* `Expr.bare`, `Stmt.bare`, `Program.bare` : the tree without its spans.

The grammar of expressions, loosest level first:

    assignment → IDENTIFIER "=" assignment | or
    or         → and ("or" and)*
    and        → equality ("and" equality)*
    equality   → comparison (("!=" | "==") comparison)*
    comparison → term ((">" | ">=" | "<" | "<=") term)*
    term       → factor (("-" | "+") factor)*
    factor     → unary (("/" | "*") unary)*
    unary      → ("!" | "-") unary | call
    call       → primary ("(" arguments? ")")*
    primary    → NUMBER | STRING | "true" | "false" | "nil" | IDENTIFIER | "(" assignment ")"
-/

namespace Lox

/-! ## Tokens of operators and constants -/

def UnaryOp.token : UnaryOp → Reserved
  | .negate => .minus
  | .not => .bang

def BinaryOp.token : BinaryOp → Reserved
  | .add => .plus
  | .subtract => .minus
  | .multiply => .star
  | .divide => .slash
  | .less => .less
  | .lessEqual => .lessEqual
  | .greater => .greater
  | .greaterEqual => .greaterEqual
  | .equal => .equalEqual
  | .notEqual => .bangEqual

def LogicalOp.token : LogicalOp → Reserved
  | .and => .and
  | .or => .or

def Value.token : Value → TokenKind
  | .nil => .reserved .nil
  | .boolean true => .reserved .true
  | .boolean false => .reserved .false
  | .number x => .number x
  | .string s => .string s

/-! ## Spelling -/

mutual

/-- The tokens of an expression. Only a grouping and a call spell parentheses. -/
def Expr.spelling : Expr → List TokenKind
  | .literal v _ => [v.token]
  | .var name _ => [.identifier name]
  | .assign name value _ => .identifier name :: .reserved .equal :: value.spelling
  | .unary op operand _ => .reserved op.token :: operand.spelling
  | .binary op left right _ => left.spelling ++ .reserved op.token :: right.spelling
  | .logical op left right _ => left.spelling ++ .reserved op.token :: right.spelling
  | .grouping inner _ => .reserved .leftParen :: inner.spelling ++ [.reserved .rightParen]
  | .call callee arguments _ =>
    callee.spelling ++ .reserved .leftParen :: Expr.spellingAll arguments ++ [.reserved .rightParen]

/-- The tokens of expressions with commas between them. -/
def Expr.spellingAll : List Expr → List TokenKind
  | [] => []
  | [e] => e.spelling
  | e :: e' :: rest => e.spelling ++ .reserved .comma :: Expr.spellingAll (e' :: rest)

end

def spellingNames : List String → List TokenKind
  | [] => []
  | [name] => [.identifier name]
  | name :: name' :: rest => .identifier name :: .reserved .comma :: spellingNames (name' :: rest)

/-- The tokens of an expression that may be missing, behind the given ones. -/
def Expr.spellingOption (before : List TokenKind) : Option Expr → List TokenKind
  | none => []
  | some e => before ++ e.spelling

mutual

def Stmt.spelling : Stmt → List TokenKind
  | .expression e _ => e.spelling ++ [.reserved .semicolon]
  | .print e _ => .reserved .print :: e.spelling ++ [.reserved .semicolon]
  | .var name initializer _ =>
    .reserved .var :: .identifier name :: Expr.spellingOption [.reserved .equal] initializer ++ [.reserved .semicolon]
  | .block body _ => .reserved .leftBrace :: Stmt.spellingAll body ++ [.reserved .rightBrace]
  | .ifElse condition thenBranch elseBranch _ =>
    .reserved .if :: .reserved .leftParen :: condition.spelling ++ .reserved .rightParen :: thenBranch.spelling ++
      Stmt.spellingElse elseBranch
  | .whileLoop condition body _ =>
    .reserved .while :: .reserved .leftParen :: condition.spelling ++ .reserved .rightParen :: body.spelling
  | .function name parameters body _ =>
    .reserved .fun :: .identifier name :: .reserved .leftParen :: spellingNames parameters ++
      .reserved .rightParen :: .reserved .leftBrace :: Stmt.spellingAll body ++ [.reserved .rightBrace]
  | .returns value _ => .reserved .return :: Expr.spellingOption [] value ++ [.reserved .semicolon]

def Stmt.spellingElse : Option Stmt → List TokenKind
  | none => []
  | some s => .reserved .else :: s.spelling

def Stmt.spellingAll : List Stmt → List TokenKind
  | [] => []
  | s :: rest => s.spelling ++ Stmt.spellingAll rest

end

def Program.spelling (p : Program) : List TokenKind :=
  Stmt.spellingAll p

/-! ## Trees of the grammar -/

/-- The level of the grammar that gives an expression, the tightest there is. -/
def Expr.level : Expr → Precedence
  | .assign .. => .assignment
  | .logical op .. => op.precedence
  | .binary op .. => op.precedence
  | .unary .. => .unary
  | .call .. => .call
  | .literal .. | .var .. | .grouping .. => .primary

/-- Whether an expression may stand where the grammar has a phrase of some level. -/
def Expr.bindsLike (e : Expr) (least : Precedence) : Bool :=
  least.rank ≤ e.level.rank

mutual

/-- Whether the grammar gives the expression. Binary operators associate to the left, so that the left operand
may be of their own level and the right one is of the next. -/
def Expr.canonical : Expr → Bool
  | .literal .. | .var .. => true
  | .assign _ value _ => value.canonical
  | .unary _ operand _ => operand.bindsLike .unary && operand.canonical
  | .binary op left right _ =>
    left.bindsLike op.precedence && right.bindsLike op.precedence.next && left.canonical && right.canonical
  | .logical op left right _ =>
    left.bindsLike op.precedence && right.bindsLike op.precedence.next && left.canonical && right.canonical
  | .grouping inner _ => inner.canonical
  | .call callee arguments _ =>
    callee.bindsLike .call && arguments.length ≤ Parser.maxArguments && callee.canonical &&
      Expr.canonicalAll arguments

def Expr.canonicalAll : List Expr → Bool
  | [] => true
  | e :: rest => e.canonical && Expr.canonicalAll rest

end

/-- Whether a statement is a declaration, which cannot be a branch or the body of a loop. -/
def Stmt.isDeclaration : Stmt → Bool
  | .var .. | .function .. => true
  | _ => false

/-- Whether a statement ends with an `if` without `else`, so that an `else` behind it would belong to it. -/
def Stmt.endsOpen : Stmt → Bool
  | .ifElse _ _ none _ => true
  | .ifElse _ _ (some s) _ => s.endsOpen
  | .whileLoop _ body _ => body.endsOpen
  | _ => false

mutual

/-- Whether the grammar gives the statement. -/
def Stmt.canonical : Stmt → Bool
  | .expression e _ | .print e _ => e.canonical
  | .var _ initializer _ => initializer.all Expr.canonical
  | .block body _ => Stmt.canonicalAll body
  | .ifElse condition thenBranch elseBranch _ =>
    condition.canonical && !thenBranch.isDeclaration && thenBranch.canonical &&
      !(elseBranch.isSome && thenBranch.endsOpen) && Stmt.canonicalElse elseBranch
  | .whileLoop condition body _ => condition.canonical && !body.isDeclaration && body.canonical
  | .function _ parameters body _ => parameters.length ≤ Parser.maxArguments && Stmt.canonicalAll body
  | .returns value _ => value.all Expr.canonical

def Stmt.canonicalElse : Option Stmt → Bool
  | none => true
  | some s => !s.isDeclaration && s.canonical

def Stmt.canonicalAll : List Stmt → Bool
  | [] => true
  | s :: rest => s.canonical && Stmt.canonicalAll rest

end

/-- The grammar gives the program. -/
def Program.Canonical (p : Program) : Prop :=
  Stmt.canonicalAll p = true

instance (p : Program) : Decidable p.Canonical :=
  inferInstanceAs (Decidable (_ = true))

/-! ## Trees without spans -/

mutual

/-- The expression without its spans. -/
def Expr.bare : Expr → Expr
  | .literal v _ => .literal v {}
  | .var name _ => .var name {}
  | .assign name value _ => .assign name value.bare {}
  | .unary op operand _ => .unary op operand.bare {}
  | .binary op left right _ => .binary op left.bare right.bare {}
  | .logical op left right _ => .logical op left.bare right.bare {}
  | .grouping inner _ => .grouping inner.bare {}
  | .call callee arguments _ => .call callee.bare (Expr.bareAll arguments) {}

def Expr.bareAll : List Expr → List Expr
  | [] => []
  | e :: rest => e.bare :: Expr.bareAll rest

end

mutual

def Stmt.bare : Stmt → Stmt
  | .expression e _ => .expression e.bare {}
  | .print e _ => .print e.bare {}
  | .var name initializer _ => .var name (initializer.map Expr.bare) {}
  | .block body _ => .block (Stmt.bareAll body) {}
  | .ifElse condition thenBranch elseBranch _ =>
    .ifElse condition.bare thenBranch.bare (Stmt.bareElse elseBranch) {}
  | .whileLoop condition body _ => .whileLoop condition.bare body.bare {}
  | .function name parameters body _ => .function name parameters (Stmt.bareAll body) {}
  | .returns value _ => .returns (value.map Expr.bare) {}

def Stmt.bareElse : Option Stmt → Option Stmt
  | none => none
  | some s => some s.bare

def Stmt.bareAll : List Stmt → List Stmt
  | [] => []
  | s :: rest => s.bare :: Stmt.bareAll rest

end

def Program.bare (p : Program) : Program :=
  Stmt.bareAll p

end Lox
