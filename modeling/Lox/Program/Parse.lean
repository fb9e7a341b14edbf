import Lox.Program
import Lox.Program.Precedence
import Lox.Program.Stream

/-!
# Reading programs

The grammar, as functions that read a phrase off a stream of tokens. Expressions are read by binding
strength: `Parser.expression` reads an operand and then takes it into larger expressions as long as
what follows binds tightly enough.

An error ends the declaration it is met in. `TokenStream.resume` moves from there to where the next
statement seems to begin.

Phrases nest, and the functions that read them count down a first argument. A count that runs out is
`Parser.Stop.exhausted`, which no count does that is high enough for the tokens left.
-/

namespace Lox

def Reserved.unaryOp? : Reserved → Option UnaryOp
  | .minus => some .negate
  | .bang => some .not
  | _ => none

def Reserved.constant? : Reserved → Option Value
  | .nil => some .nil
  | .true => some (.boolean .true)
  | .false => some (.boolean .false)
  | _ => none

namespace Parser

/-- A function has at most this many parameters, and a call as many arguments. -/
def maxArguments : Nat := 255

/-- Fails at the next token because a list has got too long. -/
def refuseMore {α : Type} (what : String) : Parser α := do
  fail (.general s!"Can't have more than {maxArguments} {what}" (← peek).span)

mutual

/-- Reads an expression all of whose parts bind at least as tightly as `least`. -/
def expression : Nat → Precedence → Parser Expr
  | 0, _ => throw .exhausted
  | n + 1, least => do
    let left ← operand n
    continuations n least left

/-- Reads what an expression begins with: a constant, a name, an expression in parentheses, or an
operator with its operand. -/
def operand : Nat → Parser Expr
  | 0 => throw .exhausted
  | n + 1 => do
    let t ← take
    match t.kind with
    | .number x => return .literal (.number x) t.span
    | .string s => return .literal (.string s) t.span
    | .identifier name => return .var name t.span
    | .reserved .leftParen =>
      let inner ← expression n .assignment
      let close ← expect .rightParen
      return .grouping inner (t.span.merge close.span)
    | .reserved .this => fail (.unsupportedClass t.span)
    | .reserved .super => fail (.unsupportedClass t.span)
    | .reserved r =>
      match r.constant?, r.unaryOp? with
      | some v, _ => return .literal v t.span
      | none, some op =>
        let operand ← expression n .unary
        return .unary op operand (t.span.merge operand.span)
      | none, none => fail (.unexpected "expression" r.text t.span)
    | .eof => fail (.unexpected "expression" t.kind.text t.span)

/-- Takes `left` into larger expressions while what follows binds at least as tightly as `least`. -/
def continuations : Nat → Precedence → Expr → Parser Expr
  | 0, _, _ => throw .exhausted
  | n + 1, least, left => do
    match (← peek).kind.continuation? with
    | none => return left
    | some k =>
      if k.precedence.rank < least.rank then
        return left
      else
        let e ← continuation n k left
        continuations n least e

/-- Takes `left` into the expression that the next token continues it to. Binary operators associate
to the left, assignment to the right. -/
def continuation : Nat → Continuation → Expr → Parser Expr
  | 0, _, _ => throw .exhausted
  | n + 1, k, left => do
    let t ← take
    match k with
    | .assign =>
      let value ← expression n .assignment
      match left with
      | .var name s => return .assign name value (s.merge value.span)
      | _ => fail (.invalidTarget t.span)
    | .logical op =>
      let right ← expression n op.precedence.next
      return .logical op left right (left.span.merge right.span)
    | .binary op =>
      let right ← expression n op.precedence.next
      return .binary op left right (left.span.merge right.span)
    | .call =>
      let given ← if ← isNext .rightParen then pure [] else arguments n #[]
      let close ← expect .rightParen
      return .call left given (left.span.merge close.span)
    | .member => fail (.unsupportedClass t.span)

/-- Reads the arguments of a call, one at least, behind those already read. -/
def arguments : Nat → Array Expr → Parser (List Expr)
  | 0, _ => throw .exhausted
  | n + 1, given => do
    if maxArguments ≤ given.size then
      refuseMore "arguments"
    else
      let e ← expression n .assignment
      if ← accept .comma then
        arguments n (given.push e)
      else
        return (given.push e).toList

end

def optional (n : Nat) (r : Reserved) : Parser (Option Expr) := do
  if ← isNext r then return none else some <$> expression n .assignment

def expressionStatement (n : Nat) : Parser Stmt := do
  let e ← expression n .assignment
  let close ← expect .semicolon
  return .expression e (e.span.merge close.span)

def varDeclaration (n : Nat) : Parser Stmt := do
  let start ← take
  let name ← identifier
  let initializer ← if ← accept .equal then some <$> expression n .assignment else pure none
  let close ← expect .semicolon
  return .var name initializer (start.span.merge close.span)

/-- Reads the parameters of a function, one at least, behind those already read. -/
def parameters : Nat → Array String → Parser (List String)
  | 0, _ => throw .exhausted
  | n + 1, names => do
    if maxArguments ≤ names.size then
      refuseMore "parameters"
    else
      let name ← identifier
      if ← accept .comma then
        parameters n (names.push name)
      else
        return (names.push name).toList

def condition (n : Nat) : Parser Expr := do
  let _ ← expect .leftParen
  let e ← expression n .assignment
  let _ ← expect .rightParen
  return e

/-- Reads what a `for` loop begins with, up to and including the first semicolon. -/
def forInitializer (n : Nat) : Parser (Option Stmt) := do
  if ← accept .semicolon then
    return none
  else if ← isNext .var then
    some <$> varDeclaration n
  else
    some <$> expressionStatement n

/-- Moves over the body of a class, up to the brace that closes it. -/
def skipClassBody (last : Token) (depth : Nat) : List Token → Token × List Token
  | [] => (last, [])
  | t :: rest =>
    if t.kind.is .leftBrace then skipClassBody t (depth + 1) rest
    else if t.kind.is .rightBrace then
      if depth ≤ 1 then (last, t :: rest) else skipClassBody t (depth - 1) rest
    else skipClassBody t depth rest

def skipToBrace (last : Token) : List Token → Token × List Token
  | [] => (last, [])
  | t :: rest => if t.kind.is .leftBrace then (last, t :: rest) else skipToBrace t rest

/-- Reads a class only to refuse it. Its closing brace is left for `TokenStream.resume`. -/
def classDeclaration : Parser Stmt := do
  let start ← take
  modify fun s =>
    let (last, rest) := skipToBrace s.last s.rest
    let (last, rest) := skipClassBody last 0 rest
    { s with last, rest }
  fail (.unsupportedClass start.span)

mutual

def declaration : Nat → Parser Stmt
  | 0 => throw .exhausted
  | n + 1 => do
    match (← peek).kind with
    | .reserved .fun =>
      let start ← take
      let name ← identifier
      let _ ← expect .leftParen
      let names ← if ← isNext .rightParen then pure [] else parameters n #[]
      let _ ← expect .rightParen
      let body ← block n
      return .function name names body (← spanSince start.span)
    | .reserved .var => varDeclaration n
    | .reserved .class => classDeclaration
    | _ => statement n

def statement : Nat → Parser Stmt
  | 0 => throw .exhausted
  | n + 1 => do
    match (← peek).kind with
    | .reserved .print =>
      let start ← take
      let e ← expression n .assignment
      let close ← expect .semicolon
      return .print e (start.span.merge close.span)
    | .reserved .if =>
      let start ← take
      let test ← condition n
      let thenBranch ← statement n
      let elseBranch ← if ← accept .else then some <$> statement n else pure none
      return .ifElse test thenBranch elseBranch (← spanSince start.span)
    | .reserved .while =>
      let start ← take
      let test ← condition n
      let body ← statement n
      return .whileLoop test body (← spanSince start.span)
    | .reserved .for =>
      let start ← take
      let _ ← expect .leftParen
      let initializer ← forInitializer n
      let test ← optional n .semicolon
      let _ ← expect .semicolon
      let step ← optional n .rightParen
      let _ ← expect .rightParen
      let body ← statement n
      return .forLoop initializer test step body (← spanSince start.span)
    | .reserved .return =>
      let start ← take
      let value ← optional n .semicolon
      let close ← expect .semicolon
      return .returns value (start.span.merge close.span)
    | .reserved .leftBrace =>
      let start ← peek
      let body ← block n
      return .block body (← spanSince start.span)
    | _ => expressionStatement n

def block : Nat → Parser (List Stmt)
  | 0 => throw .exhausted
  | n + 1 => do
    let _ ← expect .leftBrace
    let body ← declarations n #[]
    let _ ← expect .rightBrace
    return body

/-- Reads declarations up to a closing brace or the end, behind those already read. -/
def declarations : Nat → Array Stmt → Parser (List Stmt)
  | 0, _ => throw .exhausted
  | n + 1, body => do
    let s ← get
    if s.starts .rightBrace || s.atEnd then
      return body.toList
    else
      let d ← declaration n
      declarations n (body.push d)

end

end Parser

namespace TokenStream

def startsStatement : TokenKind → Bool
  | .reserved r =>
    r ∈ [.class, .fun, .var, .for, .if, .while, .print, .return]
  | _ => false

/-- Moves to the first token behind a semicolon or at the beginning of a statement. -/
def skipToStatement (last : Token) : List Token → Token × List Token
  | [] => (last, [])
  | t :: rest =>
    if last.kind.is .semicolon || startsStatement t.kind then (last, t :: rest)
    else skipToStatement t rest

/-- Moves from an error to where the next statement seems to begin, at least one token on. -/
def resume (s : TokenStream) : TokenStream :=
  let s := s.tail
  let (last, rest) := skipToStatement s.last s.rest
  { s with last, rest }

end TokenStream

end Lox
