import Lox.Machine
import Lox.Program

/-!
# What programs mean

A direct evaluator for programs, which knows neither code nor stack.

* `World` : the global variables, the variables of the open blocks, and the output so far;
* `Expr.eval`, `Stmt.exec` : what expressions and statements do to the world; a `Halt` says why they
  do not come to their end;
* `Program.behaviour?` : how a program ends, with what globals and what output.

A loop is given a number of rounds; a program that runs out of them is `exhausted` and has no behaviour
yet. Calls, functions and returns stop at once with a trap.
-/

namespace Lox

/-- The variables of the open blocks with their values, the innermost block and in it the newest
variable first. -/
abbrev Environment := List (List (String × Value))

def Environment.rebind (name : String) (v : Value) : List (String × Value) → Option (List (String × Value))
  | [] => none
  | (n, old) :: older =>
    if n = name then some ((n, v) :: older) else (rebind name v older).map ((n, old) :: ·)

/-- Gives the innermost variable of a name another value, if there is one. -/
def Environment.assign? (name : String) (v : Value) : Environment → Option Environment
  | [] => none
  | block :: outer =>
    match rebind name v block with
    | some block => some (block :: outer)
    | none => (assign? name v outer).map (block :: ·)

/-- What a program works on. -/
structure World where
  globals : Globals := {}
  blocks : Environment := []
  output : ByteArray := .empty

/-- Why an evaluation does not come to its end. -/
inductive Halt where
  | error (e : RuntimeError)
  | trap
  /-- A loop has had as many rounds as it was given. -/
  | exhausted

/-- Something that a program does. When it halts, what was done up to there stays done. -/
abbrev Evaluation := EStateM Halt World

namespace Evaluation

/-- The value of a variable: of the innermost of its name, or else of the global. -/
def read (name : String) (span : Span) : Evaluation Value := do
  let w ← get
  match w.blocks.flatten.lookup name with
  | some v => return v
  | none =>
    match w.globals[name]? with
    | some v => return v
    | none => throw (.error (.undefinedGlobal name span))

def assign (name : String) (v : Value) (span : Span) : Evaluation Unit := do
  let w ← get
  match w.blocks.assign? name v with
  | some blocks => set { w with blocks }
  | none =>
    if w.globals.contains name then set { w with globals := w.globals.insert name v }
    else throw (.error (.undefinedGlobal name span))

/-- Declares a variable of the innermost block, or a global outside all blocks. -/
def declare (name : String) (v : Value) : Evaluation Unit :=
  modify fun w =>
    match w.blocks with
    | [] => { w with globals := w.globals.insert name v }
    | block :: outer => { w with blocks := ((name, v) :: block) :: outer }

def openBlock : Evaluation Unit :=
  modify fun w => { w with blocks := [] :: w.blocks }

def closeBlock : Evaluation Unit :=
  modify fun w => { w with blocks := w.blocks.tail }

def printLine (v : Value) : Evaluation Unit :=
  modify fun w => { w with output := w.output ++ (v.text ++ "\n").toUTF8 }

def binary (op : BinaryOp) (a b : Value) (span : Span) : Evaluation Value :=
  match op.apply a b with
  | .ok v => return v
  | .error .divisionByZero => throw (.error (.divisionByZero span))
  | .error .unsupported => throw (.error (.unsupportedBinary op a.type b.type span))

def unary (op : UnaryOp) (v : Value) (span : Span) : Evaluation Value :=
  match op.apply v with
  | .ok r => return r
  | .error _ => throw (.error (.unsupportedUnary op v.type span))

/-- Repeats as long as a condition holds, `n` rounds at most. -/
def loop : Nat → Evaluation Value → Evaluation Unit → Evaluation Unit
  | 0, _, _ => throw .exhausted
  | n + 1, test, body => do
    if (← test).truthy then
      body
      loop n test body

end Evaluation

/-- Whether a left operand decides the value of a logical operator. -/
def LogicalOp.decides : LogicalOp → Value → Bool
  | .and, v => !v.truthy
  | .or, v => v.truthy

def Expr.eval : Expr → Evaluation Value
  | .literal v _ => return v
  | .var name s => Evaluation.read name s
  | .assign name value s => do
    let v ← value.eval
    Evaluation.assign name v s
    return v
  | .unary op operand s => do
    let v ← operand.eval
    Evaluation.unary op v s
  | .binary op left right s => do
    let a ← left.eval
    let b ← right.eval
    Evaluation.binary op a b s
  | .logical op left right _ => do
    let a ← left.eval
    if op.decides a then return a else right.eval
  | .grouping inner _ => inner.eval
  | .call _ _ _ => throw .trap

def Expr.evalInitial : Option Expr → Evaluation Value
  | none => return .nil
  | some e => e.eval

open Evaluation in
mutual

/-- Executes a statement, each of its loops with `rounds` rounds at most. -/
def Stmt.exec (rounds : Nat) : Stmt → Evaluation Unit
  | .expression e _ => do
    let _ ← e.eval
  | .print e _ => do
    let v ← e.eval
    printLine v
  | .var name value _ => do
    let v ← Expr.evalInitial value
    declare name v
  | .block body _ => do
    openBlock
    Stmt.execAll rounds body
    closeBlock
  | .ifElse condition thenBranch elseBranch _ => do
    if (← condition.eval).truthy then thenBranch.exec rounds else Stmt.execElse rounds elseBranch
  | .whileLoop condition body _ => loop rounds condition.eval (body.exec rounds)
  | .function _ _ _ _ => throw .trap
  | .returns _ _ => throw .trap

def Stmt.execElse (rounds : Nat) : Option Stmt → Evaluation Unit
  | none => return
  | some s => s.exec rounds

def Stmt.execAll (rounds : Nat) : List Stmt → Evaluation Unit
  | [] => return
  | s :: rest => do
    s.exec rounds
    Stmt.execAll rounds rest

end

inductive Outcome where
  | success
  | error (e : RuntimeError)
  | trap

structure Behaviour where
  outcome : Outcome
  globals : Globals
  output : ByteArray

/-- The behaviour of a program started with the given globals, if none of its loops needs more than
`rounds` rounds. -/
def Program.behaviour? (p : Program) (rounds : Nat) (globals : Globals) : Option Behaviour :=
  match Stmt.execAll rounds p { globals } with
  | .ok _ w => some ⟨.success, w.globals, w.output⟩
  | .error (.error e) w => some ⟨.error e, w.globals, w.output⟩
  | .error .trap w => some ⟨.trap, w.globals, w.output⟩
  | .error .exhausted _ => none

end Lox
