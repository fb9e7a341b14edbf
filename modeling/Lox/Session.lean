import Lox.Code.Compiled
import Lox.Code.Listing
import Lox.Machine
import Lox.Program.Read

/-!
# Sessions

A `Session` evaluates one source text after another on one machine, so that what one defines the next
can use. Every way in which that can fail is an `Error`.
-/

namespace Lox

/-- Why a source text could not be evaluated. -/
inductive Error where
  | lexical (e : LexicalError)
  /-- The errors of the program, one at least, in order. -/
  | grammar (es : List SyntaxError)
  | compile (e : CompileError)
  | runtime (e : RuntimeError)
  | fault (f : Fault)
  /-- A file or stream failed, for the reason given by the system. -/
  | io (reason : String)

namespace Error

def grammarMessage (es : List SyntaxError) : String :=
  "\n".intercalate (es.map (·.message))

def message : Error → String
  | lexical e => e.message
  | grammar es => grammarMessage es
  | compile e => e.message
  | runtime e => e.message
  | fault f => f.message
  | io reason => s!"IO error: {reason}"

def ofFailure : Failure → Error
  | .runtime e => runtime e
  | .fault f => fault f

end Error

def parse (source : String) : Except Error Program :=
  match scan source with
  | .error e => .error (.lexical e)
  | .ok tokens =>
    match Program.ofTokens tokens with
    | .error es => .error (.grammar es)
    | .ok p => .ok p

def compileText (source : String) : Except Error Compiled :=
  match parse source with
  | .error e => .error e
  | .ok p =>
    match compile p with
    | .error e => .error (.compile e)
    | .ok c => .ok c

/-- What an evaluation does besides running the program. -/
structure Options where
  /-- Show the listing and a line of dashes before the program runs. -/
  disassemble : Bool := false
  /-- Show the listing and do not run the program. -/
  compileOnly : Bool := false
deriving DecidableEq, Repr

/-- A machine with the options that it is used with. Listings go where the output of programs goes. -/
structure Session where
  machine : Machine := {}
  options : Options := {}

namespace Session

/-- Writes to the output, outside any program. -/
def onSink (act : EStateM SinkError Sink Unit) : EStateM Error Session Unit := fun s =>
  match act s.machine.sink with
  | .ok _ sink => .ok () { s with machine := { s.machine with sink } }
  | .error e sink => .error (.io e.reason) { s with machine := { s.machine with sink } }

/-- Shows the listing of a program as far as the options ask for it. -/
def showListing (p : Compiled) : EStateM Error Session Unit := do
  let options := (← get).options
  if options.disassemble || options.compileOnly then
    match Listing.ofCode p.code with
    | .error f => throw (.fault f)
    | .ok text => onSink (Sink.write text)
    onSink (if options.compileOnly then Sink.flush else Sink.write "---\n")

def load (p : Compiled) : EStateM Error Session Unit := fun s =>
  match Machine.load p.code p.spans s.machine with
  | .ok _ machine => .ok () { s with machine }
  | .error e machine => .error (.ofFailure e) { s with machine }

/-- Runs what is loaded, `fuel` instructions at most. -/
def run (fuel : Nat) (s : Session) : Progress Error Session :=
  match s.machine.run fuel with
  | .running machine => .running { s with machine }
  | .ended (.ok _ machine) => .ended (.ok () { s with machine })
  | .ended (.error e machine) => .ended (.error (.ofFailure e) { s with machine })

/-- Compiles a source text, shows its listing as far as the options ask for it, and runs it. -/
def eval (fuel : Nat) (source : String) (s : Session) : Progress Error Session :=
  match compileText source with
  | .error e => .ended (.error e s)
  | .ok p =>
    match showListing p s with
    | .error e s => .ended (.error e s)
    | .ok _ s =>
      if s.options.compileOnly then .ended (.ok () s)
      else
        match load p s with
        | .error e s => .ended (.error e s)
        | .ok _ s => s.run fuel

end Session

end Lox
