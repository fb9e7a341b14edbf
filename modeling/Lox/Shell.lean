import Lox.Session
import Lox.Shell.Log
import Lox.Shell.Style

/-!
# The shell

A `Shell` is a session with the two streams of a program run by hand: what programs print goes to
standard output, which is the sink of the session's machine; the log and the errors go to standard
error. The shell only collects them, and leaves it to its user to show them.
-/

namespace Lox

/-- The exit code of a program that failed. -/
def Error.exitCode : Error → Nat
  | lexical _ => 65
  | grammar _ => 65
  | compile _ => 65
  | runtime _ => 70
  | fault _ => 70
  | io _ => 74

def Error.report : Error → String
  | fault f => s!"Internal error: {f.message}"
  | e => e.message

structure Shell where
  session : Session := {}
  stderr : String := ""
  colour : Bool := false
  level : LogLevel := .warn

namespace Shell

def say (s : Shell) (text : String) : Shell :=
  let written := s.session.machine.sink.written ++ text.toUTF8
  let sink := { s.session.machine.sink with written }
  { s with session := { s.session with machine := { s.session.machine with sink } } }

def complain (s : Shell) (text : String) : Shell :=
  { s with stderr := s.stderr ++ Style.red.paint s.colour text ++ "\n" }

/-- Logs an event, if the level asks for it. -/
def log (s : Shell) (e : Event) : Shell :=
  if e.level.rank ≤ s.level.rank then { s with stderr := s.stderr ++ e.line } else s

def onSession {α : Type} (act : EStateM Error Session α) : EStateM Error Shell α := fun s =>
  match act s.session with
  | .ok a session => .ok a { s with session }
  | .error e session => .error e { s with session }

/-- Compiles a source text, shows its listing as far as the options ask for it, and loads it. Gives
whether there is something to run. -/
def prepare (source : String) : EStateM Error Shell Bool := do
  match compileText source with
  | .error e => throw e
  | .ok p =>
    modify (·.log (.compiled p.pool.count p.chunk.code.size p.code.size))
    onSession (Session.showListing p)
    if (← get).session.options.compileOnly then
      return false
    else
      onSession (Session.load p)
      modify fun s => s.log (.loadedConstants s.session.machine.constants.size)
      return true

/-- The instruction that is about to be executed. -/
def upcoming? (m : Machine) : Option Event :=
  match m.reader.peek?.bind Opcode.ofByte? with
  | some op => some (.instruction m.reader.offset op m.stack.length)
  | none => none

/-- Runs what is loaded, `fuel` instructions at most, and logs each of them. -/
def trace : Nat → Shell → Progress Error Shell
  | 0, s => .running s
  | fuel + 1, s =>
    let s := (upcoming? s.session.machine).elim s s.log
    match s.session.run 1 with
    | .running session => trace fuel { s with session }
    | .ended (.ok _ session) => .ended (.ok () { s with session })
    | .ended (.error e session) => .ended (.error e { s with session })

def runQuietly (fuel : Nat) (s : Shell) : Progress Error Shell :=
  match s.session.run fuel with
  | .running session => .running { s with session }
  | .ended (.ok _ session) => .ended (.ok () { s with session })
  | .ended (.error e session) => .ended (.error e { s with session })

def finish (s : Shell) : Shell :=
  s.log (.finished s.session.machine.stack.length s.session.machine.globals.size)

/-- Runs what is loaded, `fuel` instructions at most, and logs what the level asks for. -/
def run (fuel : Nat) (s : Shell) : Progress Error Shell :=
  match if s.level = .trace then s.trace fuel else s.runQuietly fuel with
  | .ended (.ok _ s) => .ended (.ok () s.finish)
  | p => p

def eval (fuel : Nat) (source : String) (s : Shell) : Progress Error Shell :=
  match prepare source s with
  | .error e s => .ended (.error e s)
  | .ok false s => .ended (.ok () s)
  | .ok true s => s.run fuel

/-- Reports how an evaluation ended, and gives the exit code. -/
def conclude : EStateM.Result Error Shell Unit → Nat × Shell
  | .ok _ s => (0, s)
  | .error e s => (e.exitCode, s.complain e.report)

end Shell

end Lox
