import Lox.Code.Opcode
import Lox.Text.Quoted

/-!
# The log

What the program tells about its own work. A `LogLevel` chooses how much of it is shown.
-/

namespace Lox

/-- How much is logged, from nothing to every instruction. -/
inductive LogLevel where
  | off | error | warn | info | debug | trace
deriving DecidableEq, Repr

namespace LogLevel

def rank : LogLevel → Nat
  | off => 0
  | error => 1
  | warn => 2
  | info => 3
  | debug => 4
  | trace => 5

def name : LogLevel → String
  | off => "off"
  | error => "error"
  | warn => "warn"
  | info => "info"
  | debug => "debug"
  | trace => "trace"

def ofName? (name : String) : Option LogLevel :=
  [off, error, warn, info, debug, trace].find? (·.name == name)

end LogLevel

/-- Something worth logging. -/
inductive Event where
  | readScript (path : String) (bytes : Nat)
  | loadedHistory (entries : Nat) (path : String)
  | compiled (constants code total : Nat)
  | loadedConstants (constants : Nat)
  /-- An instruction is about to be executed on a stack of this depth. -/
  | instruction (offset : Nat) (op : Opcode) (depth : Nat)
  | finished (stack globals : Nat)
deriving DecidableEq, Repr

namespace Event

/-- The level at which the event is shown. -/
def level : Event → LogLevel
  | instruction .. => .trace
  | _ => .debug

def text : Event → String
  | readScript path bytes => s!"read script path={quoted path} bytes={bytes}"
  | loadedHistory entries path => s!"loaded history entries={entries} path={path}"
  | compiled constants code total =>
    s!"compiled program constants={constants} code={code} total={total}"
  | loadedConstants constants => s!"loaded constant table constants={constants}"
  | instruction offset op depth => s!"offset={offset} op={quoted op.mnemonic} depth={depth}"
  | finished stack globals => s!"execution finished stack={stack} globals={globals}"

/-- The line of the log. -/
def line (e : Event) : String :=
  let level := if e.level = .trace then "TRACE" else "DEBUG"
  s!"{level} {e.text}\n"

end Event

end Lox
