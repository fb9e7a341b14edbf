/-!
# Sinks

A `Sink` takes the output of programs. It may be bounded: then it keeps what fits and refuses the
rest.
-/

namespace Lox

inductive SinkError where
  | full
  | flush
deriving DecidableEq, Repr

def SinkError.reason : SinkError → String
  | full => "sink full"
  | flush => "flush failed"

/-- The output so far, and what more the sink accepts. -/
structure Sink where
  written : ByteArray := .empty
  /-- How many bytes the sink accepts in all; none if it accepts any number. -/
  limit : Option Nat := none
  flushFails : Bool := false

namespace Sink

def room (s : Sink) (n : Nat) : Nat :=
  match s.limit with
  | none => n
  | some limit => min n (limit - s.written.size)

/-- Writes text. If not all of it fits, the part that does is kept and the write fails. -/
def write (text : String) : EStateM SinkError Sink Unit := fun s =>
  let bytes := text.toUTF8
  let fitting := s.room bytes.size
  let s := { s with written := s.written ++ bytes.extract 0 fitting }
  if fitting < bytes.size then .error .full s else .ok () s

/-- Makes sure that all output has got to where it goes. -/
def flush : EStateM SinkError Sink Unit := fun s =>
  if s.flushFails then .error .flush s else .ok () s

end Sink

end Lox
