import Lox.Shell.Dialogue

/-!
# Running the program

`Surroundings.run` is the whole program as a function: from its arguments, its input and the files it
reads to its exit code, its two streams and the history it leaves.
-/

namespace Lox

/-- Why a file could not be read. -/
inductive FileError where
  | missing
  | directory
  | notDirectory
  | other (reason : String)
deriving DecidableEq, Repr

/-- The reason in the words of the system. -/
def FileError.reason : FileError → String
  | missing => "No such file or directory (os error 2)"
  | directory => "Is a directory (os error 21)"
  | notDirectory => "Not a directory (os error 20)"
  | other reason => reason

def notText : String := "stream did not contain valid UTF-8"

/-- A directory without subdirectories: files by name. -/
structure Folder where
  files : List (String × ByteArray)

/-- Reads the file at a path that starts in the folder. Of what is outside nothing is known but that
the directories above exist. -/
def Folder.read (f : Folder) (path : String) : Except FileError ByteArray :=
  let parts := (path.splitOn "/").filter (fun part => part != "" && part != ".")
  match parts with
  | [] => .error (if path.isEmpty then .missing else .directory)
  | name :: below =>
    if parts.all (· == "..") then .error .directory
    else if path.startsWith "/" then .error .missing
    else
      match f.files.lookup name with
      | none => .error .missing
      | some content =>
        if below.isEmpty && (path.splitOn "/").getLast? == some name then .ok content
        else .error .notDirectory

/-- What the program finds around it. -/
structure Surroundings where
  readScript : String → Except FileError ByteArray
  input : ByteArray := .empty
  /-- The history of earlier dialogues, if there is any. -/
  history : Option ByteArray := none
  historyPath : String := ".lox_history"
  colour : Bool := false
  /-- The level of the log, if it is chosen from outside. -/
  level : Option LogLevel := none

structure Report where
  exitCode : Nat := 0
  stdout : ByteArray := .empty
  stderr : String := ""
  history : Option String := none

def Report.ofShell (exitCode : Nat) (s : Shell) : Report :=
  { exitCode, stdout := s.session.machine.sink.written, stderr := s.stderr }

/-- The lines of an input, without the newlines that end them. -/
def inputLines (line : List UInt8) : List UInt8 → List (List UInt8)
  | [] => if line.isEmpty then [] else [line.reverse]
  | b :: rest => if b = 10 then line.reverse :: inputLines [] rest else inputLines (b :: line) rest

namespace Surroundings

def shell (w : Surroundings) (i : Invocation) : Shell :=
  { session := { options := i.options }
    colour := w.colour
    level := w.level.getD (if i.verbose then .debug else .warn) }

/-- Evaluates a source text and reports how it went. -/
def runCode (fuel : Nat) (s : Shell) (source : String) : Option Report :=
  match s.eval fuel source with
  | .running _ => none
  | .ended r =>
    let (exitCode, s) := Shell.conclude r
    some (.ofShell exitCode s)

def refuseScript (s : Shell) (reason : String) : Report :=
  let (exitCode, s) := Shell.conclude (.error (.io reason) s)
  .ofShell exitCode s

def runScript (fuel : Nat) (w : Surroundings) (s : Shell) (path : String) : Option Report :=
  match w.readScript path with
  | .error e => some (refuseScript s e.reason)
  | .ok content =>
    match String.fromUTF8? content with
    | none => some (refuseScript s notText)
    | some source => runCode fuel (s.log (.readScript path content.size)) source

/-- Reads lines to the end of the input, to the first that is no text, or until one ends the
dialogue. -/
def converse (fuel : Nat) (d : Dialogue) : List (List UInt8) → Option Dialogue
  | [] => some (d.say d.prompt).close
  | line :: rest =>
    let d := d.say d.prompt
    match String.fromUTF8? (ByteArray.mk line.toArray) with
    | none => some (d.breakOff notText)
    | some line =>
      match d.feed fuel line with
      | none => none
      | some (false, d) => some d
      | some (true, d) => converse fuel d rest

def runDialogue (fuel : Nat) (w : Surroundings) (s : Shell) : Option Report :=
  let d := Dialogue.start s (w.history.bind String.fromUTF8?) w.historyPath
  (converse fuel d (inputLines [] w.input.data.toList)).map fun d =>
    { Report.ofShell 0 d.shell with history := some d.saved }

/-- Runs the program. Each evaluation may take `fuel` instructions; if one takes more, there is no
report. -/
def run (fuel : Nat) (w : Surroundings) (args : List String) : Option Report :=
  match Invocation.ofArguments args with
  | .error usage => some { exitCode := usage.exitCode, stderr := usage.text }
  | .ok i =>
    let s := w.shell i
    match i.task with
    | .dialogue => w.runDialogue fuel s
    | .script path => w.runScript fuel s path
    | .code source => runCode fuel s source

end Surroundings

end Lox
