import Lox.Shell.Report

/-!
# The program

Reads what is around the program, runs it, and shows what it writes as it goes on.
-/

namespace Lox

/-- How many instructions are executed before output is shown. -/
def slice : Nat := 100000

def Shell.flush (s : Shell) : IO Shell := do
  let out ← IO.getStdout
  out.write s.session.machine.sink.written
  out.flush
  IO.eprint s.stderr
  let sink := { s.session.machine.sink with written := .empty }
  let session := { s.session with machine := { s.session.machine with sink } }
  return { s with session, stderr := "" }

/-- Runs to the end, slice by slice. -/
partial def Shell.drive : Progress Error Shell → IO (Nat × Shell)
  | .running s => do
    let s ← s.flush
    drive (s.run slice)
  | .ended r => do
    let (exitCode, s) := Shell.conclude r
    return (exitCode, ← s.flush)

def readFile (path : String) : IO (Except FileError ByteArray) := do
  try
    return .ok (← IO.FS.readBinFile path)
  catch e =>
    match e with
    | .noFileOrDirectory .. => return .error .missing
    | .inappropriateType .. => return .error .directory
    | e => return .error (.other (toString e))

/-- Reads lines and does what they ask for. -/
partial def Dialogue.drive (d : Dialogue) (input : IO.FS.Stream) : IO Dialogue := do
  let d := { d.say d.prompt with shell := ← (d.say d.prompt).shell.flush }
  let line ← (do return some (← input.getLine)) <|> pure none
  match line with
  | none =>
    let d := d.breakOff notText
    return { d with shell := ← d.shell.flush }
  | some "" =>
    let d := d.close
    return { d with shell := ← d.shell.flush }
  | some line =>
    match d.take line with
    | (.nothing, d) => d.drive input
    | (.leave, d) => return d
    | (.command line, d) => (d.obey line).drive input
    | (.evaluate source, d) =>
      let (_, shell) ← Shell.drive (d.shell.eval slice source)
      Dialogue.drive { d with shell } input

end Lox

open Lox

def main (args : List String) : IO UInt32 := do
  match Invocation.ofArguments args with
  | .error usage =>
    IO.eprint usage.text
    return UInt32.ofNat usage.exitCode
  | .ok i =>
    let home ← IO.getEnv "HOME"
    let historyPath := (home.map (· ++ "/")).getD "" ++ ".lox_history"
    let colour := (← IO.getEnv "CLICOLOR_FORCE").any (· != "0")
    let level := (← IO.getEnv "RUST_LOG").bind LogLevel.ofName?
    let w : Surroundings := { readScript := fun _ => .error .missing, historyPath, colour, level }
    let s := w.shell i
    match i.task with
    | .code source =>
      let (exitCode, _) ← Shell.drive (s.eval slice source)
      return UInt32.ofNat exitCode
    | .script path =>
      let content ← readFile path
      let source := match content with
        | .error e => Except.error e.reason
        | .ok bytes => (String.fromUTF8? bytes).elim (.error notText) .ok
      match source with
      | .error reason =>
        let (exitCode, _) ← Shell.drive (.ended (.error (.io reason) s))
        return UInt32.ofNat exitCode
      | .ok source =>
        let s := s.log (.readScript path source.utf8ByteSize)
        let (exitCode, _) ← Shell.drive (s.eval slice source)
        return UInt32.ofNat exitCode
    | .dialogue =>
      let history := (← readFile historyPath).toOption.bind String.fromUTF8?
      let d ← (Dialogue.start s history historyPath).drive (← IO.getStdin)
      (do IO.FS.writeFile historyPath d.saved) <|> pure ()
      return 0
