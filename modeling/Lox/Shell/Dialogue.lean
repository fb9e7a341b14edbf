import Lox.Shell
import Lox.Shell.Invocation
import Lox.Text.Blank

/-!
# Dialogues

A dialogue reads lines. A line that begins with a dot is a command; other lines are collected until
their braces are closed and then evaluated. `Dialogue.take` says what a line asks for,
`Dialogue.feed` does it.
-/

namespace Lox

/-- Opening less closing braces in the rest of a line, given whether it begins inside a string. Braces
in strings and comments do not count. -/
def braceBalanceFrom (inString : Bool) : List Char → Int32
  | [] => 0
  | c :: rest =>
    if inString then braceBalanceFrom (c != '"') rest
    else if c = '"' then braceBalanceFrom true rest
    else if c = '/' && rest.head? == some '/' then 0
    else if c = '\x7b' then braceBalanceFrom false rest + 1
    else if c = '\x7d' then braceBalanceFrom false rest - 1
    else braceBalanceFrom false rest

def braceBalance (line : String) : Int32 :=
  braceBalanceFrom false line.toList

structure Pending where
  text : String := ""
  balance : Int32 := 0
deriving DecidableEq, Repr

namespace Pending

def isEmpty (p : Pending) : Bool :=
  p.text.isEmpty

/-- Adds a line. Once no brace is open, all that was collected is given out and collecting starts
anew. -/
def push (p : Pending) (line : String) : Option String × Pending :=
  let text := if p.isEmpty then line else p.text ++ "\n" ++ line
  let balance := p.balance + braceBalance line
  if 0 < balance then (none, { text, balance }) else (some text, {})

end Pending

structure Dialogue where
  shell : Shell := {}
  history : Array String := #[]
  pending : Pending := {}

/-- What a line asks for. -/
inductive Request where
  | nothing
  | leave
  | command (line : String)
  | evaluate (source : String)
deriving DecidableEq, Repr

namespace Dialogue

def banner : String :=
  s!"Lox {version}\nType .help for available commands.\n\n"

def prompt (d : Dialogue) : String :=
  if d.pending.isEmpty then "> " else ". "

def collect (d : Dialogue) (line : String) : Request × Dialogue :=
  match d.pending.push line with
  | (some source, pending) => (.evaluate source, { d with pending })
  | (none, pending) => (.nothing, { d with pending })

/-- Notes a line and says what it asks for. White space at its end does not count. -/
def take (d : Dialogue) (line : String) : Request × Dialogue :=
  let line := dropBlankEnd line
  let noted := { d with history := d.history.push line }
  if d.pending.isEmpty then
    if isBlankText line then (.nothing, d)
    else if line = "exit" then (.leave, d)
    else if line.startsWith "." then (.command line, noted)
    else noted.collect line
  else noted.collect line

def help : String :=
  "\nLox REPL Commands\n\n" ++
  ".help     - Show this help message\n" ++
  ".vars     - List all global variables\n" ++
  ".history  - Show command history\n" ++
  ".clear    - Drop all globals\n" ++
  "exit      - Exit the REPL (or Ctrl+D)\n\n"

/-- The globals, one a line, by name. -/
def globalLines (d : Dialogue) : String :=
  let globals := d.shell.session.machine.globals.toList
  let colour := d.shell.colour
  let line := fun ((name, v) : String × Value) =>
    let type := Style.dimmed.paint colour s!"({v.type.name})"
    s!"  {Style.cyan.paint colour name} = {v.text} {type}\n"
  if globals.isEmpty then "No globals defined.\n" else String.join (globals.map line)

/-- A number set to the right of four columns. -/
def numbered (n : Nat) : String :=
  let digits := toString n
  String.ofList (List.replicate (4 - digits.length) ' ') ++ digits

def historyShown : Nat := 20

/-- The last lines of the history, numbered. -/
def recent (d : Dialogue) : String :=
  let lines := d.history.toList.zipIdx 1
  let shown := lines.drop (lines.length - historyShown)
  String.join (shown.map fun (line, n) => s!"{numbered n}  {line}\n")

/-- Drops all globals, and whatever else the machine holds but its output. -/
def clear (d : Dialogue) : Dialogue :=
  let session := { d.shell.session with machine := { sink := d.shell.session.machine.sink } }
  { d with shell := { d.shell with session } }

def say (d : Dialogue) (text : String) : Dialogue :=
  { d with shell := d.shell.say text }

def obey (d : Dialogue) (line : String) : Dialogue :=
  match line with
  | ".help" => d.say help
  | ".vars" => d.say d.globalLines
  | ".history" => d.say d.recent
  | ".clear" => d.clear.say "Globals cleared.\n"
  | _ => d.say s!"Unknown command: {line}. Type .help for available commands.\n"

/-- The lines of a file of lines. A line ends with a newline, which a carriage return may precede. -/
def linesOf (content : String) : List String :=
  let parts := content.splitOn "\n"
  let ended := parts.dropLast.map fun line =>
    if line.endsWith "\r" then (line.dropEnd 1).toString else line
  match parts.getLast? with
  | some rest => if rest.isEmpty then ended else ended ++ [rest]
  | none => ended

/-- Begins a dialogue with the lines of earlier ones. -/
def start (shell : Shell) (history : Option String) (path : String) : Dialogue :=
  let lines := (linesOf (history.getD "")).filter (!isBlankText ·)
  { shell := (shell.log (.loadedHistory lines.length path)).say banner, history := lines.toArray }

def saved (d : Dialogue) : String :=
  "\n".intercalate d.history.toList

/-- Does what a line asks for, with `fuel` instructions at most: gives whether the dialogue goes on, or
`none` if the evaluation is not over by then. -/
def feed (fuel : Nat) (line : String) (d : Dialogue) : Option (Bool × Dialogue) :=
  match d.take line with
  | (.nothing, d) => some (true, d)
  | (.leave, d) => some (false, d)
  | (.command line, d) => some (true, d.obey line)
  | (.evaluate source, d) =>
    match d.shell.eval fuel source with
    | .running _ => none
    | .ended r => some (true, { d with shell := (Shell.conclude r).2 })

def close (d : Dialogue) : Dialogue :=
  d.say "\n"

/-- The dialogue when its input cannot be read. -/
def breakOff (d : Dialogue) (reason : String) : Dialogue :=
  { d with shell := d.shell.complain s!"Error reading input: {reason}" }

end Dialogue

end Lox
