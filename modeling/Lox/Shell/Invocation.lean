import Lox.Session

/-!
# Command lines

What the arguments of the program ask for, and the text that explains them.
-/

namespace Lox

/-- What to evaluate. -/
inductive Task where
  | dialogue
  | script (path : String)
  | code (source : String)
deriving DecidableEq, Repr

/-- What a command line asks for. -/
structure Invocation where
  task : Task := .dialogue
  options : Options := {}
  verbose : Bool := false
deriving DecidableEq, Repr

/-- Why a command line is answered with the usage text. -/
inductive Usage where
  | help
  | wrong (reason : String)
deriving DecidableEq, Repr

def version : String := "0.1.0"

namespace Usage

def explanation : String :=
  s!"Lox {version} - bytecode compiler and VM\n" ++
  "\n" ++
  "Usage: lox [options] [script.lox]\n" ++
  "       lox [options] -e <code>\n" ++
  "\n" ++
  "Options:\n" ++
  "  -d, --disassemble  Print the bytecode listing and --- before running\n" ++
  "  --compile-only     Print the bytecode listing without running\n" ++
  "  -v, --verbose      Log at debug level (RUST_LOG overrides)\n" ++
  "  -h, --help         Show this help message\n" ++
  "\n" ++
  "Examples:\n" ++
  "  lox                       Start interactive REPL\n" ++
  "  lox script.lox            Run a script file\n" ++
  "  lox -d script.lox         Show bytecode, then run\n" ++
  "  lox -e 'print 1 + 2;'     Evaluate code directly\n"

def text : Usage → String
  | help => explanation
  | wrong reason => reason ++ "\n" ++ explanation

def exitCode : Usage → Nat
  | help => 0
  | wrong _ => 64

end Usage

namespace Invocation

/-- Adds what the arguments ask for. The first that is wrong decides. -/
def addArguments (i : Invocation) : List String → Except Usage Invocation
  | [] => .ok i
  | "-d" :: rest | "--disassemble" :: rest =>
    { i with options := { i.options with disassemble := true } }.addArguments rest
  | "--compile-only" :: rest =>
    { i with options := { i.options with compileOnly := true } }.addArguments rest
  | "-v" :: rest | "--verbose" :: rest => { i with verbose := true }.addArguments rest
  | "-h" :: _ | "--help" :: _ => .error .help
  | ["-e"] => .error (.wrong "-e requires a code argument")
  | "-e" :: source :: rest =>
    if i.task = .dialogue then { i with task := .code source }.addArguments rest
    else .error (.wrong "Only one script or -e may be given")
  | arg :: rest =>
    if arg.startsWith "-" then .error (.wrong s!"Unknown option: {arg}")
    else if i.task = .dialogue then { i with task := .script arg }.addArguments rest
    else .error (.wrong s!"Unexpected argument: {arg}")

def ofArguments (args : List String) : Except Usage Invocation :=
  addArguments {} args

end Invocation

end Lox
