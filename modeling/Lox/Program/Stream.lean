import Lox.Token.Scan

/-!
# Streams of tokens

A `TokenStream` is what is left to read of a program. A `Parser` takes tokens off its front; when it
fails, the stream stays where the error was met, so that reading can go on from there.
-/

namespace Lox

/-- Why a row of tokens is no program. -/
inductive SyntaxError where
  | unexpected (expected found : String) (span : Span)
  /-- Only a variable can be assigned to. -/
  | invalidTarget (span : Span)
  /-- The grammar reserves classes but has none. -/
  | unsupportedClass (span : Span)
  | general (text : String) (span : Span)
deriving DecidableEq

namespace SyntaxError

def span : SyntaxError → Span
  | unexpected _ _ s => s
  | invalidTarget s => s
  | unsupportedClass s => s
  | general _ s => s

/-- What is wrong, without the place. -/
def reason : SyntaxError → String
  | unexpected expected found _ => s!"Expected {expected}, found '{found}'"
  | invalidTarget _ => "Invalid assignment target"
  | unsupportedClass _ => "classes are not supported"
  | general text _ => text

def message (e : SyntaxError) : String :=
  e.span.report e.reason

def ofLexical (e : LexicalError) : SyntaxError :=
  general e.reason e.span

end SyntaxError

/-- The tokens of a program from some point on. -/
structure TokenStream where
  /-- The token taken last; at the start of the program, the one that stands there. -/
  last : Token
  /-- The tokens still to come, the end not among them. -/
  rest : List Token
  stop : Token

namespace TokenStream

/-- The stream of a list of tokens. The program ends at the first end token; if there is none, it ends
where the last token does. -/
def ofTokens (tokens : List Token) : TokenStream :=
  let rest := tokens.takeWhile (! ·.kind.isEof)
  let ending := (tokens.getLast?.map (·.span)).getD {}
  let stop := (tokens.find? (·.kind.isEof)).getD (Token.eofAt ending.stop ending.line ending.column)
  { last := rest.head?.getD stop, rest, stop }

def next (s : TokenStream) : Token :=
  s.rest.headD s.stop

def atEnd (s : TokenStream) : Bool :=
  s.rest.isEmpty

def starts (s : TokenStream) (r : Reserved) : Bool :=
  s.next.kind.is r

/-- The stream behind the next token. There is nothing behind the end. -/
def tail (s : TokenStream) : TokenStream :=
  match s.rest with
  | [] => s
  | t :: rest => { s with last := t, rest }

end TokenStream

/-- Why a parser stops before it has read what it should. -/
inductive Parser.Stop where
  | error (e : SyntaxError)
  /-- Its count has run out. -/
  | exhausted
deriving DecidableEq

/-- Reads something off the front of a stream. -/
abbrev Parser := EStateM Parser.Stop TokenStream

namespace Parser

def fail {α : Type} (e : SyntaxError) : Parser α :=
  throw (.error e)

def peek : Parser Token := do
  return (← get).next

/-- Takes the next token. The end can be taken any number of times. -/
def take : Parser Token := do
  let t ← peek
  modify TokenStream.tail
  return t

def isNext (r : Reserved) : Parser Bool := do
  return (← get).starts r

def accept (r : Reserved) : Parser Bool := do
  if ← isNext r then
    let _ ← take
    return true
  else
    return false

/-- Fails at the next token because something else had to stand there. -/
def refuse {α : Type} (expected : String) : Parser α := do
  let t ← peek
  fail (.unexpected expected t.kind.text t.span)

def expect (r : Reserved) : Parser Token := do
  if ← isNext r then take else refuse s!"'{r.text}'"

def identifier : Parser String := do
  match (← peek).kind with
  | .identifier name =>
    let _ ← take
    return name
  | _ => refuse "identifier"

/-- What `s` and the token taken last cover together. -/
def spanSince (s : Span) : Parser Span := do
  return s.merge (← get).last.span

end Parser

end Lox
