import Lox.Text.Alphabetic
import Lox.Text.Numeric
import Lox.Token

/-!
# Reading tokens

A `Cursor` stands at a place in a source text. `Cursor.token` skips white space and comments and
takes the longest token there; after an error reading may go on behind what caused it.
`scan` reads a whole text and stops at the first error.
-/

namespace Lox

/-- Why there is no token at a place. -/
inductive LexicalError where
  | unexpectedChar (c : Char) (span : Span)
  | unterminatedString (span : Span)
  | invalidNumber (digits : String) (span : Span)
deriving DecidableEq

namespace LexicalError

def span : LexicalError → Span
  | unexpectedChar _ s => s
  | unterminatedString s => s
  | invalidNumber _ s => s

/-- What is wrong, without the place. -/
def reason : LexicalError → String
  | unexpectedChar c _ => s!"Unexpected character '{c}'"
  | unterminatedString _ => "Unterminated string"
  | invalidNumber digits _ => s!"Invalid number '{digits}'"

def message (e : LexicalError) : String :=
  e.span.report e.reason

end LexicalError

/-- A place in a source text: the bytes before it, and its line and column, which count from one. -/
structure Place where
  offset : Nat := 0
  line : Nat := 1
  column : Nat := 1
deriving DecidableEq, Repr

namespace Place

def next (p : Place) (c : Char) : Place :=
  if c = '\n' then { offset := p.offset + c.utf8Size, line := p.line + 1, column := 1 }
  else { offset := p.offset + c.utf8Size, line := p.line, column := p.column + 1 }

/-- The place behind a row of characters. -/
def after (p : Place) (cs : List Char) : Place :=
  cs.foldl next p

def spanTo (start stop : Place) : Span :=
  { start := start.offset, stop := stop.offset, line := start.line, column := start.column }

end Place

structure Cursor where
  place : Place := {}
  rest : List Char

namespace Cursor

def ofText (source : String) : Cursor :=
  { rest := source.toList }

def advance (k : Cursor) (n : Nat) : Cursor :=
  { place := k.place.after (k.rest.take n), rest := k.rest.drop n }

/-- The characters up to the first that fails the test, and the cursor behind them. -/
def takeWhile (k : Cursor) (test : Char → Bool) : List Char × Cursor :=
  let (taken, rest) := k.rest.span test
  (taken, { place := k.place.after taken, rest })

def isSeparator (c : Char) : Bool :=
  c = ' ' || c = '\t' || c = '\r' || c = '\n'

/-- Moves over separators and comments. A comment runs from two slashes to the end of the line. -/
def skipFrom (comment : Bool) (p : Place) : List Char → Cursor
  | [] => { place := p, rest := [] }
  | c :: cs =>
    if comment then skipFrom (c != '\n') (p.next c) cs
    else if isSeparator c then skipFrom false (p.next c) cs
    else if c = '/' && cs.head? == some '/' then skipFrom true (p.next c) cs
    else { place := p, rest := c :: cs }

def skip (k : Cursor) : Cursor :=
  skipFrom false k.place k.rest

/-- The operator or delimiter that begins with `c`, given the character behind it. Where one with two
characters fits, it is taken. -/
def symbol? (c : Char) (next : Option Char) : Option Reserved :=
  let withEqual (long short : Reserved) := some (if next == some '=' then long else short)
  match c with
  | '(' => some .leftParen
  | ')' => some .rightParen
  | '\x7b' => some .leftBrace
  | '\x7d' => some .rightBrace
  | ',' => some .comma
  | '.' => some .dot
  | ';' => some .semicolon
  | '+' => some .plus
  | '-' => some .minus
  | '*' => some .star
  | '/' => some .slash
  | '=' => withEqual .equalEqual .equal
  | '!' => withEqual .bangEqual .bang
  | '<' => withEqual .lessEqual .less
  | '>' => withEqual .greaterEqual .greater
  | _ => none

def startsWord (c : Char) : Bool :=
  isLetter c || c = '_'

def continuesWord (c : Char) : Bool :=
  isLetter c || isNumeral c || c = '_'

def wordKind (word : String) : TokenKind :=
  match Reserved.ofWord? word with
  | some r => .reserved r
  | none => .identifier word

/-- The digits of a number, before and after its decimal point. The point belongs to the number only
if a digit follows it. -/
def digits (k : Cursor) : List Char × List Char × Cursor :=
  let (whole, k) := k.takeWhile Char.isDigit
  match k.rest with
  | '.' :: c :: _ =>
    if c.isDigit then
      let (fraction, k) := (k.advance 1).takeWhile Char.isDigit
      (whole, fraction, k)
    else (whole, [], k)
  | _ => (whole, [], k)

/-- Reads the token at the cursor; the end of the text is a token too. -/
def lexeme : EStateM LexicalError Cursor Token := fun start =>
  match start.rest with
  | [] => .ok (Token.eofAt start.place.offset start.place.line start.place.column) start
  | c :: cs =>
    let give (kind : TokenKind) (k : Cursor) : EStateM.Result LexicalError Cursor Token :=
      .ok { kind, span := start.place.spanTo k.place } k
    match symbol? c cs.head? with
    | some r => give (.reserved r) (start.advance r.text.length)
    | none =>
      if c = '"' then
        let (content, k) := (start.advance 1).takeWhile (· != '"')
        match k.rest with
        | [] => .error (.unterminatedString (start.place.spanTo k.place)) k
        | _ :: _ => give (.string (String.ofList content)) (k.advance 1)
      else if c.isDigit then
        let (whole, fraction, k) := start.digits
        give (.number (Number.read whole fraction)) k
      else if startsWord c then
        let (word, k) := start.takeWhile continuesWord
        give (wordKind (String.ofList word)) k
      else
        let k := start.advance 1
        .error (.unexpectedChar c (start.place.spanTo k.place)) k

def token : EStateM LexicalError Cursor Token := fun k =>
  k.skip.lexeme

end Cursor

/-- Reads tokens up to and including the end of the text, behind those already read. There are
never more of them than characters left, and one for the end. -/
def scanFrom : Nat → Array Token → Cursor → Except LexicalError (Array Token)
  | 0, read, _ => .ok read
  | n + 1, read, k =>
    match k.token with
    | .error e _ => .error e
    | .ok t k => if t.kind.isEof then .ok (read.push t) else scanFrom n (read.push t) k

/-- The tokens of a text, the end last, or its first error. -/
def scan (source : String) : Except LexicalError (List Token) :=
  let k := Cursor.ofText source
  (scanFrom (k.rest.length + 1) #[] k).map Array.toList

end Lox
