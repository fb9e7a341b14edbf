import Lox.Number
import Lox.Span

/-!
# Tokens

The words of a program. `Reserved` lists the tokens with one fixed spelling, `TokenKind` adds those
that carry content, and a `Token` is a kind at a place.
-/

namespace Lox

/-- A token with one spelling: the sixteen keywords, then the operators and delimiters. -/
inductive Reserved where
  | and | «class» | «else» | false | «for» | «fun» | «if» | nil | or | print | «return» | super | this
  | true | var | «while»
  | plus | minus | star | slash | equal | equalEqual | bangEqual | less | lessEqual | greater
  | greaterEqual | bang
  | leftParen | rightParen | leftBrace | rightBrace | comma | dot | semicolon
deriving DecidableEq, Repr

namespace Reserved

def text : Reserved → String
  | and => "and"
  | «class» => "class"
  | «else» => "else"
  | false => "false"
  | «for» => "for"
  | «fun» => "fun"
  | «if» => "if"
  | nil => "nil"
  | or => "or"
  | print => "print"
  | «return» => "return"
  | super => "super"
  | this => "this"
  | true => "true"
  | var => "var"
  | «while» => "while"
  | plus => "+"
  | minus => "-"
  | star => "*"
  | slash => "/"
  | equal => "="
  | equalEqual => "=="
  | bangEqual => "!="
  | less => "<"
  | lessEqual => "<="
  | greater => ">"
  | greaterEqual => ">="
  | bang => "!"
  | leftParen => "("
  | rightParen => ")"
  | leftBrace => "\x7b"
  | rightBrace => "\x7d"
  | comma => ","
  | dot => "."
  | semicolon => ";"

/-- The words that no identifier may be. -/
def keywords : List Reserved :=
  [and, «class», «else», false, «for», «fun», «if», nil, or, print, «return», super, this, true, var,
    «while»]

/-- The keyword that is spelt so. -/
def ofWord? (word : String) : Option Reserved :=
  keywords.find? (·.text == word)

end Reserved

inductive TokenKind where
  | number (value : Double)
  | string (content : String)
  | identifier (name : String)
  | reserved (r : Reserved)
  | eof
deriving DecidableEq

namespace TokenKind

/-- The token as messages show it. For all but numbers and the end this is how a program spells it. -/
def text : TokenKind → String
  | number x => Number.text x
  | string s => s!"\"{s}\""
  | identifier name => name
  | reserved r => r.text
  | eof => "end of input"

def isEof : TokenKind → Bool
  | eof => true
  | _ => false

def is (r : Reserved) : TokenKind → Bool
  | reserved s => r = s
  | _ => false

end TokenKind

structure Token where
  kind : TokenKind
  span : Span := {}
deriving DecidableEq

/-- The end of a program that stops at the given place. -/
def Token.eofAt (offset line column : Nat) : Token :=
  { kind := .eof, span := { start := offset, stop := offset, line, column } }

end Lox
