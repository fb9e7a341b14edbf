import Lox.Text.Graphic

/-!
# Quoted texts

A text in double quotes, on one line and free of characters that cannot be seen.
-/

namespace Lox

/-- A character as a quoted text shows it: quotes and backslashes behind a backslash, the common
control characters by a letter, and any other that is not shown as itself by its code point. -/
def quotedChar (c : Char) : String :=
  match c with
  | '"' => "\\\""
  | '\\' => "\\\\"
  | '\n' => "\\n"
  | '\r' => "\\r"
  | '\t' => "\\t"
  | '\x00' => "\\0"
  | _ =>
    if isGraphic c then String.singleton c
    else "\\u\x7b" ++ String.ofList (Nat.toDigits 16 c.toNat) ++ "\x7d"

def quoted (s : String) : String :=
  "\"" ++ String.join (s.toList.map quotedChar) ++ "\""

end Lox
