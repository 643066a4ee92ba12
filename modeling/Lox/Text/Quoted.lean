import Lox.Text.Unprintable

/-!
# Quoted text

A text between double quotes, with quotes, backslashes and line breaks escaped by a letter and
characters that cannot be seen by their code point.
-/

namespace Lox.Text

def escapeQuoted (c : Char) : List Char :=
  match c with
  | '"' => ['\\', '"']
  | '\\' => ['\\', '\\']
  | '\n' => ['\\', 'n']
  | '\r' => ['\\', 'r']
  | '\t' => ['\\', 't']
  | '\x00' => ['\\', '0']
  | c => if isUnprintable c then ['\\', 'u', '{'] ++ Nat.toDigits 16 c.toNat ++ ['}'] else [c]

def quoted (s : String) : String := "\"" ++ .ofList (s.toList.flatMap escapeQuoted) ++ "\""

end Lox.Text
