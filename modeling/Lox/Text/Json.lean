import Lox.Decimal.Notation

/-!
# JSON values and their compact text

Objects keep their fields in the order given. A text escapes the quote, the backslash and the
characters below the blank, and nothing else; a float has the fewest digits that read back, with a
power of ten outside `1e-5 ≤ |x| < 1e16`.
-/

namespace Lox

inductive Json
  | null
  | bool (b : Bool)
  | nat (n : Nat)
  | float (x : Float)
  | string (s : String)
  | array (items : List Json)
  | object (fields : List (String × Json))

namespace Json

def hexDigit (n : Nat) : Char := Nat.digitChar n

def escape (c : Char) : List Char :=
  match c with
  | '"' => ['\\', '"']
  | '\\' => ['\\', '\\']
  | '\n' => ['\\', 'n']
  | '\r' => ['\\', 'r']
  | '\t' => ['\\', 't']
  | '\x08' => ['\\', 'b']
  | '\x0c' => ['\\', 'f']
  | c =>
    if c.toNat < 0x20 then ['\\', 'u', '0', '0', hexDigit (c.toNat / 16), hexDigit (c.toNat % 16)]
    else [c]

def quote (s : String) : String := "\"" ++ .ofList (s.toList.flatMap escape) ++ "\""

/-- Infinities and values that are no number have no JSON form and are written `null`. -/
def floatLayout : Decimal.Layout where
  tie := .toEven
  positional e := -5 ≤ e ∧ e < 16
  plus := true
  pointZero := true
  nan := "null"
  infinity := "null"
  negativeInfinity := "null"

mutual

def text : Json → String
  | .null => "null"
  | .bool b => toString b
  | .nat n => toString n
  | .float x => floatLayout.write x
  | .string s => quote s
  | .array items => "[" ++ ",".intercalate (texts items) ++ "]"
  | .object fields => "\x7b" ++ ",".intercalate (fieldTexts fields) ++ "\x7d"

def texts : List Json → List String
  | [] => []
  | j :: js => text j :: texts js

def fieldTexts : List (String × Json) → List String
  | [] => []
  | (name, j) :: fields => (quote name ++ ":" ++ text j) :: fieldTexts fields

end

end Json

end Lox
