/-!
# Octets to text

UTF-8 read strictly: no overlong forms, no surrogates, nothing past the last code point. The first
octet of a character fixes how many follow and what the second may be. A malformed text is told by
the index of the character that goes wrong and the number of its octets that make sense together,
or by its running out of octets.
-/

namespace Lox.Text

/-- Where a text stops making sense; `length` is `none` when it merely ends too early. -/
structure Malformed where
  index : Nat
  length : Option Nat
  deriving DecidableEq, Repr

/-- The number of octets after the first, and the range of the second. -/
structure Lead where
  following : Nat
  low : Nat
  high : Nat
  deriving DecidableEq, Repr

def Lead.of (b : Nat) : Option Lead :=
  if b < 0x80 then some ⟨0, 0x80, 0xbf⟩
  else if b < 0xc2 then none
  else if b < 0xe0 then some ⟨1, 0x80, 0xbf⟩
  else if b = 0xe0 then some ⟨2, 0xa0, 0xbf⟩
  else if b = 0xed then some ⟨2, 0x80, 0x9f⟩
  else if b < 0xf0 then some ⟨2, 0x80, 0xbf⟩
  else if b = 0xf0 then some ⟨3, 0x90, 0xbf⟩
  else if b < 0xf4 then some ⟨3, 0x80, 0xbf⟩
  else if b = 0xf4 then some ⟨3, 0x80, 0x8f⟩
  else none

/-- The bits of the code point in the first octet. -/
def Lead.bits (l : Lead) (b : Nat) : Nat :=
  b % if l.following = 0 then 0x80 else Nat.pow 2 (6 - l.following)

/-- Inside a character: the code point so far, the octets still owed, the range of the next one,
and how many have been read. -/
structure Pending where
  code : Nat
  owed : Nat
  low : Nat
  high : Nat
  read : Nat

/-- `index` is that of the next octet between characters, and of the first octet inside one; `done`
holds the characters so far, last first. -/
def decodeFrom : (index : Nat) → Option Pending → (done : List Char) → List UInt8 →
    Except Malformed (List Char)
  | _, none, done, [] => .ok done.reverse
  | index, some _, _, [] => .error ⟨index, none⟩
  | index, none, done, b :: rest =>
    match Lead.of b.toNat with
    | none => .error ⟨index, some 1⟩
    | some ⟨0, _, _⟩ => decodeFrom (index + 1) none (Char.ofNat b.toNat :: done) rest
    | some lead =>
      decodeFrom index (some ⟨lead.bits b.toNat, lead.following, lead.low, lead.high, 1⟩) done rest
  | index, some p, done, b :: rest =>
    if p.low ≤ b.toNat ∧ b.toNat ≤ p.high then
      let code := p.code * 64 + b.toNat % 64
      if p.owed = 1 then decodeFrom (index + p.read + 1) none (Char.ofNat code :: done) rest
      else decodeFrom index (some ⟨code, p.owed - 1, 0x80, 0xbf, p.read + 1⟩) done rest
    else .error ⟨index, some p.read⟩

def decode (octets : List UInt8) : Except Malformed String :=
  (decodeFrom 0 none [] octets).map .ofList

def Malformed.message (m : Malformed) : String :=
  match m.length with
  | some n =>
    "invalid utf-8 sequence of " ++ toString n ++ " bytes from index " ++ toString m.index
  | none => "incomplete utf-8 byte sequence from index " ++ toString m.index

end Lox.Text
