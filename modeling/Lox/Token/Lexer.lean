import Lox.Token

/-!
# From text to tokens

The text is cut into pieces. A piece is a stretch of blanks and comments followed by the longest
lexeme that stands there, or by the characters of a fault; the last piece has the end marker. The
pieces joined give the text back (`join_pieces`), so nothing is lost and every step is shorter.
-/

namespace Lox.Lexer

/-- What is wrong with characters that make no token. -/
inductive Fault
  | unexpected (c : Char)
  | unterminated
  deriving DecidableEq, Repr

def Fault.message : Fault → String
  | .unexpected c => "Unexpected character: " ++ .ofList [c]
  | .unterminated => "Unterminated string."

structure Error where
  fault : Fault
  line : Nat
  deriving DecidableEq, Repr

abbrev Item := Except Error Token

/-! ### Blanks and comments -/

def isBlank (c : Char) : Bool := c == ' ' || c == '\r' || c == '\t' || c == '\n'

/-- Splits off leading blanks and comments; `comment` holds inside a comment, which ends before its
newline. -/
def skip : (comment : Bool) → List Char → List Char × List Char
  | _, [] => ([], [])
  | true, c :: cs =>
    let (blank, rest) := skip (c != '\n') cs
    (c :: blank, rest)
  | false, '/' :: '/' :: cs =>
    let (blank, rest) := skip true cs
    ('/' :: '/' :: blank, rest)
  | false, c :: cs =>
    if isBlank c then
      let (blank, rest) := skip false cs
      (c :: blank, rest)
    else ([], c :: cs)

theorem skip_append (comment : Bool) (cs : List Char) :
    (skip comment cs).1 ++ (skip comment cs).2 = cs := by
  fun_induction skip comment cs <;> simp_all

theorem skip_length_le (comment : Bool) (cs : List Char) :
    (skip comment cs).2.length ≤ cs.length := by
  have := congrArg List.length (skip_append comment cs)
  simp at this
  omega

/-! ### Lexemes -/

def isWordStart (c : Char) : Bool := c.isAlpha || c == '_'

def isWordChar (c : Char) : Bool := c.isAlphanum || c == '_'

/-- The characters taken, the characters left, and what the taken ones are. -/
structure Lexeme where
  text : List Char
  rest : List Char
  outcome : Except Fault Kind

def wordKind (text : List Char) : Kind :=
  match Keyword.all.find? fun k => k.spelling.toList == text with
  | some k => .keyword k
  | none => .identifier

def Lexeme.word (cs : List Char) : Lexeme :=
  let text := cs.takeWhile isWordChar
  ⟨text, cs.dropWhile isWordChar, .ok (wordKind text)⟩

def natOfDigits (digits : List Char) : Nat :=
  digits.foldl (fun n c => 10 * n + (c.toNat - '0'.toNat)) 0

def numberKind (whole fraction : List Char) : Kind :=
  .number (Decimal.toFloat (natOfDigits (whole ++ fraction)) (-(fraction.length : Int)))

/-- A point belongs to a number only when a digit follows it. -/
def Lexeme.number (cs : List Char) : Lexeme :=
  let whole := cs.takeWhile Char.isDigit
  match cs.dropWhile Char.isDigit with
  | '.' :: d :: rest =>
    if d.isDigit then
      let fraction := (d :: rest).takeWhile Char.isDigit
      ⟨whole ++ '.' :: fraction, (d :: rest).dropWhile Char.isDigit, .ok (numberKind whole fraction)⟩
    else ⟨whole, '.' :: d :: rest, .ok (numberKind whole [])⟩
  | rest => ⟨whole, rest, .ok (numberKind whole [])⟩

/-- The lexeme of an opening quote and what follows it. -/
def Lexeme.string (cs : List Char) : Lexeme :=
  let contents := cs.takeWhile (· != '"')
  match cs.dropWhile (· != '"') with
  | [] => ⟨'"' :: cs, [], .error .unterminated⟩
  | quote :: rest => ⟨'"' :: contents ++ [quote], rest, .ok (.string (.ofList contents))⟩

def longestPunct? (cs : List Char) : Option Punct :=
  Punct.all.find? fun p => p.chars.isPrefixOf cs

/-- The lexeme at the start of a text that begins with neither blank nor comment. -/
def Lexeme.of (c : Char) (cs : List Char) : Lexeme :=
  if c = '"' then .string cs
  else if c.isDigit then .number (c :: cs)
  else if isWordStart c then .word (c :: cs)
  else match longestPunct? (c :: cs) with
    | some p => ⟨p.chars, (c :: cs).drop p.chars.length, .ok (.punct p)⟩
    | none => ⟨[c], cs, .error (.unexpected c)⟩

theorem Lexeme.word_append (cs : List Char) : (word cs).text ++ (word cs).rest = cs := by
  simp [word]

theorem Lexeme.number_append (cs : List Char) : (number cs).text ++ (number cs).rest = cs := by
  have h := List.takeWhile_append_dropWhile (p := Char.isDigit) (l := cs)
  unfold number
  split
  · next d rest e =>
    split
    · rw [e] at h
      simp [List.append_assoc, h]
    · rw [e] at h
      exact h
  · exact h

theorem Lexeme.string_append (cs : List Char) :
    (string cs).text ++ (string cs).rest = '"' :: cs := by
  have h := List.takeWhile_append_dropWhile (p := (· != '"')) (l := cs)
  unfold string
  split
  · simp
  · next quote rest e =>
    rw [e] at h
    simpa using h

theorem Lexeme.of_append (c : Char) (cs : List Char) :
    (Lexeme.of c cs).text ++ (Lexeme.of c cs).rest = c :: cs := by
  unfold Lexeme.of
  split
  · next h => rw [h]; exact string_append cs
  · split
    · exact number_append _
    · split
      · exact word_append _
      · split
        · next p h =>
          have := List.find?_some h
          obtain ⟨rest, e⟩ := List.isPrefixOf_iff_prefix.1 this
          rw [← e]
          simp
        · simp

theorem Lexeme.of_text_ne_nil (c : Char) (cs : List Char) : (Lexeme.of c cs).text ≠ [] := by
  unfold Lexeme.of
  split
  · unfold string
    split <;> simp
  · split
    · next h =>
      unfold number
      split
      · split <;> simp [h]
      · simp [h]
    · split
      · next h =>
        have : isWordChar c = true := by
          simp only [isWordStart, isWordChar, Char.isAlphanum, Bool.or_eq_true] at h ⊢
          rcases h with h | h <;> simp [h]
        simp [word, this]
      · split
        · next p _ => exact p.chars_ne_nil
        · simp

theorem Lexeme.of_rest_length_lt (c : Char) (cs : List Char) :
    (Lexeme.of c cs).rest.length < (c :: cs).length := by
  have h := congrArg List.length (of_append c cs)
  have := List.length_pos_iff.2 (of_text_ne_nil c cs)
  simp only [List.length_append] at h
  omega

/-! ### Pieces -/

structure Piece where
  blank : List Char
  text : List Char
  item : Item

def newlines (cs : List Char) : Nat := cs.count '\n'

def Lexeme.item (l : Lexeme) (line : Nat) : Item :=
  match l.outcome with
  | .ok kind => .ok ⟨kind, .ofList l.text, line⟩
  | .error fault => .error ⟨fault, line⟩

/-- The pieces of a text that starts on `line`; an item counts the newlines up to its own end. -/
def pieces (line : Nat) (cs : List Char) : List Piece :=
  let blank := (skip false cs).1
  match h : (skip false cs).2 with
  | [] => [⟨blank, [], .ok ⟨.eof, "", line + newlines blank⟩⟩]
  | c :: rest =>
    let lexeme := Lexeme.of c rest
    let last := line + newlines blank + newlines lexeme.text
    have : lexeme.rest.length < cs.length :=
      Nat.lt_of_lt_of_le (Lexeme.of_rest_length_lt c rest) (h ▸ skip_length_le false cs)
    ⟨blank, lexeme.text, lexeme.item last⟩ :: pieces last lexeme.rest
termination_by cs.length

def join (ps : List Piece) : List Char := ps.flatMap fun p => p.blank ++ p.text

theorem join_pieces (line : Nat) (cs : List Char) : join (pieces line cs) = cs := by
  fun_induction pieces line cs with
  | case1 line cs blank h =>
    have := skip_append false cs
    rw [h] at this
    simpa [join] using this
  | case2 line cs blank c rest h lexeme last _ ih =>
    have e := skip_append false cs
    rw [h, ← Lexeme.of_append c rest] at e
    simp only [join, List.flatMap_cons, List.append_assoc] at ih ⊢
    rw [ih]
    exact e

/-- The tokens and faults of a source, in order; the last one is the end marker. -/
def scan (source : String) : List Item := (pieces 1 source.toList).map (·.item)

def tokens (items : List Item) : List Token := items.filterMap (·.toOption)

def errors (items : List Item) : List Error :=
  items.filterMap fun
    | .ok _ => none
    | .error e => some e

end Lox.Lexer
