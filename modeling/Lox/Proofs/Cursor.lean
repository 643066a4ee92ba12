import Lox.Proofs.MaximalMunch

/-!
# A cursor over octets

A second way of scanning. A cursor moves along the octets of a text in UTF-8 and yields one item at
each call. It looks at single octets, so inside a comment or a string it passes through characters
of several octets one octet at a time; what it cuts out of the text has to begin and end between
characters, or the scan falls over.

No octet of a longer character looks like a character of one octet, so loops over octets stop where
loops over characters do (`takeWhile_octetsOf`), and the cursor skips what the lexer skips
(`skipTrivia_between`).
-/

namespace Lox.Lexer

/-- A text was to be cut inside a character. -/
inductive Torn
  | torn
  deriving DecidableEq, Repr

/-- The octets of the text are read from `pos` on; the lexeme being read begins at `start`. -/
structure Cursor where
  text : String
  start : Nat
  pos : Nat
  line : Nat
  finished : Bool

/-- The octets of a text in UTF-8, each as the character that it is by itself. -/
def octetsOf (text : String) : List Char := text.toByteArray.data.toList.map .ofUInt8

/-- The text between two octets. -/
def slice (text : String) (first last : Nat) : Except Torn String :=
  if h : first ≤ last ∧ (⟨first⟩ : String.Pos.Raw).IsValid text ∧
      (⟨last⟩ : String.Pos.Raw).IsValid text then
    .ok (text.extract (text.pos ⟨first⟩ h.2.1) (text.pos ⟨last⟩ h.2.2))
  else .error .torn

namespace Cursor

def begin (text : String) : Cursor := ⟨text, 0, 0, 1, false⟩

def octets (c : Cursor) : List Char := octetsOf c.text

def atEnd (c : Cursor) : Bool := c.octets.length ≤ c.pos

/-- The octet this far ahead; past the end, a null. -/
def look (c : Cursor) (offset : Nat) : Char := c.octets.getD (c.pos + offset) '\x00'

def step (c : Cursor) : Cursor := { c with pos := c.pos + 1 }

/-- Counts the line that the octet ends. -/
def stepLine (c : Cursor) : Cursor :=
  { c with pos := c.pos + 1, line := if c.look 0 = '\n' then c.line + 1 else c.line }

def lexeme (c : Cursor) : Except Torn String := slice c.text c.start c.pos

/-- What is left to be read. -/
def left (c : Cursor) : Nat := c.octets.length - c.pos

theorem left_lt {c d : Cursor} (h : c.atEnd = false) (ht : d.text = c.text) (hp : c.pos < d.pos) :
    d.left < c.left := by
  have hlt : c.pos < c.octets.length := by
    simpa only [atEnd, decide_eq_false_iff_not, not_le] using h
  simp only [left, octets, ht] at hlt ⊢
  omega

/-- Goes on over the octets of a class. -/
def stepWhile (p : Char → Bool) (c : Cursor) : Cursor :=
  if c.atEnd = false ∧ p (c.look 0) then stepWhile p c.step else c
termination_by c.left
decreasing_by next h => exact left_lt h.1 rfl (Nat.lt_succ_self _)

theorem stepWhile_text (p : Char → Bool) (c : Cursor) : (c.stepWhile p).text = c.text := by
  fun_induction stepWhile p c with
  | case1 c h ih => exact ih
  | case2 => rfl

theorem le_stepWhile_pos (p : Char → Bool) (c : Cursor) : c.pos ≤ (c.stepWhile p).pos := by
  fun_induction stepWhile p c with
  | case1 c h ih => exact Nat.le_trans (Nat.le_succ _) ih
  | case2 => exact Nat.le_refl _

theorem lt_stepWhile_pos {p : Char → Bool} {c : Cursor} (h : c.atEnd = false ∧ p (c.look 0)) :
    c.pos < (c.stepWhile p).pos := by
  rw [stepWhile, if_pos h]
  exact le_stepWhile_pos p c.step

/-- Blanks, and comments up to the line break that ends them. -/
def skipTrivia (c : Cursor) : Cursor :=
  if c.atEnd then c
  else if c.look 0 = ' ' ∨ c.look 0 = '\r' ∨ c.look 0 = '\t' then skipTrivia c.step
  else if c.look 0 = '\n' then skipTrivia { c.step with line := c.line + 1 }
  else if c.look 0 = '/' ∧ c.look 1 = '/' then skipTrivia (c.stepWhile (· != '\n'))
  else c
termination_by c.left
decreasing_by
  · next he _ => exact left_lt (Bool.eq_false_iff.2 he) rfl (Nat.lt_succ_self _)
  · next he _ _ => exact left_lt (Bool.eq_false_iff.2 he) rfl (Nat.lt_succ_self _)
  · next he _ _ hs =>
    exact left_lt (Bool.eq_false_iff.2 he) (stepWhile_text _ c)
      (lt_stepWhile_pos ⟨Bool.eq_false_iff.2 he, by rw [hs.1]; rfl⟩)

/-- A mark that may have an equals sign behind it. -/
def withEqual (matched single : Punct) (c : Cursor) : Punct × Cursor :=
  if c.atEnd = false ∧ c.look 0 = '=' then (matched, c.step) else (single, c)

/-- Goes on to the quote that closes a string and counts the lines. -/
def toQuote (c : Cursor) : Cursor :=
  if c.atEnd = false ∧ c.look 0 ≠ '"' then toQuote c.stepLine else c
termination_by c.left
decreasing_by next h => exact left_lt h.1 rfl (Nat.lt_succ_self _)

/-- Reads on behind an opening quote. -/
def string (c : Cursor) : Except Torn (Except Fault Kind × Cursor) :=
  let c := c.toQuote
  if c.atEnd then .ok (.error .unterminated, c)
  else do
    let c := c.step
    let contents ← slice c.text (c.start + 1) (c.pos - 1)
    return (.ok (.string contents), c)

/-- The value of a lexeme of digits with at most one point among them. -/
def numberOf (lexeme : String) : Kind :=
  numberKind (lexeme.toList.takeWhile Char.isDigit) ((lexeme.toList.dropWhile Char.isDigit).drop 1)

def number (c : Cursor) : Except Torn (Except Fault Kind × Cursor) := do
  let whole := c.stepWhile Char.isDigit
  let c :=
    if whole.look 0 = '.' ∧ (whole.look 1).isDigit then whole.step.stepWhile Char.isDigit
    else whole
  return (.ok (numberOf (← c.lexeme)), c)

def word (c : Cursor) : Except Torn (Except Fault Kind × Cursor) := do
  let c := c.stepWhile isWordChar
  return (.ok (wordKind (← c.lexeme).toList), c)

/-- Goes on between two characters, and not after the first octet of one. -/
def unexpected (c : Cursor) : Except Torn (Except Fault Kind × Cursor) := do
  let char := (← slice c.text c.start c.octets.length).toList.headD '?'
  return (.error (.unexpected char), { c with pos := c.start + char.utf8Size })

/-- The mark that a character is by itself. -/
def mark? : Char → Option Punct
  | '(' => some .leftParen
  | ')' => some .rightParen
  | '{' => some .leftBrace
  | '}' => some .rightBrace
  | ',' => some .comma
  | '.' => some .dot
  | '-' => some .minus
  | '+' => some .plus
  | ';' => some .semicolon
  | '*' => some .star
  | '/' => some .slash
  | _ => none

/-- The marks that a character is with an equals sign behind it, and without. -/
def pair? : Char → Option (Punct × Punct)
  | '!' => some (.bangEqual, .bang)
  | '=' => some (.equalEqual, .equal)
  | '<' => some (.lessEqual, .less)
  | '>' => some (.greaterEqual, .greater)
  | _ => none

/-- The lexeme at `start`. -/
def readLexeme (c : Cursor) : Except Torn (Except Fault Kind × Cursor) :=
  let first := c.look 0
  let c := c.step
  match mark? first, pair? first with
  | some p, _ => .ok (.ok (.punct p), c)
  | none, some (matched, single) =>
    let (p, c) := c.withEqual matched single
    .ok (.ok (.punct p), c)
  | none, none =>
    if first = '"' then c.string
    else if first.isDigit then c.number
    else if isWordStart first then c.word
    else c.unexpected

/-- The next item, or nothing after the end marker. -/
def next (c : Cursor) : Except Torn (Option Item × Cursor) :=
  if c.finished then .ok (none, c)
  else
    let c := c.skipTrivia
    if c.atEnd then .ok (some (.ok ⟨.eof, "", c.line⟩), { c with finished := true })
    else do
      let (outcome, c) ← { c with start := c.pos }.readLexeme
      match outcome with
      | .error fault => return (some (.error ⟨fault, c.line⟩), c)
      | .ok kind => return (some (.ok ⟨kind, ← c.lexeme, c.line⟩), c)

/-- What so many calls yield. -/
def calls : Nat → Cursor → Except Torn (List (Option Item) × Cursor)
  | 0, c => .ok ([], c)
  | n + 1, c => do
    let (item, c) ← c.next
    let (items, c) ← calls n c
    return (item :: items, c)

end Cursor

/-! ### Octets of characters -/

theorem octetsOf_ofList (cs : List Char) :
    octetsOf (.ofList cs) = (cs.flatMap String.utf8EncodeChar).map .ofUInt8 := by
  rw [octetsOf, String.toByteArray_ofList, List.utf8Encode, List.toList_data_toByteArray]

theorem octetsOf_append (xs ys : List Char) :
    octetsOf (.ofList (xs ++ ys)) = octetsOf (.ofList xs) ++ octetsOf (.ofList ys) := by
  simp only [octetsOf_ofList, List.flatMap_append, List.map_append]

theorem octetsOf_length (text : String) : (octetsOf text).length = text.utf8ByteSize := by
  simp only [octetsOf, List.length_map, Array.length_toList]
  rfl

theorem toNat_ofUInt8 (n : Nat) : (Char.ofUInt8 (.ofNat n)).toNat = n % 256 := by
  change (UInt8.ofNat n).toUInt32.toNat = n % 256
  simp

/-- A character of one octet is that octet. -/
theorem octetsOf_narrow {c : Char} (h : c.toNat < 128) : octetsOf (.ofList [c]) = [c] := by
  have hv : c.val.toNat ≤ 0x7f := Nat.le_of_lt_succ h
  rw [octetsOf_ofList, List.flatMap_singleton, String.utf8EncodeChar, if_pos hv, List.map_singleton]
  refine congrArg (fun c => [c]) (Char.toNat_inj.1 ?_)
  rw [toNat_ofUInt8, Nat.mod_eq_of_lt (by omega)]
  rfl

/-- The octets of a longer character are no characters of one octet. -/
theorem octetsOf_wide {c d : Char} (h : 128 ≤ c.toNat) (hd : d ∈ octetsOf (.ofList [c])) :
    128 ≤ d.toNat := by
  have hv : ¬ c.val.toNat ≤ 0x7f := Nat.not_le.2 h
  rw [octetsOf_ofList, List.flatMap_singleton, String.utf8EncodeChar, if_neg hv] at hd
  obtain ⟨b, hb, rfl⟩ := List.mem_map.1 hd
  split at hb
  · simp only [List.mem_cons, List.not_mem_nil, or_false] at hb
    rcases hb with rfl | rfl <;> rw [toNat_ofUInt8] <;> omega
  · split at hb
    · simp only [List.mem_cons, List.not_mem_nil, or_false] at hb
      rcases hb with rfl | rfl | rfl <;> rw [toNat_ofUInt8] <;> omega
    · simp only [List.mem_cons, List.not_mem_nil, or_false] at hb
      rcases hb with rfl | rfl | rfl | rfl <;> rw [toNat_ofUInt8] <;> omega

theorem octetsOf_cons (c : Char) (cs : List Char) :
    octetsOf (.ofList (c :: cs)) = octetsOf (.ofList [c]) ++ octetsOf (.ofList cs) :=
  octetsOf_append [c] cs

theorem octetsOf_ne_nil (c : Char) : octetsOf (.ofList [c]) ≠ [] := by
  intro h
  have hsize := congrArg List.length h
  rw [octetsOf_length] at hsize
  exact absurd hsize (by simp [Nat.ne_of_gt c.utf8Size_pos])

/-- Does not tell the characters of more than one octet apart. -/
def Uniform {β : Type} (p : Char → β) : Prop := ∃ b, ∀ c : Char, 128 ≤ c.toNat → p c = b

theorem Uniform.of_narrow {p : Char → Bool} (h : ∀ c, p c = true → c.toNat < 128) : Uniform p :=
  ⟨false, fun c hc => Bool.eq_false_iff.2 fun hp => absurd (h c hp) (Nat.not_lt.2 hc)⟩

/-- All characters but one of a single octet. -/
theorem Uniform.ne {c : Char} (h : c.toNat < 128) : Uniform (· != c) := by
  refine ⟨true, fun d hd => ?_⟩
  simp only [bne_iff_ne, ne_eq]
  rintro rfl
  exact absurd h (Nat.not_lt.2 hd)

theorem IsDigit.narrow {c : Char} (h : IsDigit c) : c.toNat < 128 :=
  Nat.lt_of_le_of_lt (m := '9'.toNat) h.2 (by decide)

theorem IsLetter.narrow {c : Char} (h : IsLetter c) : c.toNat < 128 := by
  rcases h with ⟨-, h⟩ | ⟨-, h⟩ | rfl
  · exact Nat.lt_of_le_of_lt (m := 'Z'.toNat) h (by decide)
  · exact Nat.lt_of_le_of_lt (m := 'z'.toNat) h (by decide)
  · decide

theorem uniform_isDigit : Uniform Char.isDigit := .of_narrow fun _ h => (isDigit_iff.1 h).narrow

theorem uniform_isWordChar : Uniform isWordChar :=
  .of_narrow fun _ h => (isWordChar_iff.1 h).elim IsLetter.narrow IsDigit.narrow

/-- A class of this sort takes the same from the octets as from the characters. -/
theorem takeWhile_octetsOf {p : Char → Bool} (hp : Uniform p) (cs : List Char) :
    (octetsOf (.ofList cs)).takeWhile p = octetsOf (.ofList (cs.takeWhile p)) := by
  obtain ⟨b, hb⟩ := hp
  induction cs with
  | nil => rfl
  | cons c cs ih =>
    rw [octetsOf_cons, List.takeWhile_cons]
    rcases Nat.lt_or_ge c.toNat 128 with hc | hc
    · rw [octetsOf_narrow hc, List.singleton_append, List.takeWhile_cons, ih]
      split
      · rw [octetsOf_cons, octetsOf_narrow hc, List.singleton_append]
      · rfl
    · have hwide : ∀ d ∈ octetsOf (.ofList [c]), p d = b := fun d hd => hb d (octetsOf_wide hc hd)
      rw [hb c hc]
      cases b with
      | true =>
        rw [List.takeWhile_append_of_pos hwide, ih, if_pos rfl, octetsOf_cons c (cs.takeWhile p)]
      | false =>
        obtain ⟨d, ds, hds⟩ := List.exists_cons_of_ne_nil (octetsOf_ne_nil c)
        rw [hds] at hwide ⊢
        rw [List.cons_append, List.takeWhile_cons_of_neg (by simp [hwide d])]
        rfl

theorem newlines_octetsOf (cs : List Char) : newlines (octetsOf (.ofList cs)) = newlines cs := by
  induction cs with
  | nil => rfl
  | cons c cs ih =>
    rw [octetsOf_cons, newlines_append, ih]
    rcases Nat.lt_or_ge c.toNat 128 with hc | hc
    · rw [octetsOf_narrow hc, ← newlines_append, List.singleton_append]
    · have hnone : newlines (octetsOf (.ofList [c])) = 0 :=
        List.count_eq_zero.2 fun h => absurd (octetsOf_wide hc h) (by decide)
      have hne : c ≠ '\n' := by
        rintro rfl
        exact absurd hc (by decide)
      rw [hnone, Nat.zero_add, newlines, newlines, List.count_cons_of_ne hne]

/-! ### Between characters -/

/-- The octets of some characters. -/
def width (cs : List Char) : Nat := (String.ofList cs).utf8ByteSize

theorem width_append (xs ys : List Char) : width (xs ++ ys) = width xs + width ys := by
  rw [width, String.ofList_append, String.utf8ByteSize_append, width, width]

theorem length_octetsOf_ofList (cs : List Char) : (octetsOf (.ofList cs)).length = width cs :=
  octetsOf_length _

/-- What stands between characters of the text can be cut out. -/
theorem slice_ofList (before taken rest : List Char) :
    slice (.ofList (before ++ taken ++ rest)) (width before) (width (before ++ taken)) =
      .ok (.ofList taken) := by
  have hfirst : (⟨width before⟩ : String.Pos.Raw).IsValid (.ofList (before ++ taken ++ rest)) :=
    String.Pos.Raw.isValid_iff_exists_append.2 ⟨.ofList before, .ofList (taken ++ rest), by
      rw [List.append_assoc, String.ofList_append], rfl⟩
  have hlast : (⟨width (before ++ taken)⟩ : String.Pos.Raw).IsValid
      (.ofList (before ++ taken ++ rest)) :=
    String.Pos.Raw.isValid_iff_exists_append.2 ⟨.ofList (before ++ taken), .ofList rest, by
      rw [String.ofList_append], rfl⟩
  have hle : width before ≤ width (before ++ taken) := by
    rw [width_append]
    exact Nat.le_add_right _ _
  rw [slice, dif_pos ⟨hle, hfirst, hlast⟩]
  refine congrArg Except.ok (String.toByteArray_inj.1 ?_)
  rw [String.toByteArray_extract]
  simp only [String.offset_pos, List.append_assoc, String.ofList_append, String.toByteArray_append]
  calc ((String.ofList before).toByteArray ++
        ((String.ofList taken).toByteArray ++ (String.ofList rest).toByteArray)).extract
          (width before) (width (before ++ taken))
    _ = ((String.ofList taken).toByteArray ++ (String.ofList rest).toByteArray).extract
          0 (width taken) := by
      rw [width_append]
      exact ByteArray.extract_append_size_add (i := 0)
    _ = (String.ofList taken).toByteArray := ByteArray.extract_append_eq_left rfl

namespace Cursor

/-- The cursor between what has been read of a text and the rest. -/
def between (before rest : List Char) (start line : Nat) : Cursor :=
  ⟨.ofList (before ++ rest), start, width before, line, false⟩

variable {before rest : List Char} {start line : Nat}

/-- What the cursor has in front of it. -/
theorem drop_octets_between :
    (between before rest start line).octets.drop (between before rest start line).pos =
      octetsOf (.ofList rest) := by
  change (octetsOf (.ofList (before ++ rest))).drop (width before) = _
  rw [octetsOf_append, ← length_octetsOf_ofList, List.drop_left]

theorem look_between (k : Nat) :
    (between before rest start line).look k = (octetsOf (.ofList rest)).getD k '\x00' := by
  have hdrop := @drop_octets_between before rest start line
  rw [← hdrop, look, List.getD_eq_getElem?_getD, List.getD_eq_getElem?_getD, List.getElem?_drop]

theorem atEnd_between : (between before rest start line).atEnd = rest.isEmpty := by
  have hlength : (between before rest start line).octets.length = width before + width rest :=
    (length_octetsOf_ofList _).trans (width_append _ _)
  rw [atEnd, hlength, Bool.eq_iff_iff, decide_eq_true_iff, List.isEmpty_iff]
  change width before + width rest ≤ width before ↔ _
  have hzero : width rest = 0 ↔ rest = [] := by
    rw [width, String.utf8ByteSize_eq_zero_iff, String.ofList_eq_empty_iff]
  rw [← hzero]
  omega

theorem step_between {c : Char} (h : c.toNat < 128) :
    (between before (c :: rest) start line).step = between (before ++ [c]) rest start line := by
  have hw : width [c] = 1 := by
    rw [← length_octetsOf_ofList, octetsOf_narrow h, List.length_singleton]
  simp only [step, between, width_append, hw, List.append_assoc, List.singleton_append]

/-- The first character in front of the cursor is either the octet there or none of one octet. -/
theorem look_first (c : Char) (cs : List Char) :
    (c.toNat < 128 ∧ (between before (c :: cs) start line).look 0 = c) ∨
      (128 ≤ c.toNat ∧ 128 ≤ ((between before (c :: cs) start line).look 0).toNat) := by
  rw [look_between, octetsOf_cons]
  rcases Nat.lt_or_ge c.toNat 128 with hc | hc
  · exact .inl ⟨hc, by rw [octetsOf_narrow hc]; rfl⟩
  · obtain ⟨d, ds, hds⟩ := List.exists_cons_of_ne_nil (octetsOf_ne_nil c)
    have hd : 128 ≤ d.toNat := octetsOf_wide hc (hds ▸ List.mem_cons_self)
    rw [hds]
    exact .inr ⟨hc, hd⟩

theorem look_end (k : Nat) : (between before [] start line).look k = '\x00' := by
  rw [look_between]
  rfl

theorem look_eq_iff {c d : Char} {cs : List Char} (hd : d.toNat < 128) :
    (between before (c :: cs) start line).look 0 = d ↔ c = d := by
  rcases @look_first before start line c cs with ⟨-, h⟩ | ⟨hc, h⟩
  · rw [h]
  · constructor
    · intro he
      exact absurd (he ▸ h) (Nat.not_le.2 hd)
    · rintro rfl
      exact absurd hd (Nat.not_lt.2 hc)

/-- A test that does not tell longer characters apart need not know the whole character. -/
theorem look_uniform {β : Type} {p : Char → β} (hp : Uniform p) (c : Char) (cs : List Char) :
    p ((between before (c :: cs) start line).look 0) = p c := by
  obtain ⟨b, hb⟩ := hp
  rcases @look_first before start line c cs with ⟨-, h⟩ | ⟨hc, h⟩
  · rw [h]
  · rw [hb _ h, hb _ hc]

/-- Behind a character of one octet. -/
theorem look_succ {c : Char} (h : c.toNat < 128) (cs : List Char) (k : Nat) :
    (between before (c :: cs) start line).look (k + 1) =
      (between (before ++ [c]) cs start line).look k := by
  rw [look_between, look_between, octetsOf_cons, octetsOf_narrow h, List.singleton_append,
    List.getD_cons_succ]

/-! ### Loops -/

theorem drop_octets_of_not_atEnd {c : Cursor} (h : c.atEnd = false) :
    c.octets.drop c.pos = c.look 0 :: c.octets.drop (c.pos + 1) := by
  have hlt : c.pos < c.octets.length := by
    simpa only [atEnd, decide_eq_false_iff_not, not_le] using h
  have hlook : c.look 0 = c.octets[c.pos] := by
    simp only [look, Nat.add_zero, List.getD_eq_getElem?_getD, List.getElem?_eq_getElem hlt,
      Option.getD_some]
  rw [hlook, List.drop_eq_getElem_cons hlt]

/-- A loop over a class stops at the end of what the class takes. -/
theorem takeWhile_octets_of_stop {p : Char → Bool} {c : Cursor}
    (h : ¬ (c.atEnd = false ∧ p (c.look 0) = true)) : (c.octets.drop c.pos).takeWhile p = [] := by
  cases he : c.atEnd with
  | true =>
    rw [List.drop_eq_nil_of_le (of_decide_eq_true he)]
    rfl
  | false =>
    rw [drop_octets_of_not_atEnd he, List.takeWhile_cons_of_neg fun hp => h ⟨he, hp⟩]

theorem stepWhile_eq (p : Char → Bool) (c : Cursor) :
    c.stepWhile p = { c with pos := c.pos + ((c.octets.drop c.pos).takeWhile p).length } := by
  fun_induction stepWhile p c with
  | case1 c h ih =>
    rw [ih, drop_octets_of_not_atEnd h.1, List.takeWhile_cons, if_pos h.2, List.length_cons]
    simp only [step, octets, Nat.add_assoc, Nat.add_comm]
  | case2 c h => simp only [takeWhile_octets_of_stop h, List.length_nil, Nat.add_zero]

theorem stepWhile_between {p : Char → Bool} (hp : Uniform p) :
    (between before rest start line).stepWhile p =
      between (before ++ rest.takeWhile p) (rest.dropWhile p) start line := by
  rw [stepWhile_eq, drop_octets_between, takeWhile_octetsOf hp, length_octetsOf_ofList]
  simp only [between, width_append, List.append_assoc, List.takeWhile_append_dropWhile]

theorem toQuote_eq (c : Cursor) :
    c.toQuote = { c with
      pos := c.pos + ((c.octets.drop c.pos).takeWhile (· != '"')).length
      line := c.line + newlines ((c.octets.drop c.pos).takeWhile (· != '"')) } := by
  fun_induction toQuote c with
  | case1 c h ih =>
    have hline : c.stepLine.line = c.line + newlines [c.look 0] := by
      simp only [stepLine, newlines]
      split <;> simp_all
    have hq : (c.look 0 != '"') = true := bne_iff_ne.2 h.2
    have hcons := newlines_append [c.look 0] ((c.octets.drop (c.pos + 1)).takeWhile (· != '"'))
    rw [List.singleton_append] at hcons
    rw [ih, hline, drop_octets_of_not_atEnd h.1, List.takeWhile_cons, if_pos hq, hcons]
    simp only [stepLine, octets, List.length_cons, Nat.add_assoc, Nat.add_comm]
  | case2 c h =>
    have hstop := takeWhile_octets_of_stop (p := (· != '"')) (c := c) (by simpa using h)
    simp only [hstop, List.length_nil, Nat.add_zero, newlines, List.count_nil]

theorem toQuote_between :
    (between before rest start line).toQuote =
      between (before ++ rest.takeWhile (· != '"')) (rest.dropWhile (· != '"')) start
        (line + newlines (rest.takeWhile (· != '"'))) := by
  rw [toQuote_eq, drop_octets_between, takeWhile_octetsOf (.ne (by decide)), length_octetsOf_ofList,
    newlines_octetsOf]
  simp only [between, width_append, List.append_assoc, List.takeWhile_append_dropWhile]

/-! ### Blanks and comments -/

theorem skipTrivia_blank {c : Char} (hc : c = ' ' ∨ c = '\r' ∨ c = '\t' ∨ c = '\n')
    (cs : List Char) :
    (between before (c :: cs) start line).skipTrivia =
      (between (before ++ [c]) cs start (line + newlines [c])).skipTrivia := by
  have hn : c.toNat < 128 := by
    rcases hc with rfl | rfl | rfl | rfl <;> decide
  have hlook : (between before (c :: cs) start line).look 0 = c := (look_eq_iff hn).2 rfl
  rw [skipTrivia, atEnd_between, hlook, step_between hn]
  rcases hc with rfl | rfl | rfl | rfl <;> rfl

theorem skipTrivia_comment {body more : List Char} (hb : '\n' ∉ body)
    (hm : more = [] ∨ more.head? = some '\n') :
    (between before ('/' :: '/' :: body ++ more) start line).skipTrivia =
      (between (before ++ '/' :: '/' :: body) more start line).skipTrivia := by
  have hp : ∀ c ∈ '/' :: '/' :: body, (c != '\n') = true := by
    intro c hc
    refine bne_iff_ne.2 fun he => ?_
    subst he
    simp [hb] at hc
  have hmore : more.takeWhile (· != '\n') = [] ∧ more.dropWhile (· != '\n') = more := by
    rcases hm with rfl | hm
    · exact ⟨rfl, rfl⟩
    · obtain ⟨rest, rfl⟩ := List.head?_eq_some_iff.1 hm
      exact ⟨rfl, rfl⟩
  have hfirst : (between before ('/' :: '/' :: body ++ more) start line).look 0 = '/' :=
    (look_eq_iff (by decide)).2 rfl
  have hsecond : (between before ('/' :: '/' :: body ++ more) start line).look 1 = '/' :=
    (look_succ (by decide) _ 0).trans ((look_eq_iff (by decide)).2 rfl)
  rw [skipTrivia, atEnd_between, hfirst, hsecond, stepWhile_between (.ne (by decide)),
    List.takeWhile_append_of_pos hp, List.dropWhile_append_of_pos hp, hmore.1, hmore.2,
    List.append_nil]
  rfl

theorem skipTrivia_stop (hb : ∀ c, rest.head? = some c → c ≠ ' ' ∧ c ≠ '\r' ∧ c ≠ '\t' ∧ c ≠ '\n')
    (hs : ¬ ['/', '/'] <+: rest) :
    (between before rest start line).skipTrivia = between before rest start line := by
  rw [skipTrivia, atEnd_between]
  rcases rest with _ | ⟨c, cs⟩
  · rfl
  obtain ⟨h1, h2, h3, h4⟩ := hb c rfl
  have hslash : ¬ ((between before (c :: cs) start line).look 0 = '/' ∧
      (between before (c :: cs) start line).look 1 = '/') := by
    rintro ⟨hfirst, hsecond⟩
    obtain rfl := (look_eq_iff (by decide)).1 hfirst
    rw [look_succ (by decide)] at hsecond
    rcases cs with _ | ⟨d, cs⟩
    · rw [look_end] at hsecond
      exact absurd hsecond (by decide)
    · obtain rfl := (look_eq_iff (by decide)).1 hsecond
      exact hs ⟨cs, rfl⟩
  simp only [look_eq_iff (d := ' ') (by decide), look_eq_iff (d := '\r') (by decide),
    look_eq_iff (d := '\t') (by decide), look_eq_iff (d := '\n') (by decide), h1, h2, h3, h4,
    hslash, List.isEmpty_cons, Bool.false_eq_true, or_self, if_false]

theorem skipTrivia_of_skips {cs r : List Char} (h : Skips cs r) :
    ∃ blank, cs = blank ++ r ∧ ∀ before line,
      (between before cs start line).skipTrivia =
        between (before ++ blank) r start (line + newlines blank) := by
  induction h with
  | @blank c cs r hc _ ih =>
    obtain ⟨blank, rfl, ih⟩ := ih
    refine ⟨c :: blank, rfl, fun before line => ?_⟩
    have hcons : newlines (c :: blank) = newlines [c] + newlines blank := newlines_append [c] blank
    rw [skipTrivia_blank hc, ih, List.append_assoc, hcons, Nat.add_assoc]
    rfl
  | @comment body more r hb hm _ ih =>
    obtain ⟨blank, hblank, ih⟩ := ih
    refine ⟨'/' :: '/' :: body ++ blank, by rw [hblank, List.append_assoc], fun before line => ?_⟩
    have hzero : newlines ('/' :: '/' :: body) = 0 := List.count_eq_zero.2 (by simp [hb])
    rw [skipTrivia_comment hb hm, ih, List.append_assoc, newlines_append, hzero, Nat.zero_add]
  | @stop r hb hs =>
    exact ⟨[], rfl, fun before line => by
      rw [skipTrivia_stop hb hs, List.append_nil]
      rfl⟩

/-- The cursor skips what the lexer skips. -/
theorem skipTrivia_between :
    (between before rest start line).skipTrivia =
      between (before ++ (skip false rest).1) (skip false rest).2 start
        (line + newlines (skip false rest).1) := by
  obtain ⟨blank, hblank, h⟩ := @skipTrivia_of_skips start _ _ (skips_skip rest)
  obtain rfl : blank = (skip false rest).1 :=
    List.append_cancel_right (hblank.symm.trans (skip_append false rest).symm)
  exact h before line

end Cursor

end Lox.Lexer
