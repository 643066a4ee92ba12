import Mathlib.Data.List.TakeWhile
import Lox.Proofs.JoinedText
import Lox.Proofs.Spelling

/-!
# Maximal munch

The lexical grammar as a relation between texts and kinds, and scanning as that grammar has it: skip
blanks and comments, then take the longest lexeme that stands there. Where none does, a quote that
is never closed takes all the rest of the text, and any other character is an error by itself.
-/

namespace Lox.Lexer

/-! ### The lexical grammar -/

/-- `[A-Za-z_]` -/
def IsLetter (c : Char) : Prop := ('A' ≤ c ∧ c ≤ 'Z') ∨ ('a' ≤ c ∧ c ≤ 'z') ∨ c = '_'

/-- `[0-9]` -/
def IsDigit (c : Char) : Prop := '0' ≤ c ∧ c ≤ '9'

instance (c : Char) : Decidable (IsLetter c) := inferInstanceAs (Decidable (_ ∨ _))

instance (c : Char) : Decidable (IsDigit c) := inferInstanceAs (Decidable (_ ∧ _))

/-- The text is a lexeme of this kind. -/
inductive Spells : List Char → Kind → Prop
  | punct (p : Punct) : Spells p.chars (.punct p)
  | keyword (k : Keyword) : Spells k.spelling.toList (.keyword k)
  | identifier {c : Char} {cs : List Char} :
    IsLetter c → (∀ d ∈ cs, IsLetter d ∨ IsDigit d) → (∀ k : Keyword, c :: cs ≠ k.spelling.toList) →
    Spells (c :: cs) .identifier
  | whole {ds : List Char} :
    ds ≠ [] → (∀ d ∈ ds, IsDigit d) → Spells ds (numberKind ds [])
  | fraction {ds es : List Char} :
    ds ≠ [] → (∀ d ∈ ds, IsDigit d) → es ≠ [] → (∀ d ∈ es, IsDigit d) →
    Spells (ds ++ '.' :: es) (numberKind ds es)
  | string {contents : List Char} :
    '"' ∉ contents → Spells ('"' :: contents ++ ['"']) (.string (.ofList contents))

/-- The longest lexeme that a text begins with, and its kind. -/
structure Munch (r text : List Char) (kind : Kind) : Prop where
  spells : Spells text kind
  begins : text <+: r
  longest : ∀ other kind', Spells other kind' → other <+: r → other.length ≤ text.length

/-- What is left of a text behind its leading blanks and comments. -/
inductive Skips : List Char → List Char → Prop
  | blank {c : Char} {cs r : List Char} :
    c = ' ' ∨ c = '\r' ∨ c = '\t' ∨ c = '\n' → Skips cs r → Skips (c :: cs) r
  | comment {body rest r : List Char} :
    '\n' ∉ body → (rest = [] ∨ rest.head? = some '\n') → Skips rest r →
    Skips ('/' :: '/' :: body ++ rest) r
  | stop {r : List Char} :
    (∀ c, r.head? = some c → c ≠ ' ' ∧ c ≠ '\r' ∧ c ≠ '\t' ∧ c ≠ '\n') → ¬ ['/', '/'] <+: r →
    Skips r r

/-- The item that stands at the start of a text without leading blanks, and the text behind it. -/
inductive Yields (line : Nat) (r : List Char) : Item → List Char → Prop
  | token {text rest : List Char} {kind : Kind} :
    Munch r text kind → r = text ++ rest → Yields line r (.ok ⟨kind, .ofList text, line⟩) rest
  | unterminated {contents : List Char} :
    '"' ∉ contents → r = '"' :: contents → Yields line r (.error ⟨.unterminated, line⟩) []
  | unexpected {c : Char} {rest : List Char} :
    (∀ text kind, Spells text kind → ¬ text <+: r) →
    (∀ contents, '"' ∉ contents → r ≠ '"' :: contents) → r = c :: rest →
    Yields line r (.error ⟨.unexpected c, line⟩) rest

/-- The items of a text that starts on this line; each is on the line that it ends on. -/
inductive Munches : (line : Nat) → List Char → List Item → Prop
  | eof {line : Nat} {cs : List Char} :
    Skips cs [] → Munches line cs [.ok ⟨.eof, "", line + newlines cs⟩]
  | item {line : Nat} {taken r rest : List Char} {item : Item} {items : List Item} :
    Skips (taken ++ rest) r → Yields (line + newlines taken) r item rest →
    Munches (line + newlines taken) rest items → Munches line (taken ++ rest) (item :: items)

/-! ### Classes of characters -/

theorem isDigit_iff {c : Char} : c.isDigit = true ↔ IsDigit c := by
  simp only [Char.isDigit, IsDigit, Bool.and_eq_true, decide_eq_true_eq, ge_iff_le, Char.le_def]

theorem isWordStart_iff {c : Char} : isWordStart c = true ↔ IsLetter c := by
  have hupper : c.isUpper = true ↔ 'A' ≤ c ∧ c ≤ 'Z' := decide_eq_true_iff
  have hlower : c.isLower = true ↔ 'a' ≤ c ∧ c ≤ 'z' := by
    change (decide ('a' ≤ c) && decide (c ≤ 'z')) = true ↔ _
    simp only [Bool.and_eq_true, decide_eq_true_eq]
  change ((c.isUpper || c.isLower) || c == '_') = true ↔ _
  simp only [IsLetter, Bool.or_eq_true, hupper, hlower, beq_iff_eq, or_assoc]

theorem isWordChar_iff {c : Char} : isWordChar c = true ↔ IsLetter c ∨ IsDigit c := by
  rw [← isWordStart_iff, ← isDigit_iff]
  simp only [isWordChar, isWordStart, Char.isAlphanum, Bool.or_eq_true]
  tauto

/-- The characters of a class that a text goes on with, after some of the class. -/
theorem prefix_takeWhile {p : Char → Bool} {xs cs : List Char} (hx : ∀ x ∈ xs, p x = true)
    (h : xs <+: cs) : xs <+: cs.takeWhile p := by
  obtain ⟨more, rfl⟩ := h
  rw [List.takeWhile_append_of_pos hx]
  exact List.prefix_append xs _

/-! ### How lexemes begin -/

theorem Keyword.spelled_as_word (k : Keyword) :
    ∃ c cs, k.spelling.toList = c :: cs ∧ IsLetter c ∧ ∀ d ∈ cs, IsLetter d ∨ IsDigit d := by
  have word : k.spelling.toList.tail.all isWordChar = true := by cases k <;> rfl
  have letters : ∀ d ∈ k.spelling.toList.tail, IsLetter d ∨ IsDigit d := fun d hd =>
    isWordChar_iff.mp (List.all_eq_true.mp word d hd)
  cases k <;> exact ⟨_, _, rfl, by decide, letters⟩

/-- No mark looks like the beginning of another lexeme. -/
theorem Punct.begins_apart {p : Punct} {c : Char} {cs : List Char} (h : p.chars = c :: cs) :
    c ≠ '"' ∧ ¬ IsDigit c ∧ ¬ IsLetter c := by
  cases p <;> obtain ⟨rfl, -⟩ := List.cons.inj h <;> decide

namespace Spells

variable {c : Char} {cs text : List Char} {kind : Kind}

theorem ne_nil (h : Spells text kind) : text ≠ [] := by
  cases h with
  | punct p => exact p.chars_ne_nil
  | keyword k =>
    obtain ⟨c, cs, hk, -⟩ := Keyword.spelled_as_word k
    simp [hk]
  | identifier => simp
  | whole hd => exact hd
  | fraction => simp
  | string => simp

/-- A lexeme is told by its first character. -/
theorem by_first (h : Spells (c :: cs) kind) :
    (c = '"' ∧ ∃ contents, '"' ∉ contents ∧ cs = contents ++ ['"'] ∧
      kind = .string (.ofList contents)) ∨
    (IsDigit c ∧ ∃ ds es, (∀ d ∈ ds, IsDigit d) ∧ (∀ d ∈ es, IsDigit d) ∧
      c :: cs = (if es = [] then ds else ds ++ '.' :: es) ∧ kind = numberKind ds es) ∨
    (IsLetter c ∧ (∀ d ∈ cs, IsLetter d ∨ IsDigit d) ∧ kind = wordKind (c :: cs)) ∨
    ∃ p : Punct, c :: cs = p.chars ∧ kind = .punct p := by
  generalize ht : c :: cs = text at h
  cases h with
  | punct p => exact .inr (.inr (.inr ⟨p, rfl, rfl⟩))
  | keyword k =>
    obtain ⟨d, ds, hk, hd, hds⟩ := Keyword.spelled_as_word k
    obtain ⟨rfl, rfl⟩ := List.cons.inj (ht.trans hk)
    refine .inr (.inr (.inl ⟨hd, hds, ?_⟩))
    cases k <;> rfl
  | identifier hd hds hn =>
    obtain ⟨rfl, rfl⟩ := List.cons.inj ht
    refine .inr (.inr (.inl ⟨hd, hds, ?_⟩))
    have hnone : Keyword.all.find? (fun k => k.spelling.toList == c :: cs) = none := by
      simpa using fun k _ => (hn k).symm
    simp only [wordKind, hnone]
  | whole _ hds =>
    have hc : IsDigit c := hds c (ht ▸ List.mem_cons_self)
    exact .inr (.inl ⟨hc, _, [], hds, by simp, rfl, rfl⟩)
  | @fraction ds es hne hds hes hes' =>
    obtain ⟨d, ds, rfl⟩ := List.exists_cons_of_ne_nil hne
    obtain ⟨rfl, -⟩ := List.cons.inj ht
    exact .inr (.inl ⟨hds c List.mem_cons_self, _, es, hds, hes', by rw [if_neg hes], rfl⟩)
  | @string contents hq =>
    obtain ⟨rfl, rfl⟩ := List.cons.inj ht
    exact .inl ⟨rfl, contents, hq, rfl, rfl⟩

theorem word (hc : IsLetter c) (hcs : ∀ d ∈ cs, IsLetter d ∨ IsDigit d) :
    Spells (c :: cs) (wordKind (c :: cs)) := by
  unfold wordKind
  split
  · next k hk =>
    have hs := List.find?_some hk
    rw [← eq_of_beq hs]
    exact keyword k
  · next hk =>
    refine identifier hc hcs fun k he => ?_
    exact List.find?_eq_none.1 hk k k.mem_all (by simp [he])

theorem begin_cons (h : Spells text kind) (hp : text <+: c :: cs) :
    ∃ text', text = c :: text' ∧ text' <+: cs := by
  obtain ⟨d, text', rfl⟩ := List.exists_cons_of_ne_nil h.ne_nil
  obtain ⟨rfl, hp'⟩ := List.cons_prefix_cons.1 hp
  exact ⟨text', rfl, hp'⟩

end Spells

/-! ### Words -/

theorem IsDigit.not_isLetter {c : Char} (h : IsDigit c) : ¬ IsLetter c := by
  obtain ⟨h0, h9⟩ := h
  rintro (⟨hA, -⟩ | ⟨ha, -⟩ | rfl)
  · exact absurd (Char.le_trans hA h9) (by decide)
  · exact absurd (Char.le_trans ha h9) (by decide)
  · exact absurd h9 (by decide)

theorem munch_word {c : Char} (cs : List Char) (hc : IsLetter c) :
    Munch (c :: cs) (Lexeme.word (c :: cs)).text (wordKind (Lexeme.word (c :: cs)).text) := by
  have hw : isWordChar c = true := isWordChar_iff.2 (.inl hc)
  have ht : (Lexeme.word (c :: cs)).text = c :: cs.takeWhile isWordChar := by
    simp only [Lexeme.word, List.takeWhile_cons, hw, if_true]
  refine ⟨?_, List.takeWhile_prefix _, fun other kind' ho hp => ?_⟩
  · rw [ht]
    exact .word hc fun d hd => isWordChar_iff.1 (List.mem_takeWhile_imp hd)
  · obtain ⟨other, rfl, hp'⟩ := ho.begin_cons hp
    rcases ho.by_first with ⟨rfl, -⟩ | ⟨hd, -⟩ | ⟨-, hds, -⟩ | ⟨p, hp, -⟩
    · exact absurd hc (by decide)
    · exact absurd hc hd.not_isLetter
    · rw [ht]
      have := (prefix_takeWhile (fun d hd => isWordChar_iff.2 (hds d hd)) hp').length_le
      simpa using this
    · exact absurd hc (Punct.begins_apart hp.symm).2.2

/-! ### Numbers -/

theorem Lexeme.number_of_fraction {ds es : List Char} {e : Char} (hds : ∀ d ∈ ds, IsDigit d)
    (hes : ∀ d ∈ e :: es, IsDigit d) (more : List Char) :
    Lexeme.number (ds ++ '.' :: e :: es ++ more) =
      ⟨ds ++ '.' :: (e :: es ++ more).takeWhile Char.isDigit,
        (e :: es ++ more).dropWhile Char.isDigit,
        .ok (numberKind ds ((e :: es ++ more).takeWhile Char.isDigit))⟩ := by
  have hp : ∀ d ∈ ds, Char.isDigit d = true := fun d hd => isDigit_iff.2 (hds d hd)
  have he : Char.isDigit e = true := isDigit_iff.2 (hes e List.mem_cons_self)
  have hdot : Char.isDigit '.' = false := by decide
  have ht : (ds ++ '.' :: (e :: (es ++ more))).takeWhile Char.isDigit = ds := by
    rw [List.takeWhile_append_of_pos hp, List.takeWhile_cons_of_neg (by simp [hdot]),
      List.append_nil]
  have hr : (ds ++ '.' :: (e :: (es ++ more))).dropWhile Char.isDigit =
      '.' :: (e :: (es ++ more)) := by
    rw [List.dropWhile_append_of_pos hp, List.dropWhile_cons_of_neg (by simp [hdot])]
  unfold Lexeme.number
  simp only [List.append_assoc, List.cons_append, ht, hr, he, if_true]

theorem Lexeme.digits_prefix_number (cs : List Char) :
    cs.takeWhile Char.isDigit <+: (Lexeme.number cs).text := by
  unfold Lexeme.number
  split
  · split
    · exact List.prefix_append _ _
    · exact List.prefix_refl _
  · exact List.prefix_refl _

theorem Lexeme.spells_number {cs : List Char} (hne : cs.takeWhile Char.isDigit ≠ []) :
    ∃ kind, (Lexeme.number cs).outcome = .ok kind ∧ Spells (Lexeme.number cs).text kind := by
  have hds : ∀ xs : List Char, ∀ d ∈ xs.takeWhile Char.isDigit, IsDigit d :=
    fun xs d hd => isDigit_iff.1 (List.mem_takeWhile_imp hd)
  unfold Lexeme.number
  split
  · next d rest _ =>
    split
    · next hd =>
      refine ⟨_, rfl, .fraction hne (hds cs) ?_ (hds (d :: rest))⟩
      simp [hd]
    · exact ⟨_, rfl, .whole hne (hds cs)⟩
  · exact ⟨_, rfl, .whole hne (hds cs)⟩

theorem munch_number {c : Char} (cs : List Char) (hc : IsDigit c) :
    ∃ kind, (Lexeme.number (c :: cs)).outcome = .ok kind ∧
      Munch (c :: cs) (Lexeme.number (c :: cs)).text kind := by
  have hne : (c :: cs).takeWhile Char.isDigit ≠ [] := by
    simp [isDigit_iff.2 hc]
  obtain ⟨kind, hk, hs⟩ := Lexeme.spells_number hne
  refine ⟨kind, hk, hs, ⟨_, Lexeme.number_append (c :: cs)⟩, fun other kind' ho hp => ?_⟩
  obtain ⟨text, rfl, -⟩ := ho.begin_cons hp
  rcases ho.by_first with ⟨rfl, -⟩ | ⟨-, ds, es, hds, hes, ht, -⟩ | ⟨hl, -⟩ | ⟨p, hq, -⟩
  · exact absurd hc (by decide)
  · rw [ht] at hp ⊢
    rcases es with _ | ⟨e, es⟩
    · have hw := prefix_takeWhile (fun d hd => isDigit_iff.2 (hds d hd)) hp
      exact (hw.trans (Lexeme.digits_prefix_number _)).length_le
    · obtain ⟨more, hmore⟩ := hp
      have hw : e :: es <+: (e :: es ++ more).takeWhile Char.isDigit :=
        prefix_takeWhile (fun d hd => isDigit_iff.2 (hes d hd)) (List.prefix_append _ more)
      rw [← hmore, if_neg (List.cons_ne_nil e es), Lexeme.number_of_fraction hds hes more]
      simpa using hw.length_le
  · exact absurd hl hc.not_isLetter
  · exact absurd hc (Punct.begins_apart hq.symm).2.1

/-! ### Strings -/

theorem Lexeme.string_of_closed {contents : List Char} (h : '"' ∉ contents) (more : List Char) :
    Lexeme.string (contents ++ '"' :: more) =
      ⟨'"' :: contents ++ ['"'], more, .ok (.string (.ofList contents))⟩ := by
  have hp : ∀ d ∈ contents, (d != '"') = true := by
    intro d hd
    exact bne_iff_ne.2 fun he => h (he ▸ hd)
  have ht : (contents ++ '"' :: more).takeWhile (· != '"') = contents := by
    rw [List.takeWhile_append_of_pos hp, List.takeWhile_cons_of_neg (by simp), List.append_nil]
  have hr : (contents ++ '"' :: more).dropWhile (· != '"') = '"' :: more := by
    rw [List.dropWhile_append_of_pos hp, List.dropWhile_cons_of_neg (by simp)]
  simp only [Lexeme.string, ht, hr]

theorem Lexeme.string_of_open {cs : List Char} (h : '"' ∉ cs) :
    Lexeme.string cs = ⟨'"' :: cs, [], .error .unterminated⟩ := by
  have hr : cs.dropWhile (· != '"') = [] := by
    rw [List.dropWhile_eq_nil_iff]
    intro d hd
    exact bne_iff_ne.2 fun he => h (he ▸ hd)
  simp only [Lexeme.string, hr]

theorem munch_string {contents : List Char} (h : '"' ∉ contents) (more : List Char) :
    Munch ('"' :: (contents ++ '"' :: more)) ('"' :: contents ++ ['"'])
      (.string (.ofList contents)) := by
  refine ⟨.string h, ⟨more, by simp⟩, fun other kind' ho hp => ?_⟩
  obtain ⟨text, rfl, hp'⟩ := ho.begin_cons hp
  rcases ho.by_first with ⟨-, contents', h', rfl, -⟩ | ⟨hd, -⟩ | ⟨hl, -⟩ | ⟨p, hq, -⟩
  · obtain ⟨more', he⟩ := hp'
    have hc : contents' = contents := by
      rw [List.append_assoc] at he
      have hs := congrArg Lexeme.text (congrArg Lexeme.string he)
      rw [List.singleton_append, Lexeme.string_of_closed h', Lexeme.string_of_closed h] at hs
      simpa using hs
    rw [hc]
    rfl
  · exact absurd hd (by decide)
  · exact absurd hl (by decide)
  · exact absurd rfl (Punct.begins_apart hq.symm).1

/-! ### Marks -/

/-- Of two marks at the start of one text the longer one is found. -/
theorem longestPunct?_length {p q : Punct} {cs : List Char} (h : longestPunct? cs = some p)
    (hq : q.chars <+: cs) : q.chars.length ≤ p.chars.length := by
  have hsorted : Punct.all.Pairwise fun p q => q.chars.length ≤ p.chars.length := by decide
  obtain ⟨-, before, after, hall, hnone⟩ := List.find?_eq_some_iff_append.1 h
  have hmem := q.mem_all
  rw [hall, List.pairwise_append, List.pairwise_cons] at hsorted
  rw [hall, List.mem_append, List.mem_cons] at hmem
  rcases hmem with hb | rfl | ha
  · have := hnone q hb
    simp [List.isPrefixOf_iff_prefix.2 hq] at this
  · exact le_rfl
  · exact hsorted.2.1.1 q ha

theorem munch_punct {c : Char} {cs : List Char} {p : Punct}
    (h : longestPunct? (c :: cs) = some p) : Munch (c :: cs) p.chars (.punct p) := by
  have hfound := List.find?_some (show Punct.all.find? _ = some p from h)
  have hp : p.chars <+: c :: cs := List.isPrefixOf_iff_prefix.1 hfound
  obtain ⟨text, ht, -⟩ := (Spells.punct p).begin_cons hp
  obtain ⟨hquote, hdigit, hletter⟩ := Punct.begins_apart ht
  refine ⟨.punct p, hp, fun other kind' ho hp' => ?_⟩
  obtain ⟨text', rfl, -⟩ := ho.begin_cons hp'
  rcases ho.by_first with ⟨hc, -⟩ | ⟨hd, -⟩ | ⟨hl, -⟩ | ⟨q, hq, -⟩
  · exact absurd hc hquote
  · exact absurd hd hdigit
  · exact absurd hl hletter
  · rw [hq] at hp' ⊢
    exact longestPunct?_length h hp'

/-! ### One kind for a lexeme -/

/-- Scanning a lexeme by itself finds its kind. -/
theorem Spells.outcome_eq {c : Char} {cs : List Char} {kind : Kind} (h : Spells (c :: cs) kind) :
    (Lexeme.of c cs).outcome = .ok kind := by
  have hq : IsDigit c ∨ IsLetter c → c ≠ '"' := by
    rintro h rfl
    exact absurd h (by decide)
  rcases h.by_first with ⟨rfl, contents, hc, rfl, rfl⟩ | ⟨hd, ds, es, hds, hes, ht, rfl⟩ |
    ⟨hl, hcs, rfl⟩ | ⟨p, hp, rfl⟩
  · rw [Lexeme.of, if_pos rfl, Lexeme.string_of_closed hc]
  · rw [Lexeme.of, if_neg (hq (.inl hd)), if_pos (isDigit_iff.2 hd), ht]
    rcases es with _ | ⟨e, es⟩
    · have hp : ∀ d ∈ ds, d.isDigit = true := fun d hd => isDigit_iff.2 (hds d hd)
      have hr : ds.dropWhile Char.isDigit = [] := List.dropWhile_eq_nil_iff.2 hp
      simp only [if_true, Lexeme.number, hr, List.takeWhile_eq_self_iff.2 hp]
    · have hp : ∀ d ∈ e :: es, d.isDigit = true := fun d hd => isDigit_iff.2 (hes d hd)
      have hn := Lexeme.number_of_fraction hds hes []
      rw [List.append_nil] at hn
      rw [if_neg (List.cons_ne_nil e es), hn, List.append_nil, List.takeWhile_eq_self_iff.2 hp]
  · have hd : c.isDigit = false := by
      rw [← Bool.not_eq_true, isDigit_iff]
      exact fun hd => hd.not_isLetter hl
    have hp : ∀ d ∈ c :: cs, isWordChar d = true := by
      intro d hd
      rcases List.mem_cons.1 hd with rfl | hd
      · exact isWordChar_iff.2 (.inl hl)
      · exact isWordChar_iff.2 (hcs d hd)
    simp only [Lexeme.of, if_neg (hq (.inr hl)), hd, isWordStart_iff.2 hl, Lexeme.word,
      List.takeWhile_eq_self_iff.2 hp, if_true, Bool.false_eq_true, if_false]
  · obtain ⟨hquote, hdigit, hletter⟩ := Punct.begins_apart hp.symm
    have hfound : longestPunct? p.chars = some p := by
      cases p <;> rfl
    rw [Lexeme.of, if_neg hquote, if_neg (fun h => hdigit (isDigit_iff.1 h)),
      if_neg (fun h => hletter (isWordStart_iff.1 h)), hp, hfound]

theorem Spells.unique {text : List Char} {kind kind' : Kind} (h : Spells text kind)
    (h' : Spells text kind') : kind = kind' := by
  obtain ⟨c, cs, rfl⟩ := List.exists_cons_of_ne_nil h.ne_nil
  exact Except.ok.inj (h.outcome_eq.symm.trans h'.outcome_eq)

theorem Munch.unique {r text text' : List Char} {kind kind' : Kind} (h : Munch r text kind)
    (h' : Munch r text' kind') : text = text' ∧ kind = kind' := by
  have hle := h'.longest text kind h.spells h.begins
  have hl := Nat.le_antisymm hle (h.longest text' kind' h'.spells h'.begins)
  have hprefix := List.prefix_of_prefix_length_le h.begins h'.begins hle
  obtain rfl := hprefix.eq_of_length hl
  exact ⟨rfl, h.spells.unique h'.spells⟩

/-- A quote that is never closed begins no lexeme. -/
theorem Spells.not_prefix_of_open {contents text : List Char} {kind : Kind} (h : Spells text kind)
    (hc : '"' ∉ contents) : ¬ text <+: '"' :: contents := by
  intro hp
  obtain ⟨text', rfl, hp'⟩ := h.begin_cons hp
  rcases h.by_first with ⟨-, contents', -, rfl, -⟩ | ⟨hd, -⟩ | ⟨hl, -⟩ | ⟨p, hq, -⟩
  · exact hc (hp'.mem (by simp))
  · exact absurd hd (by decide)
  · exact absurd hl (by decide)
  · exact (Punct.begins_apart hq.symm).1 rfl

/-! ### The item at the start of a text -/

theorem Lexeme.yields_munch {l : Lexeme} {r : List Char} {kind : Kind} (line : Nat)
    (ho : l.outcome = .ok kind) (hr : l.text ++ l.rest = r) (hm : Munch r l.text kind) :
    Yields line r (l.item line) l.rest := by
  simp only [item, ho]
  exact .token hm hr.symm

theorem Lexeme.yields_of (line : Nat) (c : Char) (cs : List Char) :
    Yields line (c :: cs) ((Lexeme.of c cs).item line) (Lexeme.of c cs).rest := by
  have happend := Lexeme.of_append c cs
  unfold Lexeme.of at happend ⊢
  split
  · next hc =>
    subst hc
    by_cases hq : '"' ∈ cs
    · obtain ⟨contents, more, rfl, hcontents⟩ := List.eq_append_cons_of_mem hq
      rw [Lexeme.string_of_closed hcontents]
      exact yields_munch line rfl (by simp) (munch_string hcontents more)
    · rw [Lexeme.string_of_open hq]
      exact .unterminated hq rfl
  next hc =>
  rw [if_neg hc] at happend
  split
  · next hd =>
    obtain ⟨kind, hk, hm⟩ := munch_number cs (isDigit_iff.1 hd)
    exact yields_munch line hk (Lexeme.number_append _) hm
  next hd =>
  rw [if_neg hd] at happend
  split
  · next hl =>
    exact yields_munch line rfl (Lexeme.word_append _) (munch_word cs (isWordStart_iff.1 hl))
  next hl =>
  rw [if_neg hl] at happend
  split
  · next p hp =>
    rw [hp] at happend
    exact yields_munch line rfl happend (munch_punct hp)
  · next hp =>
    refine .unexpected (fun text kind hs hprefix => ?_) (fun contents _ he => ?_) rfl
    · obtain ⟨text, rfl, -⟩ := hs.begin_cons hprefix
      rcases hs.by_first with ⟨hq, -⟩ | ⟨hd', -⟩ | ⟨hl', -⟩ | ⟨p, hq, -⟩
      · exact hc hq
      · exact hd (isDigit_iff.2 hd')
      · exact hl (isWordStart_iff.2 hl')
      · rw [hq] at hprefix
        exact List.find?_eq_none.1 hp p p.mem_all (List.isPrefixOf_iff_prefix.2 hprefix)
    · exact hc (List.cons.inj he).1

namespace Yields

variable {line : Nat} {r rest rest' : List Char} {item item' : Item}

theorem ne_nil (h : Yields line r item rest) : r ≠ [] := by
  rcases h with ⟨hm, rfl⟩ | ⟨-, rfl⟩ | ⟨-, -, rfl⟩
  · simp [hm.spells.ne_nil]
  · simp
  · simp

/-- One item at most stands at the start of a text. -/
theorem unique (h : Yields line r item rest) (h' : Yields line r item' rest') :
    item = item' ∧ rest = rest' := by
  cases h with
  | token hm hr =>
    cases h' with
    | token hm' hr' =>
      obtain ⟨rfl, rfl⟩ := hm.unique hm'
      exact ⟨rfl, List.append_cancel_left (hr.symm.trans hr')⟩
    | unterminated hc hr' => exact absurd (hr' ▸ hm.begins) (hm.spells.not_prefix_of_open hc)
    | unexpected hn _ _ => exact absurd hm.begins (hn _ _ hm.spells)
  | unterminated hc hr =>
    cases h' with
    | token hm' _ => exact absurd (hr ▸ hm'.begins) (hm'.spells.not_prefix_of_open hc)
    | unterminated => exact ⟨rfl, rfl⟩
    | unexpected _ hn _ => exact absurd hr (hn _ hc)
  | unexpected hn ho hr =>
    cases h' with
    | token hm' _ => exact absurd hm'.begins (hn _ _ hm'.spells)
    | unterminated hc hr' => exact absurd hr' (ho _ hc)
    | unexpected _ _ hr' =>
      obtain ⟨rfl, rfl⟩ := List.cons.inj (hr.symm.trans hr')
      exact ⟨rfl, rfl⟩

end Yields

/-! ### Blanks and comments -/

theorem isBlank_iff {c : Char} : isBlank c = true ↔ c = ' ' ∨ c = '\r' ∨ c = '\t' ∨ c = '\n' := by
  simp only [isBlank, Bool.or_eq_true, beq_iff_eq, or_assoc]

/-- A comment is skipped up to the end of its line. -/
theorem skip_comment (cs : List Char) :
    (skip true cs).2 = (skip false (cs.dropWhile (· != '\n'))).2 := by
  induction cs with
  | nil => rfl
  | cons c cs ih =>
    by_cases hc : c = '\n'
    · subst hc
      rw [List.dropWhile_cons_of_neg (by simp), skip_cons (by simp), if_pos (by decide)]
      simp only [skip, bne_self_eq_false]
    · have hb : (c != '\n') = true := bne_iff_ne.2 hc
      rw [List.dropWhile_cons_of_pos (by simpa using hc), ← ih]
      simp only [skip, hb]

/-- A comment is left at the line break or at the end of the text. -/
theorem head?_dropWhile_line (cs : List Char) :
    cs.dropWhile (· != '\n') = [] ∨ (cs.dropWhile (· != '\n')).head? = some '\n' := by
  rcases hd : cs.dropWhile (· != '\n') with _ | ⟨c, rest⟩
  · exact .inl rfl
  · have hne : cs.dropWhile (· != '\n') ≠ [] := by
      rw [hd]
      exact List.cons_ne_nil c rest
    have hc := List.head_dropWhile_not (· != '\n') hne
    simp only [hd, List.head_cons, bne_eq_false_iff_eq] at hc
    exact .inr (by rw [hc, List.head?_cons])

theorem skips_skip (cs : List Char) : Skips cs (skip false cs).2 := by
  -- A comment is skipped at once, so the induction is on the length of the text.
  induction hn : cs.length using Nat.strong_induction_on generalizing cs with
  | _ n ih =>
    subst hn
    rcases cs with _ | ⟨c, cs⟩
    · exact .stop (by simp) (by simp)
    by_cases hcomment : ∃ rest, c = '/' ∧ cs = '/' :: rest
    · obtain ⟨rest, rfl, rfl⟩ := hcomment
      have hbody : '\n' ∉ rest.takeWhile (· != '\n') := by
        intro hm
        simpa using List.mem_takeWhile_imp hm
      have hsuffix : rest.dropWhile (· != '\n') <:+ rest := List.dropWhile_suffix _
      have hshort := hsuffix.length_le
      have hrest := ih _ (by simp only [List.length_cons]; omega) (rest.dropWhile (· != '\n')) rfl
      rw [← skip_comment] at hrest
      have h := Skips.comment hbody (head?_dropWhile_line rest) hrest
      rwa [List.cons_append, List.cons_append, List.takeWhile_append_dropWhile] at h
    · rw [skip_cons fun rest hc hcs => hcomment ⟨rest, hc, hcs⟩]
      split
      · next hb => exact .blank (isBlank_iff.1 hb) (ih _ (by simp) cs rfl)
      · next hb =>
        refine .stop (fun d hd => ?_) fun ⟨more, hm⟩ => ?_
        · obtain rfl : c = d := by simpa using hd
          simpa [isBlank_iff] using hb
        · obtain ⟨rfl, rfl⟩ := List.cons.inj hm
          exact hcomment ⟨_, rfl, rfl⟩

theorem Skips.skip_eq {cs r : List Char} (h : Skips cs r) : (skip false cs).2 = r := by
  induction h with
  | @blank c cs r hc _ ih =>
    have hs : ∀ rest, c = '/' → cs = '/' :: rest → False := by
      rintro rest rfl -
      exact absurd hc (by decide)
    rw [skip_cons hs, if_pos (isBlank_iff.2 hc), ih]
  | @comment body rest r hb hr _ ih =>
    have hp : ∀ c ∈ body, (c != '\n') = true := by
      intro c hc
      exact bne_iff_ne.2 fun he => hb (he ▸ hc)
    have hdrop : (body ++ rest).dropWhile (· != '\n') = rest := by
      rw [List.dropWhile_append_of_pos hp]
      rcases hr with rfl | hr
      · rfl
      · obtain ⟨more, rfl⟩ := List.head?_eq_some_iff.1 hr
        rw [List.dropWhile_cons_of_neg (by simp)]
    rw [List.cons_append, List.cons_append, skip]
    exact (skip_comment _).trans (hdrop.symm ▸ ih)
  | @stop r hblank hslash =>
    rcases r with _ | ⟨c, cs⟩
    · rfl
    · have hs : ∀ rest, c = '/' → cs = '/' :: rest → False := by
        rintro rest rfl rfl
        exact hslash ⟨rest, rfl⟩
      have hb : ¬ isBlank c = true := by
        simpa [isBlank_iff] using hblank c rfl
      rw [skip_cons hs, if_neg hb]

theorem skips_iff {cs r : List Char} : Skips cs r ↔ (skip false cs).2 = r :=
  ⟨Skips.skip_eq, fun h => h ▸ skips_skip cs⟩

/-! ### Whole texts -/

theorem Munches.items_eq {line : Nat} {cs : List Char} {items : List Item}
    (h : Munches line cs items) : items = (pieces line cs).map (·.item) := by
  induction h with
  | @eof line cs hs =>
    have happend := skip_append false cs
    rw [hs.skip_eq, List.append_nil] at happend
    rw [pieces_of_blank line hs.skip_eq, happend]
    rfl
  | @item line taken r rest item items hs hy _ ih =>
    obtain ⟨c, cs, rfl⟩ := List.exists_cons_of_ne_nil hy.ne_nil
    have happend := skip_append false (taken ++ rest)
    rw [hs.skip_eq, ← Lexeme.of_append c cs] at happend
    obtain ⟨hitem, hrest⟩ := hy.unique (Lexeme.yields_of _ c cs)
    rw [← hrest, ← List.append_assoc] at happend
    have htaken := List.append_cancel_right happend
    have hline : line + newlines (skip false (taken ++ rest)).1 + newlines (Lexeme.of c cs).text =
        line + newlines taken := by
      rw [Nat.add_assoc, ← newlines_append, htaken]
    rw [pieces_of_lexeme line hs.skip_eq, List.map_cons, hline, ← hrest, ← ih, hitem]

theorem munches_pieces (line : Nat) (cs : List Char) :
    Munches line cs ((pieces line cs).map (·.item)) := by
  fun_induction pieces line cs with
  | case1 line cs blank hs =>
    have happend := skip_append false cs
    rw [hs, List.append_nil] at happend
    rw [List.map_cons, List.map_nil]
    simp only [blank, happend]
    exact .eof (skips_iff.2 hs)
  | case2 line cs blank c rest hs lexeme last _ ih =>
    have happend := skip_append false cs
    rw [hs, ← Lexeme.of_append c rest, ← List.append_assoc] at happend
    have hlast : last = line + newlines (blank ++ lexeme.text) := by
      rw [newlines_append, ← Nat.add_assoc]
    rw [List.map_cons, ← happend]
    rw [hlast] at ih ⊢
    exact .item (happend.symm ▸ skips_iff.2 hs) (Lexeme.yields_of _ c rest) ih

/-- The scanner is maximal munch: its items are the ones that the lexical grammar has. -/
theorem munches_iff_scan {source : String} {items : List Item} :
    Munches 1 source.toList items ↔ scan source = items :=
  ⟨fun h => h.items_eq.symm, fun h => h ▸ munches_pieces 1 source.toList⟩

end Lox.Lexer
