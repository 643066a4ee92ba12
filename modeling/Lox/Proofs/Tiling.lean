import Lox.Proofs.Cursor

/-!
# The cursor loses nothing

What a cursor yields are the items of the lexer, and the pieces of text that it consumes for them
cover the source. It never cuts a character, each call before the end consumes something, and after
the end marker every call yields nothing (`calls_tile`).
-/

namespace Lox.Lexer

/-- What is consumed for an item before the end of the text. -/
inductive Consumed : List Char → Item → Prop
  | token {text : List Char} {kind : Kind} {line : Nat} :
    text ≠ [] → kind ≠ .eof → Consumed text (.ok ⟨kind, .ofList text, line⟩)
  | unexpected {c : Char} {line : Nat} : Consumed [c] (.error ⟨.unexpected c, line⟩)
  | unterminated {contents : List Char} {line : Nat} :
    '"' ∉ contents → Consumed ('"' :: contents) (.error ⟨.unterminated, line⟩)

/-- The end marker, behind the last blanks and comments. -/
def Piece.last (blank : List Char) (line : Nat) : Piece := ⟨blank, [], .ok ⟨.eof, "", line⟩⟩

namespace Cursor

variable {before rest cs : List Char} {start line : Nat} {c : Char}

/-! ### Marks -/

theorem chars_of_mark? {p : Punct} (h : mark? c = some p) : p.chars = [c] := by
  unfold mark? at h
  split at h <;> cases h <;> rfl

theorem chars_of_pair? {matched single : Punct} (h : pair? c = some (matched, single)) :
    matched.chars = [c, '='] ∧ single.chars = [c] := by
  unfold pair? at h
  split at h <;> cases h <;> exact ⟨rfl, rfl⟩

theorem longestPunct?_of_mark? {p : Punct} (h : mark? c = some p) (cs : List Char) :
    longestPunct? (c :: cs) = some p := by
  unfold mark? at h
  split at h <;> cases h <;> rfl

theorem longestPunct?_of_pair? {matched single : Punct} (h : pair? c = some (matched, single))
    (cs : List Char) :
    longestPunct? (c :: cs) = some (if cs.head? = some '=' then matched else single) := by
  unfold pair? at h
  rcases cs with _ | ⟨d, cs⟩
  · split at h <;> cases h <;> rfl
  · by_cases hd : d = '='
    · subst hd
      split at h <;> cases h <;> rfl
    · have hd' : ('=' == d) = false := by simpa using Ne.symm hd
      split at h <;> cases h <;>
        simp [longestPunct?, Punct.all, List.find?, Punct.chars, List.isPrefixOf, hd, hd']

theorem longestPunct?_eq_none (hm : mark? c = none) (hp : pair? c = none) (cs : List Char) :
    longestPunct? (c :: cs) = none := by
  refine List.find?_eq_none.2 fun p _ hprefix => ?_
  obtain ⟨more, hmore⟩ := List.isPrefixOf_iff_prefix.1 hprefix
  cases p <;> obtain ⟨rfl, -⟩ := List.cons.inj hmore <;>
    first | exact absurd hm (by decide) | exact absurd hp (by decide)

theorem narrow_of_mem_chars {p : Punct} (h : c ∈ p.chars) : c.toNat < 128 := by
  have hall : (p.chars.all fun c => decide (c.toNat < 128)) = true := by
    cases p <;> rfl
  simpa using List.all_eq_true.1 hall c h

theorem uniform_mark? : Uniform mark? :=
  ⟨none, fun c hc => Option.eq_none_iff_forall_ne_some.2 fun p h =>
    absurd (narrow_of_mem_chars (by simp [chars_of_mark? h] : c ∈ p.chars)) (Nat.not_lt.2 hc)⟩

theorem uniform_pair? : Uniform pair? :=
  ⟨none, fun c hc => Option.eq_none_iff_forall_ne_some.2 fun (m, s) h =>
    absurd (narrow_of_mem_chars (by simp [chars_of_pair? h] : c ∈ m.chars)) (Nat.not_lt.2 hc)⟩

/-! ### Lexemes -/

theorem newlines_takeWhile {p : Char → Bool} (h : p '\n' = false) (cs : List Char) :
    newlines (cs.takeWhile p) = 0 :=
  List.count_eq_zero.2 fun hm => by simpa [h] using List.mem_takeWhile_imp hm

/-- What a lexeme is and where it leaves the cursor. -/
def after (before : List Char) (line : Nat) (l : Lexeme) : Except Fault Kind × Cursor :=
  (l.outcome, between (before ++ l.text) l.rest (width before) (line + newlines l.text))

theorem lexeme_between (taken : List Char) :
    (between (before ++ taken) rest (width before) line).lexeme = .ok (.ofList taken) :=
  slice_ofList before taken rest

theorem withEqual_between (matched single : Punct) :
    (between before cs start line).withEqual matched single =
      if cs.head? = some '=' then (matched, between (before ++ ['=']) cs.tail start line)
      else (single, between before cs start line) := by
  rw [withEqual, atEnd_between]
  rcases cs with _ | ⟨d, cs⟩
  · rfl
  · by_cases hd : d = '='
    · subst hd
      rw [if_pos ⟨rfl, (look_eq_iff (by decide)).2 rfl⟩, step_between (by decide)]
      rfl
    · rw [if_neg fun h => hd ((look_eq_iff (by decide)).1 h.2), if_neg (by simpa using hd)]

/-- Between the quotes of a string. -/
theorem contents_between (before contents more : List Char) (line : Nat) :
    let c := between (before ++ ['"'] ++ contents ++ ['"']) more (width before) line
    slice c.text (c.start + 1) (c.pos - 1) = .ok (.ofList contents) := by
  intro c
  have htext : c.text = .ofList (before ++ ['"'] ++ contents ++ '"' :: more) :=
    congrArg String.ofList (List.append_assoc _ ['"'] more)
  have hfirst : c.start + 1 = width (before ++ ['"']) := (width_append before ['"']).symm
  have hlast : c.pos - 1 = width (before ++ ['"'] ++ contents) :=
    congrArg (· - 1) (width_append (before ++ ['"'] ++ contents) ['"'])
  rw [htext, hfirst, hlast]
  exact slice_ofList _ contents _

theorem string_between :
    (between (before ++ ['"']) cs (width before) line).string =
      .ok (after before line (Lexeme.string cs)) := by
  rw [string, toQuote_between, atEnd_between]
  by_cases hq : '"' ∈ cs
  · obtain ⟨contents, more, rfl, hc⟩ := List.eq_append_cons_of_mem hq
    have hp : ∀ d ∈ contents, (d != '"') = true := fun d hd => bne_iff_ne.2 fun he => hc (he ▸ hd)
    have ht : (contents ++ '"' :: more).takeWhile (· != '"') = contents := by
      rw [List.takeWhile_append_of_pos hp, List.takeWhile_cons_of_neg (by simp), List.append_nil]
    have hr : (contents ++ '"' :: more).dropWhile (· != '"') = '"' :: more := by
      rw [List.dropWhile_append_of_pos hp, List.dropWhile_cons_of_neg (by simp)]
    have hclosed : newlines ('"' :: contents ++ ['"']) = newlines contents := by
      simp [newlines]
    rw [ht, hr, Lexeme.string_of_closed hc, if_neg (by simp), step_between (by decide)]
    have hcontents := contents_between before contents more (line + newlines contents)
    simp only [hcontents, after, hclosed]
    simp only [bind, Except.bind, pure, Except.pure, List.append_assoc, List.cons_append,
      List.nil_append]
  · have hp : ∀ d ∈ cs, (d != '"') = true := fun d hd => bne_iff_ne.2 fun he => hq (he ▸ hd)
    have ht : cs.takeWhile (· != '"') = cs := List.takeWhile_eq_self_iff.2 hp
    have hr : cs.dropWhile (· != '"') = [] := List.dropWhile_eq_nil_iff.2 hp
    have hn : newlines ('"' :: cs) = newlines cs := by simp [newlines]
    rw [ht, hr, Lexeme.string_of_open hq]
    simp only [after, List.isEmpty_nil, if_true, hn, List.append_assoc, List.singleton_append]

theorem word_between (hc : isWordChar c) :
    (between (before ++ [c]) cs (width before) line).word =
      .ok (after before line (Lexeme.word (c :: cs))) := by
  have ht : (c :: cs).takeWhile isWordChar = c :: cs.takeWhile isWordChar :=
    List.takeWhile_cons_of_pos hc
  have hr : (c :: cs).dropWhile isWordChar = cs.dropWhile isWordChar :=
    List.dropWhile_cons_of_pos hc
  rw [word, stepWhile_between uniform_isWordChar, List.append_assoc, List.singleton_append, ← ht,
    ← hr, lexeme_between]
  simp only [after, Lexeme.word, newlines_takeWhile (p := isWordChar) (by decide), bind,
    Except.bind, pure, Except.pure, String.toList_ofList, Nat.add_zero]

theorem numberOf_whole {ds : List Char} (h : ∀ d ∈ ds, d.isDigit = true) :
    numberOf (.ofList ds) = numberKind ds [] := by
  rw [numberOf, String.toList_ofList, List.takeWhile_eq_self_iff.2 h, List.dropWhile_eq_nil_iff.2 h]
  rfl

theorem numberOf_fraction {ds : List Char} (h : ∀ d ∈ ds, d.isDigit = true) (es : List Char) :
    numberOf (.ofList (ds ++ '.' :: es)) = numberKind ds es := by
  rw [numberOf, String.toList_ofList, List.takeWhile_append_of_pos h,
    List.dropWhile_append_of_pos h, List.takeWhile_cons_of_neg (by decide),
    List.dropWhile_cons_of_neg (by decide), List.append_nil]
  rfl

theorem number_of_whole (h : ¬ ∃ d more, cs.dropWhile Char.isDigit = '.' :: d :: more ∧ d.isDigit) :
    Lexeme.number cs = ⟨cs.takeWhile Char.isDigit, cs.dropWhile Char.isDigit,
      .ok (numberKind (cs.takeWhile Char.isDigit) [])⟩ := by
  unfold Lexeme.number
  split
  · next d more hr => rw [if_neg fun hd => h ⟨d, more, hr, hd⟩, hr]
  · rfl

theorem number_of_point {d : Char} {more : List Char}
    (hr : cs.dropWhile Char.isDigit = '.' :: d :: more) (hd : d.isDigit) :
    Lexeme.number cs =
      ⟨cs.takeWhile Char.isDigit ++ '.' :: (d :: more).takeWhile Char.isDigit,
        (d :: more).dropWhile Char.isDigit,
        .ok (numberKind (cs.takeWhile Char.isDigit) ((d :: more).takeWhile Char.isDigit))⟩ := by
  simp only [Lexeme.number, hr, hd, if_true]

/-- The cursor stands before a point with a digit behind it. -/
theorem point_iff :
    ((between before rest start line).look 0 = '.' ∧
        ((between before rest start line).look 1).isDigit = true) ↔
      ∃ d more, rest = '.' :: d :: more ∧ d.isDigit = true := by
  constructor
  · rintro ⟨hfirst, hsecond⟩
    rcases rest with _ | ⟨c, _ | ⟨d, more⟩⟩
    · rw [look_end] at hfirst
      exact absurd hfirst (by decide)
    · obtain rfl := (look_eq_iff (by decide)).1 hfirst
      rw [look_succ (by decide), look_end] at hsecond
      exact absurd hsecond (by decide)
    · obtain rfl := (look_eq_iff (by decide)).1 hfirst
      rw [look_succ (by decide), look_uniform uniform_isDigit] at hsecond
      exact ⟨d, more, rfl, hsecond⟩
  · rintro ⟨d, more, rfl, hd⟩
    refine ⟨(look_eq_iff (by decide)).2 rfl, ?_⟩
    rw [look_succ (by decide), look_uniform uniform_isDigit, hd]

theorem number_between (hc : c.isDigit) :
    (between (before ++ [c]) cs (width before) line).number =
      .ok (after before line (Lexeme.number (c :: cs))) := by
  have ht : (c :: cs).takeWhile Char.isDigit = c :: cs.takeWhile Char.isDigit :=
    List.takeWhile_cons_of_pos hc
  have hr : (c :: cs).dropWhile Char.isDigit = cs.dropWhile Char.isDigit :=
    List.dropWhile_cons_of_pos hc
  have hds : ∀ d ∈ (c :: cs).takeWhile Char.isDigit, d.isDigit = true :=
    fun d hd => List.mem_takeWhile_imp hd
  have hn : ∀ cs : List Char, newlines (cs.takeWhile Char.isDigit) = 0 :=
    newlines_takeWhile (by decide)
  rw [number, stepWhile_between uniform_isDigit, List.append_assoc, List.singleton_append, ← ht,
    ← hr]
  by_cases hpoint : ∃ d more, (c :: cs).dropWhile Char.isDigit = '.' :: d :: more ∧ d.isDigit
  · obtain ⟨d, more, hrest, hd⟩ := hpoint
    have hfraction : newlines ((c :: cs).takeWhile Char.isDigit ++
        '.' :: (d :: more).takeWhile Char.isDigit) = 0 := by
      rw [newlines_append, hn, ← List.singleton_append, newlines_append, hn]
      rfl
    simp only [if_pos (point_iff.2 ⟨d, more, hrest, hd⟩)]
    rw [number_of_point hrest hd, hrest, step_between (by decide),
      stepWhile_between uniform_isDigit, List.append_assoc, List.append_assoc,
      List.singleton_append, lexeme_between]
    simp only [after, hfraction, numberOf_fraction hds, bind, Except.bind, pure, Except.pure,
      Nat.add_zero]
  · simp only [if_neg (mt point_iff.1 hpoint), number_of_whole hpoint, lexeme_between]
    simp only [after, hn, numberOf_whole hds, bind, Except.bind, pure, Except.pure, Nat.add_zero]

theorem unexpected_between (hc : c ≠ '\n') (k : Nat) :
    ({ between before (c :: cs) (width before) line with pos := k } : Cursor).unexpected =
      .ok (after before line ⟨[c], cs, .error (.unexpected c)⟩) := by
  have hwhole := slice_ofList before (c :: cs) []
  have hlength :
      ({ between before (c :: cs) (width before) line with pos := k } : Cursor).octets.length =
        width (before ++ c :: cs) := length_octetsOf_ofList _
  have hsize : width (before ++ [c]) = width before + c.utf8Size := by
    rw [width_append]
    simp [width]
  have hn : newlines [c] = 0 := List.count_eq_zero.2 (by simpa using Ne.symm hc)
  rw [List.append_nil] at hwhole
  rw [unexpected, hlength]
  simp only [between, hwhole, after, hn, hsize, bind, Except.bind, pure, Except.pure,
    String.toList_ofList, List.headD_cons, Nat.add_zero, List.append_assoc, List.singleton_append]

theorem of_punct {p : Punct} (h : longestPunct? (c :: cs) = some p) :
    Lexeme.of c cs = ⟨p.chars, (c :: cs).drop p.chars.length, .ok (.punct p)⟩ := by
  have hfound := List.find?_some (show Punct.all.find? _ = some p from h)
  obtain ⟨text, ht, -⟩ := (Spells.punct p).begin_cons (List.isPrefixOf_iff_prefix.1 hfound)
  obtain ⟨hquote, hdigit, hletter⟩ := Punct.begins_apart ht
  rw [Lexeme.of, if_neg hquote, if_neg (mt isDigit_iff.1 hdigit),
    if_neg (mt isWordStart_iff.1 hletter), h]

theorem newlines_chars (p : Punct) : newlines p.chars = 0 := by cases p <;> rfl

theorem uniform_isWordStart : Uniform isWordStart :=
  .of_narrow fun _ h => (isWordStart_iff.1 h).narrow

/-- The cursor reads what the lexer reads. -/
theorem readLexeme_between (before cs : List Char) (line : Nat) (hc : c ≠ '\n') :
    (between before (c :: cs) (width before) line).readLexeme =
      .ok (after before line (Lexeme.of c cs)) := by
  rw [readLexeme, look_uniform uniform_mark?, look_uniform uniform_pair?]
  -- In the order of the tests: a mark that stands alone, one that `=` may follow, a longer lexeme.
  cases hm : mark? c with
  | some p =>
    have hchars := chars_of_mark? hm
    have hnarrow : c.toNat < 128 := narrow_of_mem_chars (p := p) (by simp [hchars])
    have hn := newlines_chars p
    rw [of_punct (longestPunct?_of_mark? hm cs), step_between hnarrow]
    rw [hchars] at hn ⊢
    simp only [after, hn, List.length_singleton, List.drop_succ_cons, List.drop_zero, Nat.add_zero]
  | none =>
    cases hp : pair? c with
    | some pair =>
      obtain ⟨matched, single⟩ := pair
      obtain ⟨hmatched, hsingle⟩ := chars_of_pair? hp
      have hnarrow : c.toNat < 128 := narrow_of_mem_chars (p := single) (by simp [hsingle])
      have hn := newlines_chars
      rw [of_punct (longestPunct?_of_pair? hp cs), step_between hnarrow]
      simp only [withEqual_between, after, hn, Nat.add_zero]
      split
      · next he =>
        obtain ⟨more, rfl⟩ := List.head?_eq_some_iff.1 he
        rw [hmatched, List.append_assoc]
        rfl
      · rw [hsingle]
        rfl
    | none =>
      have hnone := longestPunct?_eq_none hm hp cs
      simp only [look_eq_iff (d := '"') (by decide), look_uniform uniform_isDigit,
        look_uniform uniform_isWordStart, Lexeme.of, hnone]
      split
      · next hq =>
        subst hq
        rw [step_between (by decide), string_between]
      split
      · next hd => rw [step_between (isDigit_iff.1 hd).narrow, number_between hd]
      split
      · next hl =>
        have hw : isWordChar c = true := isWordChar_iff.2 (.inl (isWordStart_iff.1 hl))
        rw [step_between (isWordStart_iff.1 hl).narrow, word_between hw]
      · exact unexpected_between hc _

/-! ### Calls -/

/-- A cursor that has handed out the end marker. -/
def finish (c : Cursor) : Cursor := { c with finished := true }

theorem next_of_end (h : (skip false rest).2 = []) :
    (between before rest start line).next =
      .ok (some (.ok ⟨.eof, "", line + newlines rest⟩),
        finish (between (before ++ rest) [] start (line + newlines rest))) := by
  have hblank : (skip false rest).1 = rest := by
    simpa [h] using skip_append false rest
  have hfinished : ¬ (between before rest start line).finished = true := Bool.false_ne_true
  simp only [next, if_neg hfinished, skipTrivia_between, atEnd_between, h, hblank, List.isEmpty_nil,
    if_true]
  rfl

theorem ne_newline_of_skips (h : Skips rest (c :: cs)) : c ≠ '\n' := by
  generalize hr : c :: cs = r at h
  induction h with
  | blank _ _ ih => exact ih hr
  | comment _ _ _ ih => exact ih hr
  | stop hb => exact (hb c (hr ▸ rfl)).2.2.2

theorem next_of_lexeme (before : List Char) (start line : Nat) (h : (skip false rest).2 = c :: cs) :
    let blank := (skip false rest).1
    let lexeme := Lexeme.of c cs
    let last := line + newlines blank + newlines lexeme.text
    (between before rest start line).next =
      .ok (some (lexeme.item last),
        between (before ++ blank ++ lexeme.text) lexeme.rest (width (before ++ blank)) last) := by
  intro blank lexeme last
  have hfinished : ¬ (between before rest start line).finished = true := Bool.false_ne_true
  have hread := readLexeme_between (before ++ blank) cs (line + newlines blank)
    (ne_newline_of_skips (h ▸ skips_skip rest))
  simp only [next, if_neg hfinished, skipTrivia_between, atEnd_between, h, List.isEmpty_cons,
    Bool.false_eq_true, if_false]
  change ((between (before ++ blank) (c :: cs) (width (before ++ blank))
    (line + newlines blank)).readLexeme >>= _) = _
  rw [hread]
  cases ho : (Lexeme.of c cs).outcome with
  | error fault =>
    simp only [after, lexeme, Lexeme.item, ho, bind, Except.bind, pure, Except.pure]
    rfl
  | ok kind =>
    simp only [after, lexeme_between, lexeme, Lexeme.item, ho, bind, Except.bind, pure, Except.pure]
    rfl

theorem calls_finished (n : Nat) {c : Cursor} (h : c.finished = true) :
    calls n c = .ok (.replicate n none, c) := by
  induction n with
  | zero => rfl
  | succ n ih =>
    rw [calls, next, if_pos h]
    simp only [bind, Except.bind, pure, Except.pure, ih, List.replicate_succ]

/-- Where a cursor stands when these pieces of a text have been read. -/
structure Stands (c : Cursor) (before : List Char) (text : String) : Prop where
  start : (⟨c.start⟩ : String.Pos.Raw).IsValid text
  pos : (⟨c.pos⟩ : String.Pos.Raw).IsValid text
  reach : c.pos = width before

theorem isValid_width (xs ys : List Char) :
    (⟨width xs⟩ : String.Pos.Raw).IsValid (.ofList (xs ++ ys)) :=
  String.Pos.Raw.isValid_iff_exists_append.2 ⟨.ofList xs, .ofList ys, by rw [String.ofList_append],
    rfl⟩

theorem stands_between (h : (⟨start⟩ : String.Pos.Raw).IsValid (.ofList (before ++ rest))) :
    (between before rest start line).Stands before (.ofList (before ++ rest)) :=
  ⟨h, isValid_width before rest, rfl⟩

/-- Calls yield the items of the pieces, and then nothing. -/
theorem calls_between (n line : Nat)
    (hs : (⟨start⟩ : String.Pos.Raw).IsValid (.ofList (before ++ rest))) :
    ∃ c, calls n (between before rest start line) =
        .ok (((pieces line rest).take n).map (some ·.item) ++
          .replicate (n - (pieces line rest).length) none, c) ∧
      c.Stands (before ++ join ((pieces line rest).take n)) (.ofList (before ++ rest)) := by
  -- A call hands out the first piece, and the others are the pieces of the text behind it.
  induction n generalizing before rest start line with
  | zero =>
    refine ⟨between before rest start line, ?_, ?_⟩
    · rw [calls, List.take_zero, List.map_nil, Nat.zero_sub, List.replicate_zero, List.append_nil]
    · simpa only [List.take_zero, join, List.flatMap_nil, List.append_nil] using stands_between hs
  | succ n ih =>
    rcases hskip : (skip false rest).2 with _ | ⟨c, cs⟩
    · have hall : (skip false rest).1 = rest := by
        simpa [hskip] using skip_append false rest
      refine ⟨finish (between (before ++ rest) [] start (line + newlines rest)), ?_, ?_⟩
      · rw [calls, next_of_end hskip, pieces_of_blank line hskip, hall]
        simp only [bind, Except.bind, pure, Except.pure, calls_finished n (c := finish _) rfl,
          List.take_succ_cons, List.take_nil, List.map_cons, List.map_nil, List.length_singleton,
          Nat.add_sub_cancel, List.singleton_append]
      · rw [pieces_of_blank line hskip, hall]
        refine ⟨hs, ?_, ?_⟩
        · have hend := isValid_width (before ++ rest) []
          rwa [List.append_nil] at hend
        · simp [join, finish, between]
    · have hlexeme := next_of_lexeme before start line hskip
      have htext : before ++ rest = before ++ (skip false rest).1 ++ (Lexeme.of c cs).text ++
          (Lexeme.of c cs).rest := by
        rw [List.append_assoc _ (Lexeme.of c cs).text, Lexeme.of_append, ← hskip, List.append_assoc,
          skip_append]
      have hstart : (⟨width (before ++ (skip false rest).1)⟩ : String.Pos.Raw).IsValid
          (.ofList (before ++ (skip false rest).1 ++ (Lexeme.of c cs).text ++
            (Lexeme.of c cs).rest)) := by
        rw [List.append_assoc _ (Lexeme.of c cs).text]
        exact isValid_width _ _
      obtain ⟨d, hcalls, hstands⟩ := ih
        (line + newlines (skip false rest).1 + newlines (Lexeme.of c cs).text) hstart
      refine ⟨d, ?_, ?_⟩
      · rw [calls, hlexeme, pieces_of_lexeme line hskip]
        simp only [bind, Except.bind, pure, Except.pure, hcalls, List.take_succ_cons, List.map_cons,
          List.length_cons, Nat.add_sub_add_right, List.cons_append]
      · rw [pieces_of_lexeme line hskip, htext]
        simpa only [List.take_succ_cons, join, List.flatMap_cons, List.append_assoc] using hstands

end Cursor

/-! ### Pieces that cover the text -/

theorem consumed_of (line : Nat) (c : Char) (cs : List Char) :
    Consumed (Lexeme.of c cs).text ((Lexeme.of c cs).item line) := by
  have happend := Lexeme.of_append c cs
  cases ho : (Lexeme.of c cs).outcome with
  | ok kind =>
    rw [Lexeme.item, ho]
    exact .token (Lexeme.of_text_ne_nil c cs) (Lexeme.kind_ne_eof ho)
  | error fault =>
    have hyields := Lexeme.yields_of line c cs
    have hitem : (Lexeme.of c cs).item line = .error ⟨fault, line⟩ := by rw [Lexeme.item, ho]
    rw [hitem] at hyields ⊢
    generalize (Lexeme.of c cs).rest = rest at hyields happend
    cases hyields with
    | unterminated hq hr =>
      rw [List.append_nil, hr] at happend
      rw [happend]
      exact .unterminated hq
    | unexpected _ _ hr =>
      obtain ⟨rfl, rfl⟩ := List.cons.inj hr
      have htext : (Lexeme.of c cs).text = [c] := List.append_cancel_right happend
      rw [htext]
      exact .unexpected

theorem pieces_cover (line : Nat) (cs : List Char) :
    ∃ ps blank, pieces line cs = ps ++ [.last blank (line + newlines cs)] ∧ Skips blank [] ∧
      ∀ earlier p later, ps = earlier ++ p :: later →
        Consumed p.text p.item ∧
        p.item.line = line + newlines (join earlier ++ p.blank ++ p.text) ∧
        Skips (p.blank ++ (p.text ++ (join later ++ blank))) (p.text ++ (join later ++ blank)) := by
  fun_induction pieces line cs with
  | case1 line cs blank hs =>
    have happend := skip_append false cs
    rw [hs, List.append_nil] at happend
    refine ⟨[], blank, ?_, ?_, fun earlier p later h => absurd h (by simp)⟩
    · simp only [blank, happend, Piece.last, List.nil_append]
    · simpa only [blank, happend, hs] using skips_skip cs
  | case2 line cs blank c rest hs lexeme last _ ih =>
    obtain ⟨ps, remainder, hpieces, hend, hcover⟩ := ih
    have happend := skip_append false cs
    rw [hs, ← Lexeme.of_append c rest] at happend
    have hrest : join ps ++ remainder = lexeme.rest := by
      have hjoin := join_pieces last lexeme.rest
      rw [hpieces] at hjoin
      simpa only [join, List.flatMap_append, List.flatMap_singleton, Piece.last, List.append_nil]
        using hjoin
    have hlast : last = line + newlines (blank ++ lexeme.text) := by
      rw [newlines_append, ← Nat.add_assoc]
    have hall : last + newlines lexeme.rest = line + newlines cs := by
      rw [hlast, Nat.add_assoc, ← newlines_append, List.append_assoc, happend]
    refine ⟨⟨blank, lexeme.text, lexeme.item last⟩ :: ps, remainder, ?_, hend, ?_⟩
    · rw [hpieces, hall, List.cons_append]
    · rintro (_ | ⟨first, earlier⟩) p later h
      · obtain ⟨rfl, rfl⟩ := List.cons.inj h
        refine ⟨consumed_of last c rest, ?_, ?_⟩
        · rw [Item.line_lexeme, hlast]
          rfl
        · rw [hrest]
          have hskips := skips_skip cs
          rw [hs, ← Lexeme.of_append c rest] at hskips
          exact happend.symm ▸ hskips
      · obtain ⟨rfl, htail⟩ := List.cons.inj h
        obtain ⟨hconsumed, hline, hskips⟩ := hcover earlier p later htail
        refine ⟨hconsumed, ?_, hskips⟩
        rw [hline, hlast, Nat.add_assoc, ← newlines_append]
        simp only [join, List.flatMap_cons, List.append_assoc]

/-- A source is covered by what is consumed for its items. Each item is on the line that its text
ends on; the only end marker is the last one. However often the cursor is called, it cuts no
character, it has read the pieces up to then, and behind the end marker there is nothing more. -/
theorem calls_tile (source : String) :
    ∃ ps blank,
      let all := ps ++ [Piece.last blank (1 + newlines source.toList)]
      join all = source.toList ∧ scan source = all.map (·.item) ∧ Skips blank [] ∧
        (∀ earlier p later, ps = earlier ++ p :: later →
          Consumed p.text p.item ∧
          p.item.line = 1 + newlines (join earlier ++ p.blank ++ p.text) ∧
          Skips (p.blank ++ (p.text ++ (join later ++ blank))) (p.text ++ (join later ++ blank))) ∧
        ∀ n, ∃ c, Cursor.calls n (.begin source) =
            .ok ((all.take n).map (some ·.item) ++ .replicate (n - all.length) none, c) ∧
          c.Stands (join (all.take n)) source := by
  obtain ⟨ps, blank, hpieces, hblank, hcover⟩ := pieces_cover 1 source.toList
  refine ⟨ps, blank, ?_, ?_, hblank, hcover, fun n => ?_⟩
  · rw [← hpieces, join_pieces]
  · rw [← hpieces, scan]
  · have hbegin : Cursor.begin source = Cursor.between [] source.toList 0 1 := by
      simp [Cursor.begin, Cursor.between, width]
    have hstart : (⟨0⟩ : String.Pos.Raw).IsValid (.ofList ([] ++ source.toList)) :=
      String.Pos.Raw.isValid_zero
    have hcalls := Cursor.calls_between n 1 hstart
    simpa only [hbegin, ← hpieces, List.nil_append, String.ofList_toList] using hcalls

end Lox.Lexer
