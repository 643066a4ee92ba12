import Lox.Proofs.MaximalMunch

/-!
# Layout between lexemes

A lexeme is recognised by itself: with a blank behind it, no longer lexeme stands there. So the
lexemes of a text may be set apart by any blanks and comments, and the text is scanned to the same
tokens, on the lines where they now end.
-/

namespace Lox.Lexer

/-- Blanks, and comments with the line breaks that end them. -/
inductive Layout : List Char → Prop
  | nil : Layout []
  | blank {c : Char} {cs : List Char} :
    c = ' ' ∨ c = '\r' ∨ c = '\t' ∨ c = '\n' → Layout cs → Layout (c :: cs)
  | comment {body cs : List Char} :
    '\n' ∉ body → Layout cs → Layout ('/' :: '/' :: body ++ '\n' :: cs)

/-- Layout that keeps the lexeme in front of it apart: a blank comes first. -/
def Separates (gap : List Char) : Prop := Layout gap ∧ ∃ c, gap.head? = some c ∧ isBlank c

/-- The lexemes of some tokens, each with what follows it, after what comes before the first. -/
def laidOut (lead : List Char) : List (Token × List Char) → List Char
  | [] => lead
  | (t, gap) :: rest => lead ++ t.lexeme.toList ++ laidOut gap rest

/-- Each lexeme is kept apart from the next one; behind the last there may be nothing. -/
def Apart : List (Token × List Char) → Prop
  | [] => True
  | [(_, gap)] => gap = [] ∨ Separates gap
  | (_, gap) :: rest => Separates gap ∧ Apart rest

/-- The end of the text or a blank: no lexeme but an open string goes on there. -/
def Ends (more : List Char) : Prop := ∀ c, more.head? = some c → isBlank c

/-! ### Lexemes by themselves -/

theorem not_isBlank_of_isLetter {c : Char} (h : IsLetter c) : ¬ isBlank c := by
  intro hb
  rcases isBlank_iff.1 hb with rfl | rfl | rfl | rfl <;> exact absurd h (by decide)

theorem not_isBlank_of_isDigit {c : Char} (h : IsDigit c) : ¬ isBlank c := by
  intro hb
  rcases isBlank_iff.1 hb with rfl | rfl | rfl | rfl <;> exact absurd h (by decide)

theorem Punct.not_isBlank {p : Punct} {c : Char} (h : c ∈ p.chars) : ¬ isBlank c := by
  have hall : (p.chars.all fun c => !isBlank c) = true := by
    cases p <;> rfl
  simpa using List.all_eq_true.1 hall c h

/-- Only a string has blanks in it. -/
theorem Spells.begins_quote {c d : Char} {cs : List Char} {kind : Kind} (h : Spells (c :: cs) kind)
    (hd : d ∈ c :: cs) (hb : isBlank d) : c = '"' := by
  rcases h.by_first with ⟨hq, -⟩ | ⟨-, ds, es, hds, hes, ht, -⟩ | ⟨hl, hcs, -⟩ | ⟨p, hp, -⟩
  · exact hq
  · rw [ht] at hd
    have hparts : d ∈ ds ∨ d = '.' ∨ d ∈ es := by
      split at hd
      · exact .inl hd
      · simpa using hd
    rcases hparts with hd | rfl | hd
    · exact absurd hb (not_isBlank_of_isDigit (hds d hd))
    · exact absurd hb (by decide)
    · exact absurd hb (not_isBlank_of_isDigit (hes d hd))
  · rcases List.mem_cons.1 hd with rfl | hd
    · exact absurd hb (not_isBlank_of_isLetter hl)
    · rcases hcs d hd with hl' | hd'
      · exact absurd hb (not_isBlank_of_isLetter hl')
      · exact absurd hb (not_isBlank_of_isDigit hd')
  · exact absurd hb (Punct.not_isBlank (hp ▸ hd))

theorem Spells.not_isBlank {c : Char} {cs : List Char} {kind : Kind} (h : Spells (c :: cs) kind) :
    ¬ isBlank c := by
  intro hb
  rw [h.begins_quote List.mem_cons_self hb] at hb
  exact absurd hb (by decide)

/-- The only lexeme that begins with a slash is the slash. -/
theorem Spells.eq_slash {cs : List Char} {kind : Kind} (h : Spells ('/' :: cs) kind) : cs = [] := by
  rcases h.by_first with ⟨hq, -⟩ | ⟨hd, -⟩ | ⟨hl, -⟩ | ⟨p, hp, -⟩
  · exact absurd hq (by decide)
  · exact absurd hd (by decide)
  · exact absurd hl (by decide)
  · cases p <;> simp_all [Punct.chars]

/-- Nothing longer than a lexeme begins where it is followed by a blank. -/
theorem Spells.munch {text more : List Char} {kind : Kind} (h : Spells text kind) (hm : Ends more) :
    Munch (text ++ more) text kind := by
  refine ⟨h, List.prefix_append text more, fun other kind' ho hp => ?_⟩
  by_contra hlong
  obtain ⟨beyond, rfl⟩ : text <+: other :=
    List.prefix_of_prefix_length_le (List.prefix_append text more) hp (by omega)
  have hp' : beyond <+: more := (List.prefix_append_right_inj text).1 hp
  obtain ⟨b, beyond, rfl⟩ := List.exists_cons_of_ne_nil (l := beyond) (by rintro rfl; simp at hlong)
  obtain ⟨rest, rfl⟩ := hp'
  obtain ⟨c, cs, rfl⟩ := List.exists_cons_of_ne_nil h.ne_nil
  have hquote : c = '"' := ho.begins_quote (d := b) (by simp) (hm b rfl)
  subst hquote
  -- Both are strings, and a string ends with the first quote after its own.
  rcases h.by_first with ⟨-, contents, hc, rfl, -⟩ | ⟨hd, -⟩ | ⟨hl, -⟩ | ⟨p, hq, -⟩
  · rcases ho.by_first with ⟨-, contents', hc', he, -⟩ | ⟨hd, -⟩ | ⟨hl, -⟩ | ⟨p, hq, -⟩
    · have he : contents ++ '"' :: (b :: beyond) = contents' ++ ['"'] := by simpa using he
      have hs := congrArg Lexeme.rest (congrArg Lexeme.string he)
      rw [Lexeme.string_of_closed hc, Lexeme.string_of_closed hc'] at hs
      cases hs
    · exact absurd hd (by decide)
    · exact absurd hl (by decide)
    · exact absurd rfl (Punct.begins_apart hq.symm).1
  · exact absurd hd (by decide)
  · exact absurd hl (by decide)
  · exact absurd rfl (Punct.begins_apart hq.symm).1

/-- The tokens of a text are spelled as the lexical grammar has it. -/
theorem Munches.spells {line : Nat} {cs : List Char} {items : List Item}
    (h : Munches line cs items) {t : Token} (ht : .ok t ∈ items) :
    t.kind = .eof ∨ Spells t.lexeme.toList t.kind := by
  induction h with
  | eof =>
    obtain rfl : t = _ := by simpa using ht
    exact .inl rfl
  | item _ hy _ ih =>
    rcases List.mem_cons.1 ht with rfl | ht
    · cases hy with
      | token hm _ => exact .inr (by simpa using hm.spells)
    · exact ih ht

/-! ### Layout -/

/-- What layout leads up to. -/
theorem Layout.skips {gap r : List Char} (h : Layout gap) (hr : Skips r r) :
    Skips (gap ++ r) r := by
  induction h with
  | nil => exact hr
  | blank hc _ ih => exact .blank hc ih
  | @comment body cs hb _ ih =>
    have hline : Skips ('\n' :: cs ++ r) r := .blank (by simp) ih
    have hcomment := Skips.comment hb (.inr rfl) hline
    rwa [← List.append_assoc] at hcomment

theorem skips_nil : Skips [] [] := .stop (by simp) (by simp)

/-- No blank and no comment comes before a lexeme. -/
theorem Spells.skips {text more : List Char} {kind : Kind} (h : Spells text kind) (hm : Ends more) :
    Skips (text ++ more) (text ++ more) := by
  obtain ⟨c, cs, rfl⟩ := List.exists_cons_of_ne_nil h.ne_nil
  refine .stop (fun d hd => ?_) fun hslash => ?_
  · obtain rfl : c = d := by simpa using hd
    simpa [isBlank_iff] using h.not_isBlank
  · obtain ⟨rfl, hslash⟩ := List.cons_prefix_cons.1 hslash
    obtain rfl := h.eq_slash
    obtain ⟨rest, he⟩ := hslash
    obtain rfl : '/' :: rest = more := by simpa using he
    exact absurd (hm '/' rfl) (by decide)

theorem Separates.ends {gap more : List Char} (h : Separates gap) : Ends (gap ++ more) := by
  obtain ⟨-, c, hc, hb⟩ := h
  obtain ⟨rest, rfl⟩ := List.head?_eq_some_iff.1 hc
  intro d hd
  obtain rfl : c = d := by simpa using hd
  exact hb

theorem Separates.laidOut {gap : List Char} (h : Separates gap)
    (spread : List (Token × List Char)) : Ends (laidOut gap spread) := by
  rcases spread with _ | ⟨⟨t, next⟩, rest⟩
  · have hends : Ends (gap ++ []) := h.ends
    simpa [Lexer.laidOut] using hends
  · rw [Lexer.laidOut, List.append_assoc]
    exact h.ends

/-- What follows the first lexeme. -/
theorem Apart.cons {t : Token} {gap : List Char} {rest : List (Token × List Char)}
    (h : Apart ((t, gap) :: rest)) : Layout gap ∧ Ends (laidOut gap rest) ∧ Apart rest := by
  rcases rest with _ | ⟨next, rest⟩
  · rcases h with rfl | h
    · exact ⟨.nil, by simp [Ends, laidOut], trivial⟩
    · exact ⟨h.1, h.laidOut [], trivial⟩
  · exact ⟨h.1.1, h.1.laidOut _, h.2⟩

/-- The tokens of a text whose lexemes are set apart. -/
theorem munches_laidOut (line : Nat) {lead : List Char} (hl : Layout lead)
    {spread : List (Token × List Char)} (hs : ∀ p ∈ spread, Spells p.1.lexeme.toList p.1.kind)
    (ha : Apart spread) :
    Munches line (laidOut lead spread)
      ((spread.mapIdx fun i p => .ok { p.1 with
          line := line + newlines (laidOut lead (spread.take i) ++ p.1.lexeme.toList) }) ++
        [.ok ⟨.eof, "", line + newlines (laidOut lead spread)⟩]) := by
  induction spread generalizing line lead with
  | nil => exact .eof (by simpa [laidOut] using hl.skips skips_nil)
  | cons p rest ih =>
    obtain ⟨t, gap⟩ := p
    obtain ⟨hgap, hends, hrest⟩ := ha.cons
    have ht : Spells t.lexeme.toList t.kind := hs _ List.mem_cons_self
    have hlines : ∀ cs : List Char, line + newlines (lead ++ (t.lexeme.toList ++ cs)) =
        line + newlines (lead ++ t.lexeme.toList) + newlines cs := fun cs => by
      rw [← List.append_assoc, newlines_append (lead ++ t.lexeme.toList) cs, Nat.add_assoc]
    have hmore := ih (line + newlines (lead ++ t.lexeme.toList)) hgap
      (fun p hp => hs p (List.mem_cons_of_mem _ hp)) hrest
    have hskips : Skips (lead ++ t.lexeme.toList ++ laidOut gap rest)
        (t.lexeme.toList ++ laidOut gap rest) := by
      rw [List.append_assoc]
      exact hl.skips (ht.skips hends)
    have hyields : Yields (line + newlines (lead ++ t.lexeme.toList))
        (t.lexeme.toList ++ laidOut gap rest)
        (.ok { t with line := line + newlines (lead ++ t.lexeme.toList) }) (laidOut gap rest) := by
      have htoken := @Yields.token (line + newlines (lead ++ t.lexeme.toList)) _ _ _ _
        (ht.munch hends) rfl
      simpa using htoken
    have h := Munches.item hskips hyields hmore
    simpa only [List.mapIdx_cons, List.take_succ_cons, List.take_zero, laidOut, List.append_assoc,
      List.cons_append, hlines] using h

/-- Layout between the lexemes of a source that has no lexical errors does not matter: however they
are set apart, the tokens are the same, each on the line that its lexeme ends on. -/
theorem scan_laidOut {source : String} (h : errors (scan source) = [])
    {spread : List (Token × List Char)} {eof : Token}
    (hs : tokens (scan source) = spread.map (·.1) ++ [eof]) {lead : List Char} (hl : Layout lead)
    (ha : Apart spread) :
    scan (.ofList (laidOut lead spread)) =
      (spread.mapIdx fun i p => .ok { p.1 with
          line := 1 + newlines (laidOut lead (spread.take i) ++ p.1.lexeme.toList) }) ++
        [.ok ⟨.eof, "", 1 + newlines (laidOut lead spread)⟩] := by
  obtain ⟨body, last, htokens, hbody, -, -⟩ := scan_joined h ""
  obtain ⟨rfl, -⟩ : spread.map (·.1) = body ∧ eof = last := by
    have := hs.symm.trans htokens
    exact ⟨(List.append_inj' this rfl).1, by simpa using (List.append_inj' this rfl).2⟩
  have hspells : ∀ p ∈ spread, Spells p.1.lexeme.toList p.1.kind := by
    intro p hp
    have hmem : p.1 ∈ tokens (scan source) := by
      rw [hs]
      exact List.mem_append_left _ (List.mem_map_of_mem hp)
    obtain ⟨item, hitem, htoken⟩ := List.mem_filterMap.1 hmem
    rcases item with e | t
    · cases htoken
    · obtain rfl : t = p.1 := by simpa [Except.toOption] using htoken
      exact ((munches_pieces 1 source.toList).spells hitem).resolve_left
        (hbody _ (List.mem_map_of_mem hp))
  have hmunches := munches_laidOut 1 hl hspells ha
  rw [scan, String.toList_ofList]
  exact hmunches.items_eq.symm

/-- A slash before a comment, and slashes in a string. -/
theorem scan_laidOut_slash :
    let source := "a/\"//\""
    let name (line : Nat) : Token := ⟨.identifier, "a", line⟩
    let slash (line : Nat) : Token := ⟨.punct .slash, "/", line⟩
    let string (line : Nat) : Token := ⟨.string "//", "\"//\"", line⟩
    let eof (line : Nat) : Token := ⟨.eof, "", line⟩
    let spread := [(name 1, ['\n']), (slash 1, [' ', '/', '/', '!', '\n']), (string 1, ['\t'])]
    errors (scan source) = [] ∧ tokens (scan source) = spread.map (·.1) ++ [eof 1] ∧
      Layout [] ∧ Apart spread ∧
      scan (.ofList (laidOut [] spread)) =
        [.ok (name 1), .ok (slash 2), .ok (string 3), .ok (eof 3)] := by
  intro source name slash string eof spread
  have hscan : scan source = [.ok (name 1), .ok (slash 1), .ok (string 1), .ok (eof 1)] := by
    decide +kernel
  have herrors : errors (scan source) = [] := by
    rw [hscan]
    rfl
  have htokens : tokens (scan source) = spread.map (·.1) ++ [eof 1] := by
    rw [hscan]
    rfl
  have hbreak : Layout ['\n'] := .blank (by simp) .nil
  have hbody : '\n' ∉ ['!'] := by decide
  have hcomment : Layout [' ', '/', '/', '!', '\n'] := .blank (by simp) (.comment hbody .nil)
  have hapart : Apart spread :=
    ⟨⟨hbreak, _, rfl, by decide⟩, ⟨hcomment, _, rfl, by decide⟩,
      .inr ⟨.blank (by simp) .nil, _, rfl, by decide⟩⟩
  refine ⟨herrors, htokens, .nil, hapart, ?_⟩
  rw [scan_laidOut herrors htokens .nil hapart]
  simp [spread, laidOut, newlines, name, slash, string, eof]

end Lox.Lexer
