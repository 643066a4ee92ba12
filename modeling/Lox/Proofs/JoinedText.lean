import Lox.Proofs.Renaming
import Lox.Syntax.Parser
import Lox.Token.Lexer

/-!
# Scanning across a line break

No lexeme but a string reaches over the end of a line, so a text that scans well is scanned no
differently when a line break and another text follow it, and the other text is scanned as if it
stood alone on later lines.
-/

namespace Lox.Lexer

variable {more : List Char}

theorem takeWhile_line {p : Char → Bool} (hp : p '\n' = false) (cs : List Char) :
    (cs ++ '\n' :: more).takeWhile p = cs.takeWhile p := by
  induction cs with
  | nil => simp [hp]
  | cons c cs ih =>
    rw [List.cons_append, List.takeWhile_cons, List.takeWhile_cons, ih]

theorem dropWhile_line {p : Char → Bool} (hp : p '\n' = false) (cs : List Char) :
    (cs ++ '\n' :: more).dropWhile p = cs.dropWhile p ++ '\n' :: more := by
  induction cs with
  | nil => simp [hp]
  | cons c cs ih =>
    rw [List.cons_append, List.dropWhile_cons, List.dropWhile_cons, ih]
    split <;> rfl

theorem skip_cons {c : Char} {cs : List Char} (h : ∀ rest, c = '/' → cs = '/' :: rest → False) :
    skip false (c :: cs) =
      if isBlank c then (c :: (skip false cs).1, (skip false cs).2) else ([], c :: cs) := by
  rw [skip.eq_def]
  split
  · contradiction
  · contradiction
  · next heq =>
    cases heq
    exact (h _ rfl rfl).elim
  · next heq =>
    cases heq
    rfl

/-- A slash at the end of a line starts no comment. -/
theorem not_comment_line {c : Char} {cs : List Char}
    (h : ∀ rest, c = '/' → cs = '/' :: rest → False) :
    ∀ rest, c = '/' → cs ++ '\n' :: more = '/' :: rest → False := by
  rintro rest hc he
  cases cs with
  | nil => simp at he
  | cons d cs =>
    obtain ⟨rfl, -⟩ := List.cons.inj he
    exact h cs hc rfl

/-- Blanks that end before a lexeme. -/
theorem skip_line {comment : Bool} {cs blank rest : List Char} {c : Char}
    (h : skip comment cs = (blank, c :: rest)) :
    skip comment (cs ++ '\n' :: more) = (blank, c :: (rest ++ '\n' :: more)) := by
  fun_induction skip comment cs generalizing blank with
  | case1 => cases h
  | case2 d cs blank' rest' hs ih =>
    cases h
    simp only [List.cons_append, skip, ih hs]
  | case3 cs blank' rest' hs ih =>
    cases h
    simp only [List.cons_append, skip, ih hs]
  | case4 d cs hd hb blank' rest' hs ih =>
    cases h
    rw [List.cons_append, skip_cons (not_comment_line hd), if_pos hb, ih hs]
  | case5 d cs hd hb =>
    cases h
    rw [List.cons_append, skip_cons (not_comment_line hd), if_neg hb]

/-- Blanks and comments up to the end of a text go on after the line break. -/
theorem skip_line_all {comment : Bool} {cs blank : List Char}
    (h : skip comment cs = (blank, [])) :
    skip comment (cs ++ '\n' :: more) =
      (cs ++ '\n' :: (skip false more).1, (skip false more).2) := by
  fun_induction skip comment cs generalizing blank with
  | case1 comment =>
    cases comment with
    | false => rw [List.nil_append, skip_cons (by simp)]; rfl
    | true => rfl
  | case2 d cs blank' rest' hs ih =>
    cases h
    simp only [List.cons_append, skip, ih hs]
  | case3 cs blank' rest' hs ih =>
    cases h
    simp only [List.cons_append, skip, ih hs]
  | case4 d cs hd hb blank' rest' hs ih =>
    cases h
    rw [List.cons_append, skip_cons (not_comment_line hd), if_pos hb, ih hs]
    rfl
  | case5 d cs hd hb => cases h

/-! ### Lexemes -/

/-- The lexeme with more text behind it. -/
def Lexeme.extend (l : Lexeme) (more : List Char) : Lexeme := { l with rest := l.rest ++ more }

theorem Lexeme.word_line (cs : List Char) :
    word (cs ++ '\n' :: more) = (word cs).extend ('\n' :: more) := by
  have hn : isWordChar '\n' = false := by decide
  simp only [word, extend, takeWhile_line hn, dropWhile_line hn]

theorem Lexeme.number_line (cs : List Char) :
    number (cs ++ '\n' :: more) = (number cs).extend ('\n' :: more) := by
  have hn : Char.isDigit '\n' = false := by decide
  unfold number
  rw [takeWhile_line hn, dropWhile_line hn]
  rcases hd : cs.dropWhile Char.isDigit with _ | ⟨c, _ | ⟨d, rest⟩⟩
  · rfl
  · by_cases hc : c = '.'
    · subst hc
      simp [extend, hn]
    · split <;> split <;> simp_all [extend]
  · by_cases hc : c = '.'
    · subst hc
      have ht := @takeWhile_line more _ hn (d :: rest)
      have hr := @dropWhile_line more _ hn (d :: rest)
      simp only [List.cons_append] at ht hr ⊢
      rw [ht, hr]
      split <;> rfl
    · split <;> split <;> simp_all [extend]

/-- Only a string that is closed is not changed by what follows. -/
theorem Lexeme.string_line {cs : List Char} {kind : Kind} (h : (string cs).outcome = .ok kind) :
    string (cs ++ '\n' :: more) = (string cs).extend ('\n' :: more) := by
  unfold string at h ⊢
  rcases hd : cs.dropWhile (· != '"') with _ | ⟨quote, rest⟩
  · simp [hd] at h
  · have hlt : (cs.takeWhile (· != '"')).length ≠ cs.length := by
      have := congrArg List.length (List.takeWhile_append_dropWhile (p := (· != '"')) (l := cs))
      rw [List.length_append, hd, List.length_cons] at this
      omega
    rw [List.dropWhile_append, List.takeWhile_append, if_neg hlt, hd]
    rfl

theorem isPrefixOf_line {xs : List Char} (h : '\n' ∉ xs) (cs : List Char) :
    xs.isPrefixOf (cs ++ '\n' :: more) = xs.isPrefixOf cs := by
  induction xs generalizing cs with
  | nil => rfl
  | cons x xs ih =>
    simp only [List.mem_cons, not_or] at h
    cases cs with
    | nil => simp [List.isPrefixOf, Ne.symm h.1]
    | cons c cs => simp only [List.cons_append, List.isPrefixOf, ih h.2]

theorem longestPunct?_line (cs : List Char) :
    longestPunct? (cs ++ '\n' :: more) = longestPunct? cs := by
  have hn : ∀ p : Punct, '\n' ∉ p.chars := by
    intro p
    cases p <;> decide
  simp only [longestPunct?, isPrefixOf_line (hn _)]

theorem Lexeme.of_line {c : Char} {cs : List Char} {kind : Kind}
    (h : (Lexeme.of c cs).outcome = .ok kind) :
    Lexeme.of c (cs ++ '\n' :: more) = (Lexeme.of c cs).extend ('\n' :: more) := by
  unfold Lexeme.of at h ⊢
  split
  · next hc =>
    rw [if_pos hc] at h
    exact string_line h
  next hc =>
  rw [if_neg hc] at h
  split
  · exact number_line (c :: cs)
  next hd =>
  rw [if_neg hd] at h
  split
  · exact word_line (c :: cs)
  next hw =>
  rw [if_neg hw] at h
  rw [← List.cons_append, longestPunct?_line]
  split
  · next p hp =>
    have hprefix := List.find?_some (show Punct.all.find? _ = some p from hp)
    have hl := (List.isPrefixOf_iff_prefix.1 hprefix).length_le
    simp only [Lexeme.extend, List.drop_append_of_le_length hl]
  · next hp =>
    rw [hp] at h
    cases h

/-! ### Pieces -/

theorem pieces_of_blank {cs : List Char} (line : Nat) (h : (skip false cs).2 = []) :
    pieces line cs =
      [⟨(skip false cs).1, [], .ok ⟨.eof, "", line + newlines (skip false cs).1⟩⟩] := by
  rw [pieces]
  split
  · rfl
  · next h' =>
    rw [h] at h'
    cases h'

theorem pieces_of_lexeme {cs rest : List Char} {c : Char} (line : Nat)
    (h : (skip false cs).2 = c :: rest) :
    pieces line cs =
      ⟨(skip false cs).1, (Lexeme.of c rest).text, (Lexeme.of c rest).item
        (line + newlines (skip false cs).1 + newlines (Lexeme.of c rest).text)⟩ ::
        pieces (line + newlines (skip false cs).1 + newlines (Lexeme.of c rest).text)
          (Lexeme.of c rest).rest := by
  rw [pieces]
  split
  · next h' =>
    rw [h] at h'
    cases h'
  · next h' =>
    rw [h] at h'
    cases h'
    rfl

theorem newlines_append (xs ys : List Char) : newlines (xs ++ ys) = newlines xs + newlines ys :=
  List.count_append

theorem newlines_line (xs ys : List Char) :
    newlines (xs ++ '\n' :: ys) = newlines xs + 1 + newlines ys := by
  rw [newlines_append]
  simp only [newlines, List.count_cons_self]
  omega

theorem Lexeme.kind_ne_eof {c : Char} {cs : List Char} {kind : Kind}
    (h : (Lexeme.of c cs).outcome = .ok kind) : kind ≠ .eof := by
  rintro rfl
  unfold Lexeme.of at h
  split at h
  · unfold string at h
    split at h <;> cases h
  · split at h
    · unfold number at h
      split at h
      · split at h <;> cases h
      · cases h
    · split at h
      · simp only [word, wordKind] at h
        split at h <;> cases h
      · split at h <;> cases h

theorem Lexeme.item_eq_ok {l : Lexeme} {line : Nat} {t : Token} (h : l.item line = .ok t) :
    l.outcome = .ok t.kind := by
  unfold Lexeme.item at h
  split at h <;> cases h
  assumption

/-- Blanks and comments before a text only put it on a later line. -/
theorem items_of_blank {xs ys blank : List Char} (line : Nat)
    (h : skip false xs = (blank ++ (skip false ys).1, (skip false ys).2)) :
    (pieces line xs).map (·.item) = (pieces (line + newlines blank) ys).map (·.item) := by
  have hline : line + newlines (skip false xs).1 =
      line + newlines blank + newlines (skip false ys).1 := by
    rw [h, newlines_append, Nat.add_assoc]
  have hrest : (skip false xs).2 = (skip false ys).2 := by rw [h]
  rcases hy : (skip false ys).2 with _ | ⟨c, rest⟩
  · simp only [pieces_of_blank _ (hrest.trans hy), pieces_of_blank _ hy, hline, List.map_cons,
      List.map_nil]
  · simp only [pieces_of_lexeme _ (hrest.trans hy), pieces_of_lexeme _ hy, hline, List.map_cons]

/-- What a text without lexical errors is scanned to, alone and before another line. -/
theorem scan_line (line : Nat) (cs : List Char)
    (h : ∀ p ∈ pieces line cs, ∃ t, p.item = .ok t) :
    ∃ (body : List Token) (last : Token),
      (pieces line cs).map (·.item) = body.map .ok ++ [.ok last] ∧
      (∀ t ∈ body, t.kind ≠ .eof) ∧ last.kind = .eof ∧
      ∀ more, (pieces line (cs ++ '\n' :: more)).map (·.item) =
        body.map .ok ++ (pieces (line + newlines cs + 1) more).map (·.item) := by
  fun_induction pieces line cs with
  | case1 line cs blank hs =>
    refine ⟨[], _, rfl, by simp, rfl, fun more => ?_⟩
    have hskip : skip false (cs ++ '\n' :: more) =
        ((cs ++ ['\n']) ++ (skip false more).1, (skip false more).2) := by
      rw [skip_line_all (Prod.ext rfl hs), List.append_cons]
    have hn : newlines (cs ++ ['\n']) = newlines cs + 1 := newlines_line cs []
    rw [items_of_blank line hskip, hn]
    rfl
  | case2 line cs blank c rest hs lexeme last _ ih =>
    obtain ⟨t, ht⟩ : ∃ t, lexeme.item last = .ok t := h _ (List.mem_cons_self ..)
    obtain ⟨body, eof, hitems, hbody, heof, hmore⟩ :=
      ih fun p hp => h p (List.mem_cons_of_mem _ hp)
    have hk := Lexeme.item_eq_ok ht
    refine ⟨t :: body, eof, ?_, ?_, heof, fun more => ?_⟩
    · rw [List.map_cons, hitems, ht]
      rfl
    · intro u hu
      rcases List.mem_cons.1 hu with rfl | hu
      · exact Lexeme.kind_ne_eof hk
      · exact hbody u hu
    · have hn : newlines cs = newlines blank + newlines lexeme.text + newlines lexeme.rest := by
        rw [← newlines_append, ← newlines_append, List.append_assoc, Lexeme.of_append, ← hs,
          skip_append]
      have hskip := @skip_line more _ _ _ _ _ (Prod.ext rfl hs)
      have hlexeme : Lexeme.of c (rest ++ '\n' :: more) = lexeme.extend ('\n' :: more) :=
        Lexeme.of_line hk
      rw [pieces_of_lexeme line (congrArg Prod.snd hskip), hskip, hlexeme]
      have hlast : line + newlines cs + 1 = last + newlines lexeme.rest + 1 := by
        omega
      rw [List.map_cons, List.map_cons, List.cons_append, hlast, ← hmore, ← ht]
      rfl

/-! ### Later lines -/

def Item.line : Item → Nat
  | .ok t => t.line
  | .error e => e.line

theorem Item.line_lexeme (l : Lexeme) (line : Nat) : (l.item line).line = line := by
  unfold Lexeme.item
  split <;> rfl

/-- The item on a line that many further down. -/
def Item.later (k : Nat) : Item → Item
  | .ok t => .ok (t.relabel (· + k))
  | .error e => .error { e with line := e.line + k }

theorem Lexeme.item_later (l : Lexeme) (line k : Nat) :
    l.item (line + k) = (l.item line).later k := by
  unfold Lexeme.item
  split <;> rfl

theorem items_later (line k : Nat) (cs : List Char) :
    (pieces (line + k) cs).map (·.item) = ((pieces line cs).map (·.item)).map (Item.later k) := by
  fun_induction pieces line cs with
  | case1 line cs blank hs =>
    rw [pieces_of_blank _ hs, Nat.add_right_comm]
    rfl
  | case2 line cs blank c rest hs lexeme last _ ih =>
    have hlast : line + k + newlines blank + newlines lexeme.text = last + k := by
      omega
    rw [pieces_of_lexeme _ hs, hlast, List.map_cons, ih, Lexeme.item_later]
    rfl

/-! ### Tokens -/

theorem tokens_append (xs ys : List Item) : tokens (xs ++ ys) = tokens xs ++ tokens ys :=
  List.filterMap_append

theorem errors_append (xs ys : List Item) : errors (xs ++ ys) = errors xs ++ errors ys :=
  List.filterMap_append

theorem tokens_map_ok (ts : List Token) : tokens (ts.map .ok) = ts := by
  induction ts with
  | nil => rfl
  | cons t ts ih => rw [List.map_cons, tokens, List.filterMap_cons, ← tokens, ih]; rfl

theorem errors_map_ok (ts : List Token) : errors (ts.map .ok) = [] := by
  induction ts with
  | nil => rfl
  | cons t ts ih => exact ih

theorem tokens_later (k : Nat) (items : List Item) :
    tokens (items.map (Item.later k)) = (tokens items).map (Token.relabel (· + k)) := by
  induction items with
  | nil => rfl
  | cons item items ih => rcases item with e | t <;> simp_all [tokens, Item.later, Except.toOption]

theorem errors_later {k : Nat} {items : List Item} (h : errors items = []) :
    errors (items.map (Item.later k)) = [] := by
  induction items with
  | nil => rfl
  | cons item items ih => rcases item with e | t <;> simp_all [errors, Item.later]

theorem item_of_errors {items : List Item} (h : errors items = []) :
    ∀ item ∈ items, ∃ t, item = .ok t := by
  intro item hi
  rcases item with e | t
  · have he : e ∈ errors items := List.mem_filterMap.2 ⟨Except.error e, hi, rfl⟩
    rw [h] at he
    cases he
  · exact ⟨t, rfl⟩

end Lox.Lexer

namespace Lox

/-- The source followed by another on the next line. -/
def joined (source more : String) : String := source ++ "\n" ++ more

theorem TokenStream.ahead_ofList {body : List Token} {eof : Token}
    (hb : ∀ t ∈ body, t.kind ≠ .eof) (he : eof.kind = .eof) (rest : List Token) :
    (ofList (body ++ eof :: rest)).ahead = body := by
  simp only [ofList]
  rw [List.takeWhile_append_of_pos (by simpa using hb), List.takeWhile_cons]
  simp [he]

namespace Lexer

theorem scan_joined {source : String} (h : errors (scan source) = []) (more : String) :
    ∃ (body : List Token) (eof : Token), tokens (scan source) = body ++ [eof] ∧
      (∀ t ∈ body, t.kind ≠ .eof) ∧ eof.kind = .eof ∧
      scan (joined source more) =
        body.map .ok ++ (scan more).map (Item.later (newlines source.toList + 1)) := by
  obtain ⟨body, eof, hitems, hbody, heof, hmore⟩ := scan_line 1 source.toList fun p hp =>
    item_of_errors h p.item (List.mem_map_of_mem hp)
  refine ⟨body, eof, ?_, hbody, heof, ?_⟩
  · rw [scan, hitems, tokens_append, tokens_map_ok]
    rfl
  · have hl : (joined source more).toList = source.toList ++ '\n' :: more.toList := by
      simp [joined]
    rw [scan, hl, hmore, Nat.add_assoc, items_later]
    rfl

/-- Two sources without lexical errors have none when they are joined, and the tokens of the second
stand on later lines. -/
theorem tokens_joined {source more : String} (h : errors (scan source) = [])
    (hm : errors (scan more) = []) :
    errors (scan (joined source more)) = [] ∧
      (TokenStream.ofList (tokens (scan (joined source more)))).ahead =
        (TokenStream.ofList (tokens (scan source))).ahead ++
          (TokenStream.ofList (tokens (scan more))).ahead.map
            (Token.relabel (· + (newlines source.toList + 1))) := by
  obtain ⟨body, eof, htokens, hbody, heof, hscan⟩ := scan_joined h more
  obtain ⟨body', eof', htokens', hbody', heof', -⟩ := scan_joined hm ""
  refine ⟨?_, ?_⟩
  · rw [hscan, errors_append, errors_map_ok, errors_later hm]
    rfl
  · rw [hscan, tokens_append, tokens_map_ok, tokens_later, htokens, htokens', List.map_append,
      ← List.append_assoc, TokenStream.ahead_ofList hbody heof,
      TokenStream.ahead_ofList hbody' heof']
    have hlast : (eof'.relabel (· + (newlines source.toList + 1))).kind = .eof := heof'
    refine TokenStream.ahead_ofList ?_ hlast []
    intro t ht
    rcases List.mem_append.1 ht with ht | ht
    · exact hbody t ht
    · obtain ⟨u, hu, rfl⟩ := List.mem_map.1 ht
      exact hbody' u hu

end Lexer

end Lox
