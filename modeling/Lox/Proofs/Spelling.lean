import Lox.Proofs.Scoping
import Lox.Token.Lexer

/-!
# Spelling

The lexer spells a keyword by its word and never spells an identifier like a keyword, so `this` and
`super` are no names that a program can declare.
-/

namespace Lox

def Token.Spelled (t : Token) : Prop :=
  match t.kind with
  | .keyword k => t.lexeme = k.spelling
  | .identifier => ∀ k : Keyword, t.lexeme ≠ k.spelling
  | _ => True

theorem Token.Spelled.isName {t : Token} (h : t.Spelled) (hk : t.kind = .identifier) :
    IsName t.lexeme := by
  simp only [Spelled, hk] at h
  exact ⟨h .this, h .super⟩

theorem Token.Spelled.keyword {t : Token} (h : t.Spelled) {k : Keyword}
    (hk : t.kind = .keyword k) : t.lexeme = k.spelling := by
  simpa only [Spelled, hk] using h

namespace Lexer

theorem spelling_of_wordKind {text : List Char} {k : Keyword} (h : wordKind text = .keyword k) :
    String.ofList text = k.spelling := by
  unfold wordKind at h
  split at h
  · next k' hk =>
    cases h
    have := List.find?_some hk
    rw [← String.ofList_toList (s := k.spelling), eq_of_beq this]
  · cases h

theorem wordKind_of_spelling (k : Keyword) : wordKind k.spelling.toList ≠ .identifier := by
  unfold wordKind
  split
  · simp
  · next hk => exact absurd (List.find?_eq_none.1 hk k k.mem_all) (by simp)

theorem spelled_word (text : List Char) (line : Nat) :
    (Token.mk (wordKind text) (.ofList text) line).Spelled := by
  unfold Token.Spelled
  split
  · next k hk => exact spelling_of_wordKind hk
  · next hk =>
    intro k he
    have ht : text = k.spelling.toList := by
      rw [← String.toList_ofList (l := text)]
      exact congrArg String.toList he
    exact wordKind_of_spelling k (ht ▸ hk)
  · trivial

/-- Only a word is a keyword or an identifier. -/
theorem Lexeme.spelled {c : Char} {cs : List Char} {kind : Kind}
    (h : (Lexeme.of c cs).outcome = .ok kind) (line : Nat) :
    (Token.mk kind (.ofList (Lexeme.of c cs).text) line).Spelled := by
  unfold Lexeme.of at h ⊢
  split at h
  · next hc =>
    rw [if_pos hc]
    unfold Lexeme.string at h
    split at h <;> cases h
    trivial
  next hc =>
  rw [if_neg hc]
  split at h
  · next hd =>
    unfold Lexeme.number at h
    split at h
    · split at h <;> cases h <;> trivial
    · cases h
      trivial
  next hd =>
  rw [if_neg hd]
  split at h
  · next hw =>
    rw [if_pos hw]
    cases h
    exact spelled_word _ line
  · split at h <;> cases h
    trivial

theorem spelled_pieces (line : Nat) (cs : List Char) :
    ∀ t ∈ tokens ((pieces line cs).map (·.item)), t.Spelled := by
  fun_induction pieces line cs with
  | case1 line cs blank h =>
    intro t ht
    simp only [tokens, List.map_cons, List.map_nil, List.filterMap_cons, Except.toOption,
      List.filterMap_nil, List.mem_singleton] at ht
    subst ht
    trivial
  | case2 line cs blank c rest h lexeme last _ ih =>
    intro t ht
    simp only [tokens, List.map_cons, List.filterMap_cons] at ht ih
    split at ht
    · exact ih t ht
    · next t' hi =>
      rcases List.mem_cons.1 ht with rfl | ht
      · unfold Lexeme.item at hi
        split at hi
        · next kind hk =>
          cases hi
          exact Lexeme.spelled hk last
        · cases hi
      · exact ih t ht

theorem spelled_scan (source : String) : ∀ t ∈ tokens (scan source), t.Spelled :=
  spelled_pieces 1 source.toList

end Lexer

end Lox
