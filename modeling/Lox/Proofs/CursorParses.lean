import Mathlib.Data.List.NodupEquivFin
import Lox.Diagnostic
import Lox.Proofs.CursorRules
import Lox.Proofs.RenamedParses
import Lox.Proofs.SyntaxErrors

/-!
# Whole inputs over positions

The loop over declarations with its recovery from errors, over positions. It ends on every list of
tokens at a depth that grows with the list, with what the loop with fuel gives. So whatever the list
is, the cursor stays within the tokens up to the first end marker, only these decide on what is
read, and of the tokens that the errors blame each stands behind the one before.
-/

namespace Lox

namespace Parser

namespace Tape

variable {x : Tape} {c : Cursor} {d : Nat} {α : Type}

theorem length_ahead (x : Tape) (c : Cursor) :
    (x.state c).ahead.length = x.front.length - c.current := List.length_drop

/-! ### Recovery -/

theorem attempt_ok {q : Reading α} {c' : Cursor} {a : α} (h : q.run.run c = some (.ok a, c')) :
    (Cursor.attempt q).run.run c = some (.ok (.ok a), c') := by
  change Option.bind (q.run.run c) _ = _
  rw [h]
  rfl

theorem attempt_error {q : Reading α} {c' : Cursor} {e : Error}
    (h : q.run.run c = some (.error (.error e), c')) :
    (Cursor.attempt q).run.run c = some (.ok (.error e), c') := by
  change Option.bind (q.run.run c) _ = _
  rw [h]
  rfl

theorem skip_end (held : x.Holds c) (heq : c.current = x.front.length) (hd : 0 < d) :
    (Cursor.skip d).run.run c = some (.ok (), c) := by
  obtain ⟨d, rfl⟩ := Nat.exists_eq_succ_of_ne_zero hd.ne'
  rw [Cursor.skip, Reading.run_bind_ok (isAtEnd_run held), ahead_nil heq]
  rfl

theorem skip_run {last : Token} (held : x.Holds c) (behind : x.Behind c last)
    (hd : x.front.length - c.current < d) :
    ∃ c', x.Holds c' ∧ c.current ≤ c'.current ∧ (Cursor.skip d).run.run c = some (.ok (), c') ∧
      x.state c' = { x.state c with ahead := dropStatement last (x.state c).ahead } := by
  induction d generalizing c last with
  | zero => omega
  | succ d ih =>
    rcases Nat.lt_or_eq_of_le held.current_le with hlt | heq
    · have hpeek : (x.state c).peek = x.front[c.current] := by rw [State.peek, ahead_cons hlt]; rfl
      rw [Cursor.skip, Reading.run_bind_ok (isAtEnd_run held), ahead_cons hlt, dropStatement]
      simp only [List.isEmpty_cons, Bool.false_eq_true, if_false]
      rw [Reading.run_bind_ok (previous_run held behind)]
      by_cases hlast : (last.kind == .punct .semicolon) = true
      · refine ⟨c, held, Nat.le_refl _, by rw [if_pos hlast]; rfl, ?_⟩
        rw [hlast, Bool.true_or, if_pos rfl, ← ahead_cons hlt]
      rw [if_neg hlast, Reading.run_bind_ok (peek_run held), hpeek]
      by_cases hresumes : resumesAt x.front[c.current].kind = true
      · refine ⟨c, held, Nat.le_refl _, by rw [if_pos hresumes]; rfl, ?_⟩
        rw [hresumes, Bool.or_true, if_pos rfl, ← ahead_cons hlt]
      rw [if_neg hresumes, Reading.run_bind_ok (advance_run held hlt)]
      obtain ⟨c', held', le', hrun, hstate⟩ := ih (held.step hlt) (behind_step hlt)
        (show x.front.length - (c.current + 1) < d by omega)
      refine ⟨c', held', Nat.le_of_succ_le le', hrun, ?_⟩
      rw [hstate, if_neg (by simp [hlast, hresumes])]
      rfl
    · refine ⟨c, held, Nat.le_refl _, skip_end held heq d.succ_pos, ?_⟩
      simp [state, heq, dropStatement]

/-- Recovery leaves fewer tokens ahead, if any were left. -/
theorem synchronize_run (held : x.Holds c) (hd : x.front.length - c.current < d) :
    ∃ c', x.Holds c' ∧ x.front.length - c'.current ≤ x.front.length - c.current - 1 ∧
      (Cursor.synchronize d).run.run c = some (.ok (), c') ∧
      x.state c' = Parser.synchronize (x.state c) := by
  rcases Nat.lt_or_eq_of_le held.current_le with hlt | heq
  · obtain ⟨c', held', le', hrun, hstate⟩ := skip_run (held.step hlt) (behind_step hlt)
      (show x.front.length - (c.current + 1) < d by omega)
    have hfewer : x.front.length - c'.current ≤ x.front.length - (c.current + 1) :=
      Nat.sub_le_sub_left le' _
    refine ⟨c', held', hfewer, (Reading.run_bind_ok (advance_run held hlt)).trans hrun, ?_⟩
    simp only [Parser.synchronize, ahead_cons hlt, hstate]
    rfl
  · obtain ⟨t, hadvance⟩ := advance_end held heq
    have hskip := skip_end held heq (Nat.zero_lt_of_lt hd)
    refine ⟨c, held, by omega, (Reading.run_bind_ok hadvance).trans hskip, ?_⟩
    simp only [Parser.synchronize, ahead_nil heq]

/-- Each round takes a token: a declaration has one, and after an error recovery goes behind the
token stopped at. No call nests deeper than the fuel for the tokens left. -/
theorem declarations_run (rounds : Nat) (held : x.Holds c)
    (hr : x.front.length - c.current ≤ rounds)
    (hd : 32 * (x.front.length - c.current + 1) < d) :
    ∃ c', x.Holds c' ∧ x.state c' = (Parser.declarations rounds (x.state c)).2.2 ∧
      (Cursor.declarations d).run.run c =
        some (.ok ((Parser.declarations rounds (x.state c)).1,
          (Parser.declarations rounds (x.state c)).2.1), c') := by
  -- Every round takes a token, so the rounds suffice, and so does the depth for what is left.
  induction rounds generalizing c d with
  | zero =>
    obtain ⟨d, rfl⟩ := Nat.exists_eq_succ_of_ne_zero (Nat.ne_zero_of_lt hd)
    have heq : c.current = x.front.length := by have := held.current_le; omega
    refine ⟨c, held, rfl, ?_⟩
    rw [Cursor.declarations, Reading.run_bind_ok (isAtEnd_run held), ahead_nil heq]
    rfl
  | succ n ih =>
    obtain ⟨d, rfl⟩ := Nat.exists_eq_succ_of_ne_zero (Nat.ne_zero_of_lt hd)
    rw [Cursor.declarations, Reading.run_bind_ok (isAtEnd_run held), Parser.declarations]
    rcases hends : (x.state c).ahead.isEmpty with _ | _
    · have hlt : 0 < x.front.length - c.current := by
        rw [← length_ahead, List.length_pos_iff]
        simpa using hends
      have hfuel : fuelFor (x.state c).ahead = 32 * (x.front.length - c.current + 1) := by
        rw [fuelFor, length_ahead]
      have hdepth : fuelFor (x.state c).ahead ≤ d := by omega
      simp only [Bool.false_eq_true, if_false]
      have hd := (x.followsStatements hdepth).declaration held (by omega)
      have hb : Blames [] (declaration (fuelFor (x.state c).ahead)) :=
        (blamesStatements (fuelFor (x.state c).ahead)).declaration
      specialize hb (x.state c)
      obtain ⟨stmt, c₁, held₁, le₁, left, right⟩ | ⟨e, c₁, held₁, left, right⟩ := hd
      · obtain ⟨c₂, held₂, hstate, hrun⟩ := ih held₁ (by omega)
          (show 32 * (x.front.length - c₁.current + 1) < d by omega)
        rw [Reading.run_bind_ok (attempt_ok right), left]
        exact ⟨c₂, held₂, hstate, Reading.run_bind_ok hrun⟩
      · -- A failed declaration leaves no more tokens than there were.
        have hfewer : x.front.length - c₁.current ≤ x.front.length - c.current := by
          rw [left] at hb
          obtain ⟨ts, hts, -⟩ := hb
          rw [← length_ahead, ← length_ahead, hts, List.length_append]
          exact Nat.le_add_left _ _
        obtain ⟨c₂, held₂, hfewer₂, hsync, hstate₂⟩ := synchronize_run held₁
          (show x.front.length - c₁.current < d by omega)
        obtain ⟨c₃, held₃, hstate₃, hrun⟩ := ih held₂ (by omega)
          (show 32 * (x.front.length - c₂.current + 1) < d by omega)
        rw [hstate₂] at hstate₃ hrun
        rw [Reading.run_bind_ok (attempt_error right), left]
        refine ⟨c₃, held₃, hstate₃, ?_⟩
        exact (Reading.run_bind_ok hsync).trans (Reading.run_bind_ok hrun)
    · exact ⟨c, held, rfl, rfl⟩

/-! ### The tape of a list -/

theorem completed_split (tokens : List Token) :
    ∃ rest, Cursor.completed tokens =
      (TokenStream.ofList tokens).ahead ++ (TokenStream.ofList tokens).eof :: rest := by
  rcases TokenStream.ofList_cases tokens with ⟨rest, hrest⟩ | ⟨hahead, -⟩
  · unfold Cursor.completed
    split
    · exact ⟨rest, hrest⟩
    · exact ⟨rest ++ [_], (congrArg (· ++ [_]) hrest).trans (List.append_assoc _ _ _)⟩
  · have hnone : ∀ t ∈ tokens, (t.kind == .eof) = false := by
      simpa [TokenStream.ofList, List.takeWhile_eq_self_iff] using hahead
    have hfind : tokens.find? (·.kind == .eof) = none := by simpa using hnone
    have hlast : tokens.getLast?.any (·.kind == .eof) = false := by
      rcases hl : tokens.getLast? with _ | t
      · rfl
      · exact hnone t (List.mem_of_getLast? hl)
    refine ⟨[], ?_⟩
    rw [hahead, Cursor.completed, hlast]
    simp [TokenStream.ofList, hfind]

/-- The completed list, split at its first end marker. -/
def ofList (tokens : List Token) : Tape where
  front := (TokenStream.ofList tokens).ahead
  eof := (TokenStream.ofList tokens).eof
  rest := (Cursor.completed tokens).drop ((TokenStream.ofList tokens).ahead.length + 1)
  front_kind := (TokenStream.kinds_ofList tokens).1
  eof_kind := (TokenStream.kinds_ofList tokens).2

theorem tokens_ofList (tokens : List Token) : (ofList tokens).tokens = Cursor.completed tokens := by
  obtain ⟨rest, hrest⟩ := completed_split tokens
  simp only [Tape.tokens, ofList, hrest]
  simp [List.drop_append]

end Tape

namespace Cursor

/-- Where the first end marker of the completed list stands. -/
def firstEnd (tokens : List Token) : Nat := (completed tokens).findIdx (·.kind == .eof)

/-- The completed list up to its first end marker, with it. -/
def upToEnd (tokens : List Token) : List Token := (completed tokens).take (firstEnd tokens + 1)

theorem firstEnd_eq (tokens : List Token) :
    firstEnd tokens = (TokenStream.ofList tokens).ahead.length := by
  let x := Tape.ofList tokens
  have hfront : x.front.findIdx (·.kind == .eof) = x.front.length := by
    rw [List.findIdx_eq_length]
    simpa using x.front_kind
  have heof : (x.eof.kind == .eof) = true := by simpa using x.eof_kind
  rw [firstEnd, ← Tape.tokens_ofList, Tape.tokens, List.findIdx_append, hfront,
    if_neg (Nat.lt_irrefl _), List.findIdx_cons, heof, cond_true, Nat.zero_add]
  rfl

theorem upToEnd_eq (tokens : List Token) :
    upToEnd tokens = (TokenStream.ofList tokens).ahead ++ [(TokenStream.ofList tokens).eof] := by
  rw [upToEnd, firstEnd_eq, ← Tape.tokens_ofList, Tape.tokens]
  exact List.take_length_add_append 1

theorem start_holds (tokens : List Token) (first : Nat) :
    (Tape.ofList tokens).Holds (start tokens first) where
  tokens_eq := (Tape.tokens_ofList tokens).symm
  positions_le := by simp [positions, start]

/-- A whole program over positions ends with what the loop with fuel gives. -/
theorem parse_run (tokens : List Token) (first : Nat) {depth : Nat}
    (hd : 32 * (firstEnd tokens + 1) < depth) :
    ∃ c, (parse depth).run.run (start tokens first) = some (.ok (program tokens first).1, c) ∧
      c.nextId = (program tokens first).2 ∧ ∀ i ∈ c.positions, i ≤ firstEnd tokens := by
  rw [firstEnd_eq] at hd ⊢
  obtain ⟨c, held, hstate, hrun⟩ :=
    Tape.declarations_run (TokenStream.ofList tokens).ahead.length (start_holds tokens first)
      (Nat.sub_le _ _) hd
  have hnext : c.nextId = (program tokens first).2 := congrArg State.nextId hstate
  exact ⟨c, (Reading.run_bind_ok hrun).trans rfl, hnext, held.positions_le⟩

/-- A lone expression likewise; it ends in a tree or a syntax error. -/
theorem parseExpression_run (tokens : List Token) (first : Nat) {depth : Nat}
    (hd : 32 * (firstEnd tokens + 1) < depth) :
    ∃ c, (parseExpression depth).run.run (start tokens first) =
        some ((expressionOnly tokens first).1.mapError .error, c) ∧
      c.nextId = (expressionOnly tokens first).2 ∧ ∀ i ∈ c.positions, i ≤ firstEnd tokens := by
  rw [firstEnd_eq] at hd ⊢
  have held := start_holds tokens first
  have follows : (Tape.ofList tokens).Follows (start tokens first) 0
      (do
        let e ← Parser.expression (fuelFor (TokenStream.ofList tokens).ahead)
        if ← Parser.atEnd then return e else Parser.fail .endOfExpression)
      (parseExpression depth) := by
    refine (Tape.follows_expression held (Nat.le_of_lt hd) ?_).bind fun e c held _ => ?_
    · change 32 * ((TokenStream.ofList tokens).ahead.length - 0) + 15 ≤ _
      omega
    · exact .atEnd held fun ends => .ite (.pure held (Nat.zero_le _) e) (.fail held _)
  unfold expressionOnly
  dsimp only
  obtain ⟨e, c, held, -, left, right⟩ | ⟨e, c, held, left, right⟩ := follows
  all_goals
    simp only [Tape.state, Tape.ofList, start, List.drop_zero] at left
    rw [left]
    exact ⟨c, right, rfl, held.positions_le⟩

theorem stream_of_upToEnd {tokens tokens' : List Token} (h : upToEnd tokens' = upToEnd tokens) :
    TokenStream.ofList tokens' = TokenStream.ofList tokens := by
  rw [upToEnd_eq, upToEnd_eq] at h
  obtain ⟨hahead, heof⟩ := List.append_inj' h rfl
  rcases hs : TokenStream.ofList tokens with ⟨ahead, eof⟩
  rcases hs' : TokenStream.ofList tokens' with ⟨ahead', eof'⟩
  simp_all

end Cursor

end Parser

/-! ### Other ids -/

namespace Renaming

/-- Ids that count from `first` as ids that count from `next`. -/
def recount (first next : Nat) : Renaming := ⟨fun id => ⟨id.index - first + next⟩, id⟩

theorem recount_skip (first next : Nat) :
    (recount first next).comp (skip 0 first) = skip 0 next := by
  simp only [comp, recount, skip]
  congr 1
  funext id
  simp

end Renaming

namespace Parser

open Renaming (skip recount recount_skip)

/-- Both count their ids from where a program counts that starts at zero. -/
theorem program_recount {tokens tokens' : List Token}
    (h : TokenStream.ofList tokens' = TokenStream.ofList tokens) (first next : Nat) :
    (program tokens' next).1 =
      (program tokens first).1.map (Stmt.renameAll (recount first next)) := by
  have up (ts : List Token) (hs : TokenStream.ofList ts = TokenStream.ofList tokens) (gap : Nat) :
      (program ts gap).1 = (program tokens 0).1.map (Stmt.renameAll (skip 0 gap)) := by
    have herrors : List.map (Error.relabel (skip 0 gap).line) = id := List.map_id_fun
    have hstream := (Shift.skip 0 gap).program_stream (hs.trans (Source.stream_skip gap tokens))
      (Nat.le_refl 0)
    simp only [Nat.zero_add, Shift.skip, herrors] at hstream
    rw [hstream]
    rcases (program tokens 0).1 with errors | stmts <;> rfl
  rw [up tokens' h next, up tokens rfl first]
  rcases (program tokens 0).1 with errors | stmts
  · rfl
  · simp only [Except.map, Stmt.renameAll_renameAll, recount_skip]

theorem expressionOnly_recount {tokens tokens' : List Token}
    (h : TokenStream.ofList tokens' = TokenStream.ofList tokens) (first next : Nat) :
    (expressionOnly tokens' next).1 =
      (expressionOnly tokens first).1.map (Expr.rename (recount first next)) := by
  have up (ts : List Token) (hs : TokenStream.ofList ts = TokenStream.ofList tokens) (gap : Nat) :
      (expressionOnly ts gap).1 = (expressionOnly tokens 0).1.map (Expr.rename (skip 0 gap)) := by
    have hstream := (Shift.skip 0 gap).expressionOnly_stream
      (hs.trans (Source.stream_skip gap tokens)) (Nat.le_refl 0)
    simp only [Nat.zero_add, Shift.skip] at hstream
    rw [hstream]
    rcases (expressionOnly tokens 0).1 with e | e <;> rfl
  rw [up tokens' h next, up tokens rfl first]
  rcases (expressionOnly tokens 0).1 with e | e
  · rfl
  · simp only [Except.map, Expr.rename_rename, recount_skip]

/-! ### What the cursor reads -/

/-- Whatever the list, a program and a lone expression over positions come to an end at a depth that
the first end marker bounds, with the same result however much deeper calls may nest, and never with
a look outside the list: no position behind the first end marker is ever held. What they give is the
same for all lists that agree up to their first end marker, with ids that count from elsewhere. -/
theorem reads_to_first_end (tokens : List Token) (first : Nat) :
    Cursor.firstEnd tokens < (Cursor.completed tokens).length ∧
    (∀ depth, 32 * (Cursor.firstEnd tokens + 1) < depth →
      (∃ c, (Cursor.parse depth).run.run (Cursor.start tokens first) =
          some (.ok (program tokens first).1, c) ∧
        c.nextId = (program tokens first).2 ∧ ∀ i ∈ c.positions, i ≤ Cursor.firstEnd tokens) ∧
      ∃ c, (Cursor.parseExpression depth).run.run (Cursor.start tokens first) =
          some ((expressionOnly tokens first).1.mapError .error, c) ∧
        c.nextId = (expressionOnly tokens first).2 ∧
        ∀ i ∈ c.positions, i ≤ Cursor.firstEnd tokens) ∧
    ∀ (tokens' : List Token) (next : Nat), Cursor.upToEnd tokens' = Cursor.upToEnd tokens →
      (program tokens' next).1 =
          (program tokens first).1.map (Stmt.renameAll (recount first next)) ∧
        (expressionOnly tokens' next).1 =
          (expressionOnly tokens first).1.map (Expr.rename (recount first next)) := by
  refine ⟨?_, fun depth hd => ⟨Cursor.parse_run tokens first hd,
    Cursor.parseExpression_run tokens first hd⟩, fun tokens' next h => ?_⟩
  · rw [Cursor.firstEnd_eq, ← Tape.tokens_ofList]
    simp [Tape.tokens, Tape.ofList]
  · have hstream := Cursor.stream_of_upToEnd h
    exact ⟨program_recount hstream first next, expressionOnly_recount hstream first next⟩

/-- What stands behind the first end marker, here a lone parenthesis, makes no difference. -/
theorem reads_to_first_end_of_two :
    let name : Token := ⟨.identifier, "x", 1⟩
    let semicolon : Token := ⟨.punct .semicolon, ";", 1⟩
    let eof : Token := ⟨.eof, "", 1⟩
    let tokens := [name, semicolon, eof, ⟨.punct .rightParen, ")", 2⟩]
    Cursor.upToEnd [name, semicolon] = Cursor.upToEnd tokens ∧
      Cursor.firstEnd tokens = 2 ∧ (Cursor.completed tokens).length = 5 ∧
      (∃ c, (Cursor.parse 97).run.run (Cursor.start tokens 0) =
          some (.ok (.ok [.expression (.variable ⟨0⟩ name)]), c) ∧
        ∀ i ∈ c.positions, i ≤ 2) ∧
      (program [name, semicolon] 7).1 = .ok [.expression (.variable ⟨7⟩ name)] := by
  intro name semicolon eof tokens
  have hagree : Cursor.upToEnd [name, semicolon] = Cursor.upToEnd tokens := by decide
  have hend : Cursor.firstEnd tokens = 2 := by decide
  have hp : (program tokens 0).1 = .ok [.expression (.variable ⟨0⟩ name)] := by cbv
  obtain ⟨-, hruns, hsame⟩ := reads_to_first_end tokens 0
  obtain ⟨c, hrun, -, hpositions⟩ := (hruns 97 (by decide)).1
  refine ⟨hagree, hend, by decide, ⟨c, hp ▸ hrun, hend ▸ hpositions⟩, ?_⟩
  rw [(hsame _ 7 hagree).1, hp]
  rfl

/-! ### Whom the errors blame -/

/-- On every list a program over positions comes to an end, at a depth that the first end marker
bounds. Where it ends in errors, these blame tokens at ever later positions, up to the first end
marker, each with the line and the place of its token. -/
theorem blames_ever_later_tokens (tokens : List Token) (first : Nat) :
    (∀ depth, 32 * (Cursor.firstEnd tokens + 1) < depth →
      ∃ c, (Cursor.parse depth).run.run (Cursor.start tokens first) =
        some (.ok (program tokens first).1, c)) ∧
    ∀ errors, (program tokens first).1 = .error errors →
      errors.length ≤ Cursor.firstEnd tokens + 1 ∧
      ∃ index : Fin errors.length → Nat, StrictMono index ∧ ∀ i,
        index i ≤ Cursor.firstEnd tokens ∧
        ∃ t, (Cursor.completed tokens)[index i]? = some t ∧ errors[i].blamed = t ∧
          (Diagnostic.parse errors[i]).line = t.line ∧
          (Diagnostic.parse errors[i]).text =
            "[line " ++ toString t.line ++ "] Error" ++
              (if t.kind = .eof then " at end" else " at '" ++ t.lexeme ++ "'") ++ ": " ++
              errors[i].cause.message := by
  refine ⟨fun depth hd => ?_, fun errors h => ?_⟩
  · obtain ⟨c, hrun, -, -⟩ := Cursor.parse_run tokens first hd
    exact ⟨c, hrun⟩
  have hsub : (errors.map Error.blamed).Sublist (Cursor.upToEnd tokens) := by
    rw [Cursor.upToEnd_eq]
    exact program_blamed h
  have hlength : (Cursor.upToEnd tokens).length ≤ Cursor.firstEnd tokens + 1 :=
    List.length_take_le _ _
  refine ⟨by simpa using hsub.length_le.trans hlength, ?_⟩
  obtain ⟨f, hf⟩ := List.sublist_iff_exists_fin_orderEmbedding_get_eq.1 hsub
  have hcast : (errors.map Error.blamed).length = errors.length := List.length_map _
  refine ⟨fun i => f (i.cast hcast.symm), fun i j hij => f.strictMono hij, fun i => ?_⟩
  have hlt := (f (i.cast hcast.symm)).isLt
  refine ⟨Nat.le_of_lt_succ (hlt.trans_le hlength), errors[i].blamed, ?_, rfl, rfl, rfl⟩
  have hget : (Cursor.upToEnd tokens)[(f (i.cast hcast.symm)).val]? = some errors[i].blamed := by
    rw [List.getElem?_eq_getElem hlt]
    simpa using (hf (i.cast hcast.symm)).symm
  exact (List.getElem?_take_of_lt (hlt.trans_le hlength)).symm.trans hget

/-- Two stray parentheses: between them recovery stops behind the semicolon. -/
theorem blames_ever_later_tokens_twice :
    let tokens : List Token := [⟨.punct .rightParen, ")", 1⟩, ⟨.punct .semicolon, ";", 1⟩,
      ⟨.punct .rightParen, ")", 2⟩]
    let errors : List Error := [⟨⟨.punct .rightParen, ")", 1⟩, .expression⟩,
      ⟨⟨.punct .rightParen, ")", 2⟩, .expression⟩]
    (∃ c, (Cursor.parse 129).run.run (Cursor.start tokens 0) = some (.ok (.error errors), c)) ∧
    ∃ index : Fin 2 → Nat, StrictMono index ∧ ∀ i, index i ≤ 3 := by
  intro tokens errors
  have hp : (program tokens 0).1 = .error errors := by cbv
  have hend : Cursor.firstEnd tokens = 3 := by decide
  obtain ⟨hruns, hblames⟩ := blames_ever_later_tokens tokens 0
  obtain ⟨c, hrun⟩ := hruns 129 (by decide)
  obtain ⟨-, index, hmono, hindex⟩ := hblames errors hp
  exact ⟨⟨c, hp ▸ hrun⟩, index, hmono, fun i => hend ▸ (hindex i).1⟩

end Parser

end Lox
