import Mathlib.Data.List.TakeWhile
import Lox.Proofs.JoinedText
import Lox.Proofs.ParsedTrees
import Lox.Proofs.Rejections

/-!
# Where errors stand

The lexer and the parser each report from the front of a source to its end. A rule that fails
blames a token it has taken or the one it has stopped at, and what is skipped after an error
begins with that one, so that no token is blamed twice and none after a later one. A source
reports the errors of the lexer first and then those of the parser, and so the two lists are in
the order of their lines as a whole only when none of the second stands before one of the first.
-/

namespace Lox

/-! ### The lexer -/

namespace Lexer

theorem pieces_lines (line : Nat) (cs : List Char) :
    (∀ p ∈ pieces line cs, line ≤ p.item.line) ∧
      (pieces line cs).Pairwise fun p q => p.item.line ≤ q.item.line := by
  fun_induction pieces line cs with
  | case1 line cs blank h => simp [Item.line]
  | case2 line cs blank c rest h lexeme last _ ih =>
    have hline : (lexeme.item last).line = last := Item.line_lexeme lexeme last
    have hlast : line ≤ last := by omega
    simp only [List.mem_cons, forall_eq_or_imp, List.pairwise_cons, hline]
    exact ⟨⟨hlast, fun p hp => hlast.trans (ih.1 p hp)⟩, ih⟩

/-- What is found further on in a source does not stand on an earlier line. -/
theorem scan_lines (source : String) :
    (scan source).Pairwise fun x y => x.line ≤ y.line :=
  List.pairwise_map.2 (pieces_lines 1 source.toList).2

theorem tokens_lines (source : String) :
    (tokens (scan source)).Pairwise fun t u => t.line ≤ u.line := by
  refine (scan_lines source).filterMap _ fun x y hxy t ht u hu => ?_
  cases x <;> cases ht
  cases y <;> cases hu
  exact hxy

theorem errors_lines (source : String) :
    (errors (scan source)).Pairwise fun e f => e.line ≤ f.line := by
  refine (scan_lines source).filterMap _ fun x y hxy e he f hf => ?_
  cases x <;> cases he
  cases y <;> cases hf
  exact hxy

end Lexer

/-! ### The parser -/

namespace Parser

variable {α β : Type} {seen : List Token} {p : Parser α}

/-- The rule drops tokens from the front. When it fails, it blames one of these, one of those that
were `seen` before it, or the token it has stopped at. -/
def Blames (seen : List Token) (p : Parser α) : Prop :=
  ∀ s : State, match p s with
    | .ok _ s' => ∃ ts, s.ahead = ts ++ s'.ahead ∧ s'.eof = s.eof
    | .error e s' => ∃ ts, s.ahead = ts ++ s'.ahead ∧ s'.eof = s.eof ∧
        (e.blamed = s'.peek ∨ e.blamed ∈ seen ++ ts)

namespace Blames

theorem pure (a : α) : Blames seen (Pure.pure a : Parser α) := fun _ => ⟨[], rfl, rfl⟩

theorem fail (cause : Cause) : Blames seen (Parser.fail cause : Parser α) :=
  fun _ => ⟨[], rfl, rfl, .inl rfl⟩

theorem throw {e : Error} (h : e.blamed ∈ seen) : Blames seen (throw e : Parser α) :=
  fun _ => ⟨[], rfl, rfl, .inr (by simpa using h)⟩

theorem bind {f : α → Parser β} (h : Blames seen p) (hf : ∀ a, Blames seen (f a)) :
    Blames seen (p >>= f) := by
  intro s
  have hp := h s
  simp only [Bind.bind, EStateM.bind]
  rcases hr : p s with ⟨a, s'⟩ | ⟨e, s'⟩
  · rw [hr] at hp
    obtain ⟨ts, hts, heof⟩ := hp
    have hq := hf a s'
    dsimp only
    rcases hr' : f a s' with ⟨b, s''⟩ | ⟨e, s''⟩
    · rw [hr'] at hq
      obtain ⟨us, hus, heof'⟩ := hq
      exact ⟨ts ++ us, by rw [hts, hus, List.append_assoc], heof'.trans heof⟩
    · rw [hr'] at hq
      obtain ⟨us, hus, heof', hb⟩ := hq
      refine ⟨ts ++ us, by rw [hts, hus, List.append_assoc], heof'.trans heof, hb.imp_right ?_⟩
      simp only [List.mem_append]
      tauto
  · rw [hr] at hp
    exact hp

theorem acceptIf (wanted : Kind → Bool) : Blames seen (acceptIf wanted) := by
  intro s
  unfold Parser.acceptIf
  rcases hs : s.ahead with _ | ⟨t, rest⟩
  · exact ⟨[], by simp [hs], rfl⟩
  · dsimp only
    by_cases hw : wanted t.kind = true
    · rw [if_pos hw]
      exact ⟨[t], rfl, rfl⟩
    · rw [if_neg hw]
      exact ⟨[], hs.symm, rfl⟩

theorem accept (kind : Kind) : Blames seen (accept kind) := acceptIf _

/-- A token that is taken has been seen from then on. -/
theorem bind_accept {kind : Kind} {f : Option Token → Parser β} (hn : Blames seen (f none))
    (hs : ∀ t, Blames (t :: seen) (f (some t))) : Blames seen (Parser.accept kind >>= f) := by
  intro s
  have hnone := hn s
  simp only [Bind.bind, EStateM.bind, Parser.accept, Parser.acceptIf]
  rcases hahead : s.ahead with _ | ⟨t, rest⟩
  · simpa only [hahead] using hnone
  dsimp only
  by_cases hk : (t.kind == kind) = true
  · have hsome := hs t { s with ahead := rest }
    rw [if_pos hk]
    dsimp only
    rcases hr : f (some t) { s with ahead := rest } with ⟨a, s'⟩ | ⟨e, s'⟩
    · rw [hr] at hsome
      obtain ⟨ts, hts, heof⟩ := hsome
      exact ⟨t :: ts, congrArg (t :: ·) hts, heof⟩
    · rw [hr] at hsome
      obtain ⟨ts, hts, heof, hb⟩ := hsome
      refine ⟨t :: ts, congrArg (t :: ·) hts, heof, hb.imp_right ?_⟩
      simp only [List.mem_append, List.mem_cons]
      tauto
  · rw [if_neg hk]
    simpa only [hahead] using hnone

theorem expect (kind : Kind) (cause : Cause) : Blames seen (expect kind cause) := by
  refine (accept kind).bind fun r => ?_
  cases r with
  | none => exact fail cause
  | some t => exact pure t

theorem check (kind : Kind) : Blames seen (check kind) := fun _ => ⟨[], rfl, rfl⟩

theorem atEnd : Blames seen atEnd := fun _ => ⟨[], rfl, rfl⟩

theorem freshId : Blames seen freshId := fun _ => ⟨[], rfl, rfl⟩

theorem optional (absent : Bool) (h : Blames seen p) : Blames seen (optional absent p) := by
  unfold Parser.optional
  cases absent with
  | true => exact pure none
  | false => exact h.bind fun a => pure (some a)

theorem assignTo (target value : Expr) {equals : Token} (h : equals ∈ seen) :
    Blames seen (assignTo target equals value) := by
  unfold Parser.assignTo
  split
  · exact freshId.bind fun _ => pure _
  · exact pure _
  · exact throw h

end Blames

/-- The rules for expressions with this much fuel. -/
structure BlamesExpressions (n : Nat) : Prop where
  expression {seen : List Token} : Blames seen (expression n)
  binary {seen : List Token} (level : Level) : Blames seen (binary n level)
  binaryRest {seen : List Token} (level : Level) (left : Expr) :
    Blames seen (binaryRest n level left)
  operand {seen : List Token} (level : Level) : Blames seen (operand n level)
  unary {seen : List Token} : Blames seen (unary n)
  callRest {seen : List Token} (callee : Expr) : Blames seen (callRest n callee)
  arguments {seen : List Token} (count : Nat) : Blames seen (arguments n count)
  primary {seen : List Token} : Blames seen (primary n)

namespace BlamesExpressions

variable {n : Nat}

/-- The only token that is blamed after others were taken is the sign of an assignment to what is no
target. -/
theorem expressionSucc (h : BlamesExpressions n) : Blames seen (Parser.expression (n + 1)) := by
  simp only [Parser.expression]
  refine (h.binary .or).bind fun target => ?_
  refine .bind_accept (.pure target) fun equals => ?_
  exact h.expression.bind fun value => .assignTo target value (by simp)

theorem binaryRestSucc (h : BlamesExpressions n) (level : Level) (left : Expr) :
    Blames seen (Parser.binaryRest (n + 1) level left) := by
  simp only [Parser.binaryRest]
  refine (Blames.acceptIf _).bind fun r => ?_
  cases r with
  | none => exact .pure left
  | some operator => exact (h.operand level).bind fun right => h.binaryRest level _

theorem operandSucc (h : BlamesExpressions n) (level : Level) :
    Blames seen (Parser.operand (n + 1) level) := by
  simp only [Parser.operand]
  split
  · exact h.binary _
  · exact h.unary

theorem unarySucc (h : BlamesExpressions n) : Blames seen (Parser.unary (n + 1)) := by
  simp only [Parser.unary]
  refine (Blames.acceptIf _).bind fun r => ?_
  cases r with
  | none => exact h.primary.bind fun e => h.callRest e
  | some operator => exact h.unary.bind fun right => .pure _

theorem callRestSucc (h : BlamesExpressions n) (callee : Expr) :
    Blames seen (Parser.callRest (n + 1) callee) := by
  simp only [Parser.callRest]
  refine (Blames.accept _).bind fun opening => ?_
  split
  · have close (es : List Expr) : Blames seen
        (do
          let paren ← Parser.expect (.punct .rightParen) .argumentsClose
          Parser.callRest n (.call callee paren es)) :=
      (Blames.expect _ _).bind fun paren => h.callRest _
    refine (Blames.check _).bind fun closes => ?_
    split
    · exact (Blames.pure []).bind close
    · exact (h.arguments 0).bind close
  · refine (Blames.accept _).bind fun dot => ?_
    split
    · exact (Blames.expect _ _).bind fun name => h.callRest _
    · exact .pure callee

theorem argumentsSucc (h : BlamesExpressions n) (count : Nat) :
    Blames seen (Parser.arguments (n + 1) count) := by
  simp only [Parser.arguments]
  split
  · exact .fail _
  refine h.expression.bind fun first => ?_
  refine (Blames.accept _).bind fun comma => ?_
  split
  · exact (h.arguments _).bind fun rest => .pure _
  · exact .pure _

theorem primarySucc (h : BlamesExpressions n) : Blames seen (Parser.primary (n + 1)) := by
  simp only [Parser.primary]
  refine (Blames.acceptIf _).bind fun r => ?_
  cases r with
  | some t => exact .pure _
  | none =>
  refine (Blames.accept _).bind fun r => ?_
  cases r with
  | some keyword => exact Blames.freshId.bind fun id => .pure _
  | none =>
  refine (Blames.accept _).bind fun r => ?_
  cases r with
  | some keyword =>
    refine (Blames.expect _ _).bind fun dot => ?_
    refine (Blames.expect _ _).bind fun method => ?_
    exact Blames.freshId.bind fun id => .pure _
  | none =>
  refine (Blames.accept _).bind fun r => ?_
  cases r with
  | some name => exact Blames.freshId.bind fun id => .pure _
  | none =>
  refine (Blames.accept _).bind fun r => ?_
  cases r with
  | some opening =>
    refine h.expression.bind fun inner => ?_
    exact (Blames.expect _ _).bind fun closing => .pure _
  | none => exact .fail _

end BlamesExpressions

theorem blamesExpressions (n : Nat) : BlamesExpressions n := by
  induction n with
  | zero =>
    exact
      { expression := .fail _
        binary := fun _ => .fail _
        binaryRest := fun _ _ => .fail _
        operand := fun _ => .fail _
        unary := .fail _
        callRest := fun _ => .fail _
        arguments := fun _ => .fail _
        primary := .fail _ }
  | succ n ih =>
    exact
      { expression := ih.expressionSucc
        binary := fun level => by
          simp only [Parser.binary]
          exact (ih.operand level).bind fun left => ih.binaryRest level left
        binaryRest := ih.binaryRestSucc
        operand := ih.operandSucc
        unary := ih.unarySucc
        callRest := ih.callRestSucc
        arguments := ih.argumentsSucc
        primary := ih.primarySucc }

theorem blames_expression (n : Nat) : Blames seen (expression n) := (blamesExpressions n).expression

theorem blames_expressionStatement (n : Nat) : Blames seen (expressionStatement n) :=
  (blames_expression n).bind fun _ => (Blames.expect _ _).bind fun _ => .pure _

theorem blames_varDeclaration (n : Nat) : Blames seen (varDeclaration n) := by
  refine (Blames.expect _ _).bind fun name => ?_
  refine (Blames.accept _).bind fun equals => ?_
  refine (Blames.optional _ (blames_expression n)).bind fun initializer => ?_
  exact (Blames.expect _ _).bind fun semicolon => .pure _

theorem blames_condition (n : Nat) (opening : Cause) : Blames seen (condition n opening) := by
  refine (Blames.expect _ _).bind fun _ => ?_
  refine (blames_expression n).bind fun value => ?_
  exact (Blames.expect _ _).bind fun _ => .pure value

theorem blames_forInitializer (n : Nat) : Blames seen (forInitializer n) := by
  refine (Blames.accept _).bind fun semicolon => ?_
  split
  · exact .pure none
  refine (Blames.accept _).bind fun keyword => ?_
  split
  · exact (blames_varDeclaration n).bind fun s => .pure _
  · exact (blames_expressionStatement n).bind fun s => .pure _

theorem blames_parameters (n count : Nat) : Blames seen (parameters n count) := by
  induction n generalizing count with
  | zero => exact .fail _
  | succ n ih =>
    simp only [parameters]
    split
    · exact .fail _
    refine (Blames.expect _ _).bind fun first => ?_
    refine (Blames.accept _).bind fun comma => ?_
    split
    · exact (ih _).bind fun rest => .pure _
    · exact .pure _

/-- The rules for statements with this much fuel. -/
structure BlamesStatements (seen : List Token) (n : Nat) : Prop where
  declaration : Blames seen (declaration n)
  classDeclaration : Blames seen (classDeclaration n)
  methods : Blames seen (methods n)
  function (sort : FunctionSort) : Blames seen (function n sort)
  block : Blames seen (block n)
  statement : Blames seen (statement n)

namespace BlamesStatements

variable {n : Nat}

theorem declarationSucc (h : BlamesStatements seen n) :
    Blames seen (Parser.declaration (n + 1)) := by
  simp only [Parser.declaration]
  refine (Blames.accept _).bind fun r => ?_
  split
  · exact h.classDeclaration
  refine (Blames.accept _).bind fun r => ?_
  split
  · exact (h.function .function).bind fun f => .pure _
  refine (Blames.accept _).bind fun r => ?_
  split
  · exact blames_varDeclaration n
  · exact h.statement

theorem classDeclarationSucc (h : BlamesStatements seen n) :
    Blames seen (Parser.classDeclaration (n + 1)) := by
  simp only [Parser.classDeclaration]
  refine (Blames.expect _ _).bind fun name => ?_
  refine (Blames.accept _).bind fun less => ?_
  have parent : Blames seen
      (do
        let name ← Parser.expect .identifier .superclassName
        return Expr.variable (← Parser.freshId) name) :=
    (Blames.expect _ _).bind fun name => Blames.freshId.bind fun id => .pure _
  refine (Blames.optional _ parent).bind fun superclass => ?_
  refine (Blames.expect _ _).bind fun _ => ?_
  refine h.methods.bind fun methods => ?_
  exact (Blames.expect _ _).bind fun _ => .pure _

theorem methodsSucc (h : BlamesStatements seen n) : Blames seen (Parser.methods (n + 1)) := by
  simp only [Parser.methods]
  refine (Blames.check _).bind fun closes => ?_
  refine Blames.atEnd.bind fun ends => ?_
  split
  · exact .pure []
  · exact (h.function .method).bind fun f => h.methods.bind fun fs => .pure _

theorem functionSucc (h : BlamesStatements seen n) (sort : FunctionSort) :
    Blames seen (Parser.function (n + 1) sort) := by
  simp only [Parser.function]
  refine (Blames.expect _ _).bind fun name => ?_
  refine (Blames.expect _ _).bind fun _ => ?_
  refine (Blames.check _).bind fun closes => ?_
  have rest (params : List Token) : Blames seen
      (do
        let _ ← Parser.expect (.punct .rightParen) .parametersClose
        let _ ← Parser.expect (.punct .leftBrace) (.bodyOpen sort)
        return FunDecl.mk name params (← Parser.block n)) :=
    (Blames.expect _ _).bind fun _ => (Blames.expect _ _).bind fun _ =>
      h.block.bind fun body => .pure _
  split
  · exact (Blames.pure []).bind rest
  · exact (blames_parameters n 0).bind rest

theorem blockSucc (h : BlamesStatements seen n) : Blames seen (Parser.block (n + 1)) := by
  simp only [Parser.block]
  refine (Blames.check _).bind fun closes => ?_
  refine Blames.atEnd.bind fun ends => ?_
  split
  · exact (Blames.expect _ _).bind fun _ => .pure []
  · exact h.declaration.bind fun s => h.block.bind fun ss => .pure _

theorem statementSucc (h : BlamesStatements seen n) : Blames seen (Parser.statement (n + 1)) := by
  simp only [Parser.statement]
  refine (Blames.accept _).bind fun r => ?_
  split
  · refine (Blames.expect _ _).bind fun _ => ?_
    refine (blames_forInitializer n).bind fun initializer => ?_
    refine (Blames.check _).bind fun _ => ?_
    refine (Blames.optional _ (blames_expression n)).bind fun condition => ?_
    refine (Blames.expect _ _).bind fun _ => ?_
    refine (Blames.check _).bind fun _ => ?_
    refine (Blames.optional _ (blames_expression n)).bind fun increment => ?_
    refine (Blames.expect _ _).bind fun _ => ?_
    exact h.statement.bind fun body => .pure _
  refine (Blames.accept _).bind fun r => ?_
  split
  · refine (blames_condition n _).bind fun condition => ?_
    refine h.statement.bind fun thenBranch => ?_
    refine (Blames.accept _).bind fun r => ?_
    exact (Blames.optional _ h.statement).bind fun elseBranch => .pure _
  refine (Blames.accept _).bind fun r => ?_
  split
  · exact (blames_condition n _).bind fun condition => h.statement.bind fun body => .pure _
  refine (Blames.accept _).bind fun r => ?_
  split
  · exact h.block.bind fun body => .pure _
  refine (Blames.accept _).bind fun r => ?_
  split
  · refine (blames_expression n).bind fun value => ?_
    exact (Blames.expect _ _).bind fun _ => .pure _
  refine (Blames.accept _).bind fun r => ?_
  cases r with
  | some keyword =>
    refine (Blames.check _).bind fun closes => ?_
    refine (Blames.optional _ (blames_expression n)).bind fun value => ?_
    exact (Blames.expect _ _).bind fun _ => .pure _
  | none =>
  refine (Blames.accept _).bind fun r => ?_
  cases r with
  | some keyword => exact (Blames.expect _ _).bind fun _ => .pure _
  | none => exact blames_expressionStatement n

end BlamesStatements

theorem blamesStatements (n : Nat) : BlamesStatements seen n := by
  induction n with
  | zero =>
    exact
      { declaration := .fail _
        classDeclaration := .fail _
        methods := .fail _
        function := fun _ => .fail _
        block := .fail _
        statement := .fail _ }
  | succ n ih =>
    exact
      { declaration := ih.declarationSucc
        classDeclaration := ih.classDeclarationSucc
        methods := ih.methodsSucc
        function := ih.functionSucc
        block := ih.blockSucc
        statement := ih.statementSucc }

/-! ### Whole inputs -/

theorem synchronize_cons {t : Token} {rest : List Token} {s : State} (h : s.ahead = t :: rest) :
    (synchronize s).ahead <:+ rest ∧ (synchronize s).eof = s.eof := by
  unfold synchronize
  rw [h]
  exact ⟨dropStatement_suffix t rest, rfl⟩

theorem declarations_nil {rounds : Nat} {s : State} (h : s.ahead = []) :
    declarations rounds s = ([], [], s) := by
  cases rounds with
  | zero => rfl
  | succ n => simp [declarations, h]

/-- The tokens that the errors blame are tokens of the input, each at most once and in its order. -/
theorem declarations_blamed (rounds : Nat) (s : State) :
    ((declarations rounds s).2.1.map Error.blamed).Sublist (s.ahead ++ [s.eof]) := by
  induction rounds generalizing s with
  | zero => exact List.nil_sublist _
  | succ n ih =>
    unfold declarations
    split
    · exact List.nil_sublist _
    have hd : Blames [] (declaration (fuelFor s.ahead)) :=
      (blamesStatements (fuelFor s.ahead)).declaration
    specialize hd s
    rcases hr : declaration (fuelFor s.ahead) s with ⟨stmt, s'⟩ | ⟨e, s'⟩
    · rw [hr] at hd
      obtain ⟨ts, hts, heof⟩ := hd
      rw [hts, ← heof, List.append_assoc]
      exact (ih s').trans (List.sublist_append_right ts _)
    · rw [hr] at hd
      obtain ⟨ts, hts, heof, hb⟩ := hd
      rw [hts, ← heof, List.append_assoc]
      rcases hahead : s'.ahead with _ | ⟨t, rest⟩
      · -- the error is at the end marker or before it, and nothing is left to be read
        have hs : synchronize s' = s' := by simp [synchronize, hahead]
        have hblamed : e.blamed ∈ ts ++ [s'.eof] := by
          simpa [State.peek, hahead, or_comm] using hb
        simpa [hs, declarations_nil hahead] using hblamed
      · -- the token stopped at is skipped, and the later errors are behind it
        obtain ⟨hsync, heof'⟩ := synchronize_cons hahead
        have hblamed : e.blamed ∈ ts ++ [t] := by
          simpa [State.peek, hahead, or_comm] using hb
        have hlater := (ih (synchronize s')).trans (hsync.sublist.append_right [_])
        rw [heof'] at hlater
        have happend := (List.singleton_sublist.2 hblamed).append hlater
        simpa using happend

/-- The errors of a program blame its tokens in their order. -/
theorem program_blamed {tokens : List Token} {first : Nat} {errors : List Error}
    (h : (program tokens first).1 = .error errors) :
    (errors.map Error.blamed).Sublist
      ((TokenStream.ofList tokens).ahead ++ [(TokenStream.ofList tokens).eof]) := by
  simp only [program] at h
  split at h
  · cases h
  · cases h
    exact declarations_blamed _ _

end Parser

namespace TokenStream

/-- The marker that ends a stream is the first one of the list, or stands on its last line. -/
theorem ofList_cases (tokens : List Token) :
    (∃ rest, tokens = (ofList tokens).ahead ++ (ofList tokens).eof :: rest) ∨
      ((ofList tokens).ahead = tokens ∧
        (ofList tokens).eof.line = (tokens.getLast?.map (·.line)).getD 1) := by
  rcases hfind : tokens.find? (·.kind == .eof) with _ | eof
  · refine .inr ⟨?_, by simp [ofList, hfind]⟩
    rw [ofList, List.takeWhile_eq_self_iff]
    simpa using hfind
  · obtain ⟨heof, front, rest, rfl, hfront⟩ := List.find?_eq_some_iff_append.1 hfind
    refine .inl ⟨rest, ?_⟩
    simp only [ofList, hfind, Option.getD_some]
    rw [List.takeWhile_append_of_pos hfront, List.takeWhile_cons_of_neg (by simp [heof]),
      List.append_nil]

/-- Nothing ahead is an end marker, and behind it stands one. -/
theorem kinds_ofList (tokens : List Token) :
    (∀ t ∈ (ofList tokens).ahead, t.kind ≠ .eof) ∧ (ofList tokens).eof.kind = .eof := by
  refine ⟨fun t ht => by simpa using List.mem_takeWhile_imp ht, ?_⟩
  rcases hfind : tokens.find? (·.kind == .eof) with _ | eof
  · simp [ofList, hfind]
  · simpa [ofList, hfind] using List.find?_some hfind

theorem lines_ofList {tokens : List Token} (h : tokens.Pairwise fun t u => t.line ≤ u.line) :
    ((ofList tokens).ahead ++ [(ofList tokens).eof]).Pairwise fun t u => t.line ≤ u.line := by
  rcases ofList_cases tokens with ⟨rest, hrest⟩ | ⟨hahead, heof⟩
  · rw [hrest] at h
    exact h.sublist ((List.Sublist.refl _).append (by simp))
  · rw [hahead, List.pairwise_append]
    refine ⟨h, List.pairwise_singleton _ _, ?_⟩
    rintro t ht _ (_ | ⟨_, ⟨⟩⟩)
    obtain ⟨front, last, rfl⟩ :=
      (List.eq_nil_or_concat' tokens).resolve_left (List.ne_nil_of_mem ht)
    rw [heof, List.getLast?_concat]
    rcases List.mem_append.1 ht with ht | ht
    · exact (List.pairwise_append.1 h).2.2 t ht last (by simp)
    · rw [List.mem_singleton.1 ht]
      rfl

end TokenStream

/-! ### Sessions -/

/-- What the parser finds wrong with the tokens of a source. -/
def Source.syntaxErrors (source : String) (first : Nat) : List Parser.Error :=
  match (Parser.program (Lexer.tokens (Lexer.scan source)) first).1 with
  | .ok _ => []
  | .error errors => errors

namespace Source

variable {source : String} {first : Nat}

theorem syntaxErrors_lines (source : String) (first : Nat) :
    (syntaxErrors source first).Pairwise fun e f => e.blamed.line ≤ f.blamed.line := by
  unfold syntaxErrors
  split
  · exact .nil
  · next errors h =>
    have hlines := TokenStream.lines_ofList (Lexer.tokens_lines source)
    have hblamed := hlines.sublist (Parser.program_blamed h)
    rw [List.pairwise_map] at hblamed
    exact hblamed

/-- A source with an error of the lexer or of the parser is no program, and all of them are told. -/
theorem program?_of_errors
    (h : Lexer.errors (Lexer.scan source) ≠ [] ∨ syntaxErrors source first ≠ []) :
    (program? source first).1 = .error
      ((Lexer.errors (Lexer.scan source)).map .lex ++ (syntaxErrors source first).map .parse) := by
  unfold syntaxErrors at h ⊢
  simp only [program?, lexicalErrors]
  rcases hp : (Parser.program (Lexer.tokens (Lexer.scan source)) first).1 with errors | program
  · simp
  · have hl : Lexer.errors (Lexer.scan source) ≠ [] := by simpa [hp] using h
    obtain ⟨e, es, he⟩ := List.exists_cons_of_ne_nil hl
    simp [he]

end Source

namespace Session

/-- A source with an error of the lexer or of the parser is rejected with all of them, and leaves
the machine as it was. The errors of each stage are in the order of their lines. The whole list is
so exactly when no error of the parser stands on an earlier line than one of the lexer, since
these are told first. -/
theorem run_reports_by_stage (s : Session) (fuel : Nat) (source : String)
    (h : Lexer.errors (Lexer.scan source) ≠ [] ∨ Source.syntaxErrors source s.nextId ≠ []) :
    let lexical : List Diagnostic := (Lexer.errors (Lexer.scan source)).map .lex
    let syntactic : List Diagnostic := (Source.syntaxErrors source s.nextId).map .parse
    (s.run fuel source).1 = .error (.rejected (lexical ++ syntactic)) ∧
      (s.run fuel source).2.machine = s.machine ∧
      lexical.Pairwise (·.line ≤ ·.line) ∧ syntactic.Pairwise (·.line ≤ ·.line) ∧
      ((lexical ++ syntactic).Pairwise (·.line ≤ ·.line) ↔
        ∀ d ∈ lexical, ∀ e ∈ syntactic, d.line ≤ e.line) := by
  intro lexical syntactic
  have hrun : s.run fuel source = _ := run_of_errors (Source.program?_of_errors h)
  have hlexical : lexical.Pairwise (·.line ≤ ·.line) :=
    List.pairwise_map.2 (Lexer.errors_lines source)
  have hsyntactic : syntactic.Pairwise (·.line ≤ ·.line) :=
    List.pairwise_map.2 (Source.syntaxErrors_lines source s.nextId)
  refine ⟨by rw [hrun], by rw [hrun], hlexical, hsyntactic, ?_⟩
  simp [List.pairwise_append, hlexical, hsyntactic]

/-- A character that begins no token, and a name that is missing on the line behind it. -/
theorem run_reports_by_stage_in_order :
    let source := "@\nvar;"
    let s := start (fun _ => 0) none
    (Lexer.errors (Lexer.scan source) ≠ [] ∨ Source.syntaxErrors source s.nextId ≠ []) ∧
      (s.run 0 source).1 = .error (.rejected [.lex ⟨.unexpected '@', 1⟩,
        .parse ⟨⟨.punct .semicolon, ";", 2⟩, .variableName⟩]) := by
  intro source s
  have hl : Lexer.errors (Lexer.scan source) = [⟨.unexpected '@', 1⟩] := by cbv
  have hp : Source.syntaxErrors source s.nextId =
      [⟨⟨.punct .semicolon, ";", 2⟩, .variableName⟩] := by cbv
  have h : Lexer.errors (Lexer.scan source) ≠ [] ∨ Source.syntaxErrors source s.nextId ≠ [] := by
    simp [hl]
  have hrun := (run_reports_by_stage s 0 source h).1
  rw [hl, hp] at hrun
  exact ⟨h, hrun⟩

/-- With the two lines the other way around the second one is told first. -/
theorem run_reports_out_of_order :
    ∃ errors, ((start (fun _ => 0) none).run 0 "var;\n@").1 = .error (.rejected errors) ∧
      ¬ errors.Pairwise (·.line ≤ ·.line) := by
  refine ⟨[.lex ⟨.unexpected '@', 2⟩, .parse ⟨⟨.punct .semicolon, ";", 1⟩, .variableName⟩], ?_, ?_⟩
  · cbv
  · simp [Diagnostic.line]

end Session

end Lox
