import Lox.Proofs.Renaming
import Lox.Syntax.Parser

/-!
# Renamed parses

Where the node ids count from and on which lines the tokens stand makes no difference to what is read:
the trees have other ids and lines, and the same tokens are blamed, on their lines.
-/

namespace Lox.Parser

def Error.relabel (f : Nat → Nat) (e : Error) : Error := { e with blamed := e.blamed.relabel f }

/-- Other lines for the tokens, and ids that count from a place further on. -/
structure Shift where
  via : Renaming
  first : Nat
  gap : Nat
  node : ∀ i, first ≤ i → via.node ⟨i⟩ = ⟨i + gap⟩

namespace Shift

def state (x : Shift) (s : State) : State :=
  ⟨s.ahead.map (Token.relabel x.via.line), s.eof.relabel x.via.line, s.nextId + x.gap⟩

/-- From a shifted state the second rule gives what the first one gives, shifted. -/
def Moves {α β : Type} (x : Shift) (p : Parser α) (q : Parser β) (f : α → β) : Prop :=
  ∀ s : State, x.first ≤ s.nextId → match p s with
    | .ok a s' => q (x.state s) = .ok (f a) (x.state s') ∧ x.first ≤ s'.nextId
    | .error e s' =>
      q (x.state s) = .error (e.relabel x.via.line) (x.state s') ∧ x.first ≤ s'.nextId

variable {x : Shift} {α β γ δ : Type} {p : Parser α} {q : Parser β} {f : α → β}

namespace Moves

theorem pure {a : α} {b : β} (h : b = f a) : x.Moves (Pure.pure a) (Pure.pure b) f := by
  intro s hs
  subst h
  exact ⟨rfl, hs⟩

theorem throw {e e' : Error} (h : e' = e.relabel x.via.line) :
    x.Moves (throw e : Parser α) (throw e' : Parser β) f := by
  intro s hs
  subst h
  exact ⟨rfl, hs⟩

theorem peek (s : State) : (x.state s).peek = s.peek.relabel x.via.line := by
  obtain ⟨ahead, eof, next⟩ := s
  cases ahead <;> rfl

theorem fail (cause : Cause) :
    x.Moves (Parser.fail cause : Parser α) (Parser.fail cause : Parser β) f := by
  intro s hs
  refine ⟨?_, hs⟩
  simp only [Parser.fail, peek]
  rfl

theorem bind {g : α → Parser γ} {g' : β → Parser δ} {f' : γ → δ} (h : x.Moves p q f)
    (hg : ∀ a, x.Moves (g a) (g' (f a)) f') : x.Moves (p >>= g) (q >>= g') f' := by
  intro s hs
  have h := h s hs
  simp only [Bind.bind, EStateM.bind]
  split at h
  · obtain ⟨hq, hs'⟩ := h
    simp only [*]
    exact hg _ _ hs'
  · obtain ⟨hq, hs'⟩ := h
    simp only [*]
    exact ⟨trivial, trivial⟩

end Moves

/-! ### Single tokens -/

theorem moves_acceptIf (wanted : Kind → Bool) :
    x.Moves (acceptIf wanted) (acceptIf wanted) (Option.map (Token.relabel x.via.line)) := by
  rintro ⟨ahead, eof, next⟩ hs
  cases ahead with
  | nil => exact ⟨rfl, hs⟩
  | cons t rest =>
    by_cases hw : wanted t.kind = true
    · simpa [acceptIf, hw, state] using hs
    · simpa [acceptIf, hw, state] using hs

theorem moves_accept (kind : Kind) :
    x.Moves (accept kind) (accept kind) (Option.map (Token.relabel x.via.line)) :=
  moves_acceptIf _

theorem moves_check (kind : Kind) : x.Moves (check kind) (check kind) id := by
  rintro ⟨ahead, eof, next⟩ hs
  cases ahead with
  | nil => exact ⟨rfl, hs⟩
  | cons t rest => exact ⟨rfl, hs⟩

theorem moves_atEnd : x.Moves atEnd atEnd id := by
  rintro ⟨ahead, eof, next⟩ hs
  cases ahead with
  | nil => exact ⟨rfl, hs⟩
  | cons t rest => exact ⟨rfl, hs⟩

theorem moves_expect (kind : Kind) (cause : Cause) :
    x.Moves (expect kind cause) (expect kind cause) (Token.relabel x.via.line) := by
  refine (moves_accept kind).bind fun r => ?_
  cases r with
  | some t => exact .pure rfl
  | none => exact .fail cause

theorem moves_freshId : x.Moves freshId freshId x.via.node := by
  intro s hs
  simp only [freshId, x.node _ hs]
  refine ⟨?_, Nat.le_succ_of_le hs⟩
  simp only [state]
  rw [Nat.add_right_comm]

theorem moves_optional (absent : Bool) (h : x.Moves p q f) :
    x.Moves (optional absent p) (optional absent q) (Option.map f) := by
  cases absent with
  | true => exact .pure rfl
  | false => exact h.bind fun a => .pure rfl

/-! ### Expressions -/

theorem rename_node (level : Level) (left right : Expr) (operator : Token) (r : Renaming) :
    (level.node left operator right).rename r =
      level.node (left.rename r) (operator.relabel r.line) (right.rename r) := by
  cases level <;> rfl

theorem moves_assignTo (target value : Expr) (equals : Token) :
    x.Moves (assignTo target equals value)
      (assignTo (target.rename x.via) (equals.relabel x.via.line) (value.rename x.via))
      (Expr.rename x.via) := by
  cases target with
  | «variable» id name => exact moves_freshId.bind fun id => .pure rfl
  | get object name => exact .pure rfl
  | _ => exact .throw rfl

/-- The rules for expressions with this much fuel. -/
structure MovesExpressions (x : Shift) (n : Nat) : Prop where
  expression : x.Moves (expression n) (expression n) (Expr.rename x.via)
  binary (level : Level) : x.Moves (binary n level) (binary n level) (Expr.rename x.via)
  binaryRest (level : Level) (left : Expr) :
    x.Moves (binaryRest n level left) (binaryRest n level (left.rename x.via)) (Expr.rename x.via)
  operand (level : Level) : x.Moves (operand n level) (operand n level) (Expr.rename x.via)
  unary : x.Moves (unary n) (unary n) (Expr.rename x.via)
  callRest (callee : Expr) :
    x.Moves (callRest n callee) (callRest n (callee.rename x.via)) (Expr.rename x.via)
  arguments (count : Nat) :
    x.Moves (arguments n count) (arguments n count) (Expr.renameAll x.via)
  primary : x.Moves (primary n) (primary n) (Expr.rename x.via)

namespace MovesExpressions

variable {n : Nat}

theorem expressionSucc (h : x.MovesExpressions n) :
    x.Moves (Parser.expression (n + 1)) (Parser.expression (n + 1)) (Expr.rename x.via) := by
  simp only [Parser.expression]
  refine (h.binary .or).bind fun target => ?_
  refine (moves_accept _).bind fun equals => ?_
  cases equals with
  | none => exact .pure rfl
  | some equals => exact h.expression.bind fun value => moves_assignTo target value equals

theorem binaryRestSucc (h : x.MovesExpressions n) (level : Level) (left : Expr) :
    x.Moves (Parser.binaryRest (n + 1) level left)
      (Parser.binaryRest (n + 1) level (left.rename x.via)) (Expr.rename x.via) := by
  simp only [Parser.binaryRest]
  refine (moves_acceptIf _).bind fun operator => ?_
  cases operator with
  | none => exact .pure rfl
  | some operator =>
    refine (h.operand level).bind fun right => ?_
    have := h.binaryRest level (level.node left operator right)
    rwa [rename_node] at this

theorem operandSucc (h : x.MovesExpressions n) (level : Level) :
    x.Moves (Parser.operand (n + 1) level) (Parser.operand (n + 1) level) (Expr.rename x.via) := by
  simp only [Parser.operand]
  cases level.tighter with
  | none => exact h.unary
  | some tighter => exact h.binary tighter

theorem unarySucc (h : x.MovesExpressions n) :
    x.Moves (Parser.unary (n + 1)) (Parser.unary (n + 1)) (Expr.rename x.via) := by
  simp only [Parser.unary]
  refine (moves_acceptIf _).bind fun operator => ?_
  cases operator with
  | none => exact h.primary.bind fun e => h.callRest e
  | some operator => exact h.unary.bind fun right => .pure rfl

theorem callRestSucc (h : x.MovesExpressions n) (callee : Expr) :
    x.Moves (Parser.callRest (n + 1) callee) (Parser.callRest (n + 1) (callee.rename x.via))
      (Expr.rename x.via) := by
  have rest (es : List Expr) :
      x.Moves
        (do
          let paren ← expect (.punct .rightParen) .argumentsClose
          Parser.callRest n (.call callee paren es))
        (do
          let paren ← expect (.punct .rightParen) .argumentsClose
          Parser.callRest n (.call (callee.rename x.via) paren (Expr.renameAll x.via es)))
        (Expr.rename x.via) :=
    (moves_expect _ _).bind fun paren => h.callRest (.call callee paren es)
  simp only [Parser.callRest]
  refine (moves_accept _).bind fun opening => ?_
  cases opening with
  | some opening =>
    refine (moves_check _).bind fun closes => ?_
    cases closes with
    | true => exact rest []
    | false => exact (h.arguments 0).bind fun es => rest es
  | none =>
    refine (moves_accept _).bind fun dot => ?_
    cases dot with
    | some dot => exact (moves_expect _ _).bind fun name => h.callRest (.get callee name)
    | none => exact .pure rfl

theorem argumentsSucc (h : x.MovesExpressions n) (count : Nat) :
    x.Moves (Parser.arguments (n + 1) count) (Parser.arguments (n + 1) count)
      (Expr.renameAll x.via) := by
  simp only [Parser.arguments]
  split
  · exact .fail _
  refine h.expression.bind fun first => ?_
  refine (moves_accept _).bind fun comma => ?_
  cases comma with
  | some comma => exact (h.arguments (count + 1)).bind fun es => .pure rfl
  | none => exact .pure rfl

theorem primarySucc (h : x.MovesExpressions n) :
    x.Moves (Parser.primary (n + 1)) (Parser.primary (n + 1)) (Expr.rename x.via) := by
  simp only [Parser.primary]
  refine (moves_acceptIf _).bind fun t => ?_
  cases t with
  | some t => exact .pure rfl
  | none =>
  refine (moves_accept _).bind fun keyword => ?_
  cases keyword with
  | some keyword => exact moves_freshId.bind fun id => .pure rfl
  | none =>
  refine (moves_accept _).bind fun keyword => ?_
  cases keyword with
  | some keyword =>
    refine (moves_expect _ _).bind fun dot => ?_
    refine (moves_expect _ _).bind fun method => ?_
    exact moves_freshId.bind fun id => .pure rfl
  | none =>
  refine (moves_accept _).bind fun name => ?_
  cases name with
  | some name => exact moves_freshId.bind fun id => .pure rfl
  | none =>
  refine (moves_accept _).bind fun opening => ?_
  cases opening with
  | some opening =>
    refine h.expression.bind fun inner => ?_
    exact (moves_expect _ _).bind fun closing => .pure rfl
  | none => exact .fail _

end MovesExpressions

theorem movesExpressions (x : Shift) (n : Nat) : x.MovesExpressions n := by
  induction n with
  | zero =>
    exact
      { expression := .fail _
        binary := fun _ => .fail _
        binaryRest := fun _ _ => .fail _
        operand := fun _ => .fail _
        unary := .fail _
        callRest := fun _ => .fail _
        arguments := fun _ => .fail _
        primary := .fail _ }
  | succ n ih =>
    exact
      { expression := ih.expressionSucc
        binary := fun level => (ih.operand level).bind fun e => ih.binaryRest level e
        binaryRest := ih.binaryRestSucc
        operand := ih.operandSucc
        unary := ih.unarySucc
        callRest := ih.callRestSucc
        arguments := ih.argumentsSucc
        primary := ih.primarySucc }

theorem moves_expression (n : Nat) : x.Moves (expression n) (expression n) (Expr.rename x.via) :=
  (movesExpressions x n).expression

/-! ### Parts of statements -/

theorem moves_expressionStatement (n : Nat) :
    x.Moves (expressionStatement n) (expressionStatement n) (Stmt.rename x.via) := by
  refine (moves_expression n).bind fun value => ?_
  exact (moves_expect _ _).bind fun semicolon => .pure rfl

theorem moves_varDeclaration (n : Nat) :
    x.Moves (varDeclaration n) (varDeclaration n) (Stmt.rename x.via) := by
  refine (moves_expect _ _).bind fun name => ?_
  refine (moves_accept _).bind fun equals => ?_
  rw [Option.isNone_map]
  refine (moves_optional _ (moves_expression n)).bind fun initializer => ?_
  exact (moves_expect _ _).bind fun semicolon => .pure rfl

theorem moves_condition (n : Nat) (opening : Cause) :
    x.Moves (condition n opening) (condition n opening) (Expr.rename x.via) := by
  refine (moves_expect _ _).bind fun _ => ?_
  refine (moves_expression n).bind fun value => ?_
  exact (moves_expect _ _).bind fun _ => .pure rfl

theorem moves_forInitializer (n : Nat) :
    x.Moves (forInitializer n) (forInitializer n) (Option.map (Stmt.rename x.via)) := by
  refine (moves_accept _).bind fun semicolon => ?_
  cases semicolon with
  | some semicolon => exact .pure rfl
  | none =>
  refine (moves_accept _).bind fun keyword => ?_
  cases keyword with
  | some keyword => exact (moves_varDeclaration n).bind fun s => .pure rfl
  | none => exact (moves_expressionStatement n).bind fun s => .pure rfl

theorem moves_parameters (n count : Nat) :
    x.Moves (parameters n count) (parameters n count) (List.map (Token.relabel x.via.line)) := by
  induction n generalizing count with
  | zero => exact .fail _
  | succ n ih =>
    simp only [parameters]
    split
    · exact .fail _
    refine (moves_expect _ _).bind fun name => ?_
    refine (moves_accept _).bind fun comma => ?_
    cases comma with
    | some comma => exact (ih (count + 1)).bind fun names => .pure rfl
    | none => exact .pure rfl

theorem rename_forLoop (r : Renaming) (initializer : Option Stmt)
    (condition increment : Option Expr) (body : Stmt) :
    (forLoop initializer condition increment body).rename r =
      forLoop (initializer.map (Stmt.rename r)) (condition.map (Expr.rename r))
        (increment.map (Expr.rename r)) (body.rename r) := by
  cases initializer <;> cases condition <;> cases increment <;> rfl

/-! ### Statements -/

/-- The rules for statements with this much fuel. -/
structure MovesStatements (x : Shift) (n : Nat) : Prop where
  declaration : x.Moves (declaration n) (declaration n) (Stmt.rename x.via)
  classDeclaration : x.Moves (classDeclaration n) (classDeclaration n) (Stmt.rename x.via)
  methods : x.Moves (methods n) (methods n) (FunDecl.renameAll x.via)
  function (sort : FunctionSort) :
    x.Moves (function n sort) (function n sort) (FunDecl.rename x.via)
  block : x.Moves (block n) (block n) (Stmt.renameAll x.via)
  statement : x.Moves (statement n) (statement n) (Stmt.rename x.via)

namespace MovesStatements

variable {n : Nat}

theorem declarationSucc (h : x.MovesStatements n) :
    x.Moves (Parser.declaration (n + 1)) (Parser.declaration (n + 1)) (Stmt.rename x.via) := by
  simp only [Parser.declaration]
  refine (moves_accept _).bind fun keyword => ?_
  cases keyword with
  | some keyword => exact h.classDeclaration
  | none =>
  refine (moves_accept _).bind fun keyword => ?_
  cases keyword with
  | some keyword => exact (h.function .function).bind fun decl => .pure rfl
  | none =>
  refine (moves_accept _).bind fun keyword => ?_
  cases keyword with
  | some keyword => exact moves_varDeclaration n
  | none => exact h.statement

theorem classDeclarationSucc (h : x.MovesStatements n) :
    x.Moves (Parser.classDeclaration (n + 1)) (Parser.classDeclaration (n + 1))
      (Stmt.rename x.via) := by
  simp only [Parser.classDeclaration]
  refine (moves_expect _ _).bind fun name => ?_
  refine (moves_accept _).bind fun less => ?_
  rw [Option.isNone_map]
  have hs : x.Moves
      (do
        let name ← expect .identifier .superclassName
        return Expr.variable (← freshId) name)
      (do
        let name ← expect .identifier .superclassName
        return Expr.variable (← freshId) name) (Expr.rename x.via) :=
    (moves_expect _ _).bind fun name => moves_freshId.bind fun id => .pure rfl
  refine (moves_optional _ hs).bind fun superclass => ?_
  refine (moves_expect _ _).bind fun _ => ?_
  refine h.methods.bind fun methods => ?_
  exact (moves_expect _ _).bind fun _ => .pure rfl

theorem methodsSucc (h : x.MovesStatements n) :
    x.Moves (Parser.methods (n + 1)) (Parser.methods (n + 1)) (FunDecl.renameAll x.via) := by
  simp only [Parser.methods]
  refine (moves_check _).bind fun closes => ?_
  refine moves_atEnd.bind fun ends => ?_
  dsimp only [id]
  split
  · exact .pure rfl
  refine (h.function .method).bind fun first => ?_
  exact h.methods.bind fun rest => .pure rfl

theorem functionSucc (h : x.MovesStatements n) (sort : FunctionSort) :
    x.Moves (Parser.function (n + 1) sort) (Parser.function (n + 1) sort)
      (FunDecl.rename x.via) := by
  simp only [Parser.function]
  refine (moves_expect _ _).bind fun name => ?_
  refine (moves_expect _ _).bind fun _ => ?_
  have rest (params : List Token) :
      x.Moves
        (do
          let _ ← expect (.punct .rightParen) .parametersClose
          let _ ← expect (.punct .leftBrace) (.bodyOpen sort)
          return FunDecl.mk name params (← Parser.block n))
        (do
          let _ ← expect (.punct .rightParen) .parametersClose
          let _ ← expect (.punct .leftBrace) (.bodyOpen sort)
          return FunDecl.mk (name.relabel x.via.line)
            (params.map (Token.relabel x.via.line)) (← Parser.block n))
        (FunDecl.rename x.via) := by
    refine (moves_expect _ _).bind fun _ => ?_
    refine (moves_expect _ _).bind fun _ => ?_
    exact h.block.bind fun body => .pure rfl
  refine (moves_check _).bind fun closes => ?_
  cases closes with
  | true => exact rest []
  | false => exact (moves_parameters n 0).bind fun params => rest params

theorem blockSucc (h : x.MovesStatements n) :
    x.Moves (Parser.block (n + 1)) (Parser.block (n + 1)) (Stmt.renameAll x.via) := by
  simp only [Parser.block]
  refine (moves_check _).bind fun closes => ?_
  refine moves_atEnd.bind fun ends => ?_
  dsimp only [id]
  split
  · exact (moves_expect _ _).bind fun _ => .pure rfl
  refine h.declaration.bind fun first => ?_
  exact h.block.bind fun rest => .pure rfl

theorem statementSucc (h : x.MovesStatements n) :
    x.Moves (Parser.statement (n + 1)) (Parser.statement (n + 1)) (Stmt.rename x.via) := by
  simp only [Parser.statement]
  refine (moves_accept _).bind fun keyword => ?_
  cases keyword with
  | some keyword =>
    refine (moves_expect _ _).bind fun _ => ?_
    refine (moves_forInitializer n).bind fun initializer => ?_
    refine (moves_check _).bind fun ends => ?_
    refine (moves_optional _ (moves_expression n)).bind fun condition => ?_
    refine (moves_expect _ _).bind fun _ => ?_
    refine (moves_check _).bind fun closes => ?_
    refine (moves_optional _ (moves_expression n)).bind fun increment => ?_
    refine (moves_expect _ _).bind fun _ => ?_
    exact h.statement.bind fun body => .pure (rename_forLoop _ _ _ _ _).symm
  | none =>
  refine (moves_accept _).bind fun keyword => ?_
  cases keyword with
  | some keyword =>
    refine (moves_condition n _).bind fun condition => ?_
    refine h.statement.bind fun thenBranch => ?_
    refine (moves_accept _).bind fun word => ?_
    rw [Option.isNone_map]
    refine (moves_optional _ h.statement).bind fun elseBranch => ?_
    cases elseBranch <;> exact .pure rfl
  | none =>
  refine (moves_accept _).bind fun keyword => ?_
  cases keyword with
  | some keyword =>
    refine (moves_condition n _).bind fun condition => ?_
    exact h.statement.bind fun body => .pure rfl
  | none =>
  refine (moves_accept _).bind fun opening => ?_
  cases opening with
  | some opening => exact h.block.bind fun body => .pure rfl
  | none =>
  refine (moves_accept _).bind fun keyword => ?_
  cases keyword with
  | some keyword =>
    refine (moves_expression n).bind fun value => ?_
    exact (moves_expect _ _).bind fun _ => .pure rfl
  | none =>
  refine (moves_accept _).bind fun keyword => ?_
  cases keyword with
  | some keyword =>
    refine (moves_check _).bind fun ends => ?_
    refine (moves_optional _ (moves_expression n)).bind fun value => ?_
    exact (moves_expect _ _).bind fun _ => .pure rfl
  | none =>
  refine (moves_accept _).bind fun keyword => ?_
  cases keyword with
  | some keyword => exact (moves_expect _ _).bind fun _ => .pure rfl
  | none => exact moves_expressionStatement n

end MovesStatements

theorem movesStatements (x : Shift) (n : Nat) : x.MovesStatements n := by
  induction n with
  | zero =>
    exact
      { declaration := .fail _
        classDeclaration := .fail _
        methods := .fail _
        function := fun _ => .fail _
        block := .fail _
        statement := .fail _ }
  | succ n ih =>
    exact
      { declaration := ih.declarationSucc
        classDeclaration := ih.classDeclarationSucc
        methods := ih.methodsSucc
        function := ih.functionSucc
        block := ih.blockSucc
        statement := ih.statementSucc }

/-! ### Whole inputs -/

theorem dropStatement_map (f : Nat → Nat) (last : Token) (ts : List Token) :
    dropStatement (last.relabel f) (ts.map (Token.relabel f)) =
      (dropStatement last ts).map (Token.relabel f) := by
  induction ts generalizing last with
  | nil => rfl
  | cons t ts ih =>
    simp only [List.map_cons, dropStatement, Token.kind_relabel, ih]
    split <;> rfl

theorem synchronize_state (s : State) : synchronize (x.state s) = x.state (synchronize s) := by
  obtain ⟨ahead, eof, next⟩ := s
  cases ahead with
  | nil => rfl
  | cons t ts =>
    simp only [synchronize, state, List.map_cons, dropStatement_map]

theorem declarations_state (rounds : Nat) (s : State) (hs : x.first ≤ s.nextId) :
    declarations rounds (x.state s) =
      (Stmt.renameAll x.via (declarations rounds s).1,
        (declarations rounds s).2.1.map (Error.relabel x.via.line),
        x.state (declarations rounds s).2.2) := by
  induction rounds generalizing s with
  | zero => rfl
  | succ n ih =>
    have hfuel : fuelFor (x.state s).ahead = fuelFor s.ahead := by simp [fuelFor, state]
    have hempty : (x.state s).ahead.isEmpty = s.ahead.isEmpty := by simp [state]
    have hmoves := (movesStatements x (fuelFor s.ahead)).declaration s hs
    simp only [declarations, hfuel, hempty]
    split
    · rfl
    rcases hd : declaration (fuelFor s.ahead) s with ⟨st, s'⟩ | ⟨e, s'⟩
    · rw [hd] at hmoves
      simp only [hmoves.1, ih s' hmoves.2]
      rfl
    · rw [hd] at hmoves
      have hs' : x.first ≤ (synchronize s').nextId := by
        have : (synchronize s').nextId = s'.nextId := by
          unfold synchronize
          split <;> rfl
        exact this ▸ hmoves.2
      simp only [hmoves.1, synchronize_state, ih _ hs']
      rfl

def stream (x : Shift) (tokens : TokenStream) : TokenStream :=
  ⟨tokens.ahead.map (Token.relabel x.via.line), tokens.eof.relabel x.via.line⟩

theorem program_stream {tokens tokens' : List Token}
    (ht : TokenStream.ofList tokens' = x.stream (TokenStream.ofList tokens)) {n : Nat}
    (hn : x.first ≤ n) :
    program tokens' (n + x.gap) =
      (((program tokens n).1.map (Stmt.renameAll x.via)).mapError
        (List.map (Error.relabel x.via.line)), (program tokens n).2 + x.gap) := by
  have hd := declarations_state (TokenStream.ofList tokens).ahead.length
    ⟨(TokenStream.ofList tokens).ahead, (TokenStream.ofList tokens).eof, n⟩ hn
  simp only [state] at hd
  simp only [program, ht, stream, List.length_map, hd, List.isEmpty_map]
  split <;> rfl

theorem expressionOnly_stream {tokens tokens' : List Token}
    (ht : TokenStream.ofList tokens' = x.stream (TokenStream.ofList tokens)) {n : Nat}
    (hn : x.first ≤ n) :
    expressionOnly tokens' (n + x.gap) =
      (((expressionOnly tokens n).1.map (Expr.rename x.via)).mapError
        (Error.relabel x.via.line), (expressionOnly tokens n).2 + x.gap) := by
  have rule : x.Moves
      (do
        let e ← expression (fuelFor (TokenStream.ofList tokens).ahead)
        if ← atEnd then return e else Parser.fail .endOfExpression)
      (do
        let e ← expression (fuelFor (TokenStream.ofList tokens).ahead)
        if ← atEnd then return e else Parser.fail .endOfExpression)
      (Expr.rename x.via) := by
    refine (moves_expression _).bind fun e => ?_
    refine moves_atEnd.bind fun ends => ?_
    cases ends with
    | true => exact .pure rfl
    | false => exact .fail _
  have h := rule ⟨(TokenStream.ofList tokens).ahead, (TokenStream.ofList tokens).eof, n⟩ hn
  have hfuel : fuelFor (x.stream (TokenStream.ofList tokens)).ahead =
      fuelFor (TokenStream.ofList tokens).ahead := by
    simp [fuelFor, stream]
  unfold expressionOnly
  rw [ht]
  simp only [hfuel]
  split at h
  · next e s' hr =>
    have hq := h.1
    simp only [state] at hq
    simp only [stream, hq, hr]
    rfl
  · next e s' hr =>
    have hq := h.1
    simp only [state] at hq
    simp only [stream, hq, hr]
    rfl

end Shift

end Lox.Parser
