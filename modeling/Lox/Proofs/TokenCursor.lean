import Lox.Syntax.Parser

/-!
# The parser over positions

The rules of the grammar once more, over the whole list of tokens and a position in it. Every look
at a token goes through the position and can fall outside the list, and positions that were left are
kept. The calls of the rules nest to any given depth; what would nest deeper has no result at all.
-/

namespace Lox.Parser

/-- What cuts a rule short: a syntax error, or a look at a position that the list does not have. -/
inductive Halt
  | error (e : Error)
  | outside (index : Nat)
  deriving DecidableEq, Repr

/-- A position in the list, the next node id and the positions held before, the latest first. -/
structure Cursor where
  tokens : List Token
  current : Nat
  nextId : Nat
  trail : List Nat
  deriving DecidableEq, Repr

/-- A rule over positions; without a result if its calls nest too deep. -/
abbrev Reading := ExceptT Halt (StateT Cursor Option)

namespace Cursor

/-- A list that does not end in an end marker gets one, on the line of its last token. -/
def completed (tokens : List Token) : List Token :=
  if tokens.getLast?.any (·.kind == .eof) then tokens
  else tokens ++ [⟨.eof, "", (tokens.getLast?.map (·.line)).getD 1⟩]

def start (tokens : List Token) (first : Nat) : Cursor := ⟨completed tokens, 0, first, []⟩

/-- All positions held so far. -/
def positions (c : Cursor) : List Nat := c.current :: c.trail

def step (c : Cursor) : Cursor :=
  { c with current := c.current + 1, trail := c.current :: c.trail }

/-- No result: a call one deeper than there may be. -/
def tooDeep {α : Type} : Reading α := ExceptT.mk fun _ => none

/-! ### Single tokens -/

def look (index : Nat) : Reading Token := do
  match (← get).tokens[index]? with
  | some t => return t
  | none => throw (.outside index)

def peek : Reading Token := do look (← get).current

/-- The token behind the cursor; at the start, the first one. -/
def previous : Reading Token := do look ((← get).current - 1)

def isAtEnd : Reading Bool := return (← peek).kind == .eof

def checkIf (wanted : Kind → Bool) : Reading Bool := do
  if ← isAtEnd then return false else return wanted (← peek).kind

def check (kind : Kind) : Reading Bool := checkIf (· == kind)

/-- Moves on, unless the end has been reached, and gives the token behind the cursor. -/
def advance : Reading Token := do
  if ← isAtEnd then previous
  else
    modify step
    previous

def takesIf (wanted : Kind → Bool) : Reading Bool := do
  if ← checkIf wanted then
    let _ ← advance
    return true
  else return false

def takes (kind : Kind) : Reading Bool := takesIf (· == kind)

def blame {α : Type} (t : Token) (cause : Cause) : Reading α := throw (.error ⟨t, cause⟩)

def consume (kind : Kind) (cause : Cause) : Reading Token := do
  if ← check kind then advance else blame (← peek) cause

def freshId : Reading NodeId :=
  modifyGet fun c => (⟨c.nextId⟩, { c with nextId := c.nextId + 1 })

def optional {α : Type} (absent : Bool) (q : Reading α) : Reading (Option α) :=
  if absent then return none else return some (← q)

/-! ### Expressions -/

def assignTo (target : Expr) (equals : Token) (value : Expr) : Reading Expr :=
  match target with
  | .variable _ name => return .assign (← freshId) name value
  | .get object name => return .set object name value
  | _ => blame equals .assignmentTarget

mutual

def expression : (depth : Nat) → Reading Expr
  | 0 => tooDeep
  | n + 1 => do
    let target ← binary n .or
    if ← takes (.punct .equal) then
      let equals ← previous
      assignTo target equals (← expression n)
    else return target

def binary : (depth : Nat) → Level → Reading Expr
  | 0, _ => tooDeep
  | n + 1, level => do
    binaryRest n level (← operand n level)

def binaryRest : (depth : Nat) → Level → Expr → Reading Expr
  | 0, _, _ => tooDeep
  | n + 1, level, left => do
    if ← takesIf level.accepts then
      let operator ← previous
      binaryRest n level (level.node left operator (← operand n level))
    else return left

def operand : (depth : Nat) → Level → Reading Expr
  | 0, _ => tooDeep
  | n + 1, level =>
    match level.tighter with
    | some tighter => binary n tighter
    | none => unary n

def unary : (depth : Nat) → Reading Expr
  | 0 => tooDeep
  | n + 1 => do
    if ← takesIf isUnaryOperator then
      let operator ← previous
      return .unary operator (← unary n)
    else callRest n (← primary n)

def callRest : (depth : Nat) → Expr → Reading Expr
  | 0, _ => tooDeep
  | n + 1, callee => do
    if ← takes (.punct .leftParen) then
      let arguments ← if ← check (.punct .rightParen) then pure [] else arguments n 0
      let paren ← consume (.punct .rightParen) .argumentsClose
      callRest n (.call callee paren arguments)
    else if ← takes (.punct .dot) then
      callRest n (.get callee (← consume .identifier .propertyName))
    else return callee

def arguments : (depth : Nat) → (count : Nat) → Reading (List Expr)
  | 0, _ => tooDeep
  | n + 1, count => do
    if maxArity ≤ count then blame (← peek) .tooManyArguments else
      let first ← expression n
      if ← takes (.punct .comma) then return first :: (← arguments n (count + 1))
      else return [first]

def primary : (depth : Nat) → Reading Expr
  | 0 => tooDeep
  | n + 1 => do
    if ← takesIf fun kind => (literal? kind).isSome then
      return .literal ((literal? (← previous).kind).getD .nil)
    else if ← takes (.keyword .this) then
      let keyword ← previous
      return .this (← freshId) keyword
    else if ← takes (.keyword .super) then
      let keyword ← previous
      let _ ← consume (.punct .dot) .superDot
      let method ← consume .identifier .superMethod
      return .super (← freshId) keyword method
    else if ← takes .identifier then
      let name ← previous
      return .variable (← freshId) name
    else if ← takes (.punct .leftParen) then
      let inner ← expression n
      let _ ← consume (.punct .rightParen) .groupClose
      return .grouping inner
    else blame (← peek) .expression

end

/-! ### Statements -/

def parameters : (depth : Nat) → (count : Nat) → Reading (List Token)
  | 0, _ => tooDeep
  | n + 1, count => do
    if maxArity ≤ count then blame (← peek) .tooManyParameters else
      let first ← consume .identifier .parameterName
      if ← takes (.punct .comma) then return first :: (← parameters n (count + 1))
      else return [first]

def expressionStatement (depth : Nat) : Reading Stmt := do
  let value ← expression depth
  let _ ← consume (.punct .semicolon) .expressionEnd
  return .expression value

def varDeclaration (depth : Nat) : Reading Stmt := do
  let name ← consume .identifier .variableName
  let initializer ← optional (!(← takes (.punct .equal))) (expression depth)
  let _ ← consume (.punct .semicolon) .variableEnd
  return .var name initializer

def condition (depth : Nat) (opening : Cause) : Reading Expr := do
  let _ ← consume (.punct .leftParen) opening
  let value ← expression depth
  let _ ← consume (.punct .rightParen) .conditionClose
  return value

def forInitializer (depth : Nat) : Reading (Option Stmt) := do
  if ← takes (.punct .semicolon) then return none
  else if ← takes (.keyword .var) then return some (← varDeclaration depth)
  else return some (← expressionStatement depth)

def printStatement (depth : Nat) : Reading Stmt := do
  let value ← expression depth
  let _ ← consume (.punct .semicolon) .printEnd
  return .print value

def returnStatement (depth : Nat) : Reading Stmt := do
  let keyword ← previous
  let value ← optional (← check (.punct .semicolon)) (expression depth)
  let _ ← consume (.punct .semicolon) .returnEnd
  return .return keyword value

def breakStatement : Reading Stmt := do
  let keyword ← previous
  let _ ← consume (.punct .semicolon) .breakEnd
  return .break keyword

/-- Behind the keyword of a `for`; `statement` reads the body. -/
def forStatement (depth : Nat) (statement : Reading Stmt) : Reading Stmt := do
  let _ ← consume (.punct .leftParen) .forOpen
  let initializer ← forInitializer depth
  let condition ← optional (← check (.punct .semicolon)) (expression depth)
  let _ ← consume (.punct .semicolon) .forConditionEnd
  let increment ← optional (← check (.punct .rightParen)) (expression depth)
  let _ ← consume (.punct .rightParen) .forClose
  return forLoop initializer condition increment (← statement)

def ifStatement (depth : Nat) (statement : Reading Stmt) : Reading Stmt := do
  let condition ← condition depth .ifOpen
  let thenBranch ← statement
  if ← takes (.keyword .else) then
    return .if condition thenBranch (some (← statement))
  else return .if condition thenBranch none

def whileStatement (depth : Nat) (statement : Reading Stmt) : Reading Stmt := do
  let condition ← condition depth .whileOpen
  return .while condition (← statement)

mutual

def declaration : (depth : Nat) → Reading Stmt
  | 0 => tooDeep
  | n + 1 => do
    if ← takes (.keyword .class) then classDeclaration n
    else if ← takes (.keyword .fun) then return .function (← function n .function)
    else if ← takes (.keyword .var) then varDeclaration n
    else statement n

def classDeclaration : (depth : Nat) → Reading Stmt
  | 0 => tooDeep
  | n + 1 => do
    let name ← consume .identifier .className
    let superclass ← optional (!(← takes (.punct .less))) do
      let name ← consume .identifier .superclassName
      return .variable (← freshId) name
    let _ ← consume (.punct .leftBrace) .classOpen
    let methods ← methods n
    let _ ← consume (.punct .rightBrace) .classClose
    return .class name superclass methods

def methods : (depth : Nat) → Reading (List FunDecl)
  | 0 => tooDeep
  | n + 1 => do
    if (← check (.punct .rightBrace)) || (← isAtEnd) then return []
    else
      let first ← function n .method
      return first :: (← methods n)

def function : (depth : Nat) → FunctionSort → Reading FunDecl
  | 0, _ => tooDeep
  | n + 1, sort => do
    let name ← consume .identifier (.functionName sort)
    let _ ← consume (.punct .leftParen) (.parametersOpen sort)
    let params ← if ← check (.punct .rightParen) then pure [] else parameters n 0
    let _ ← consume (.punct .rightParen) .parametersClose
    let _ ← consume (.punct .leftBrace) (.bodyOpen sort)
    return ⟨name, params, ← block n⟩

def block : (depth : Nat) → Reading (List Stmt)
  | 0 => tooDeep
  | n + 1 => do
    if (← check (.punct .rightBrace)) || (← isAtEnd) then
      let _ ← consume (.punct .rightBrace) .blockClose
      return []
    else
      let first ← declaration n
      return first :: (← block n)

def statement : (depth : Nat) → Reading Stmt
  | 0 => tooDeep
  | n + 1 => do
    if ← takes (.keyword .for) then forStatement n (statement n)
    else if ← takes (.keyword .if) then ifStatement n (statement n)
    else if ← takes (.keyword .while) then whileStatement n (statement n)
    else if ← takes (.punct .leftBrace) then return .block (← block n)
    else if ← takes (.keyword .print) then printStatement n
    else if ← takes (.keyword .return) then returnStatement n
    else if ← takes (.keyword .break) then breakStatement
    else expressionStatement n

end

/-! ### Whole inputs -/

/-- Skips to behind a semicolon, to the start of a statement or to the end. -/
def skip : (depth : Nat) → Reading Unit
  | 0 => tooDeep
  | n + 1 => do
    if ← isAtEnd then return ()
    else if (← previous).kind == .punct .semicolon then return ()
    else if resumesAt (← peek).kind then return ()
    else
      let _ ← advance
      skip n

def synchronize (depth : Nat) : Reading Unit := do
  let _ ← advance
  skip depth

/-- A syntax error becomes a result; a look outside the list does not. -/
def attempt {α : Type} (q : Reading α) : Reading (Except Error α) :=
  ExceptT.mk do
    match ← q.run with
    | .ok a => return .ok (.ok a)
    | .error (.error e) => return .ok (.error e)
    | .error (.outside index) => return .error (.outside index)

def declarations : (depth : Nat) → Reading (List Stmt × List Error)
  | 0 => tooDeep
  | n + 1 => do
    if ← isAtEnd then return ([], [])
    else
      match ← attempt (declaration n) with
      | .ok stmt =>
        let (stmts, errors) ← declarations n
        return (stmt :: stmts, errors)
      | .error e =>
        synchronize n
        let (stmts, errors) ← declarations n
        return (stmts, e :: errors)

def parse (depth : Nat) : Reading (Except (List Error) (List Stmt)) := do
  let (stmts, errors) ← declarations depth
  return if errors.isEmpty then .ok stmts else .error errors

def parseExpression (depth : Nat) : Reading Expr := do
  let e ← expression depth
  if ← isAtEnd then return e else blame (← peek) .endOfExpression

end Cursor

/-! ### Tapes -/

namespace Reading

variable {α β : Type} {q : Reading α} {g : α → Reading β} {c c' : Cursor}

theorem run_bind_ok {a : α} (h : q.run.run c = some (.ok a, c')) :
    (q >>= g).run.run c = (g a).run.run c' := by
  change Option.bind (q.run.run c) _ = _
  rw [h]
  rfl

theorem run_bind_error {e : Halt} (h : q.run.run c = some (.error e, c')) :
    (q >>= g).run.run c = some (.error e, c') := by
  change Option.bind (q.run.run c) _ = _
  rw [h]
  rfl

end Reading

/-- A list of tokens as the parser sees it: those before the first end marker, the marker and those
that are never looked at. -/
structure Tape where
  front : List Token
  eof : Token
  rest : List Token
  front_kind : ∀ t ∈ front, t.kind ≠ .eof
  eof_kind : eof.kind = .eof

namespace Tape

def tokens (x : Tape) : List Token := x.front ++ x.eof :: x.rest

/-- The cursor is on the tape and has never been behind its end marker. -/
structure Holds (x : Tape) (c : Cursor) : Prop where
  tokens_eq : c.tokens = x.tokens
  positions_le : ∀ i ∈ c.positions, i ≤ x.front.length

def state (x : Tape) (c : Cursor) : State := ⟨x.front.drop c.current, x.eof, c.nextId⟩

/-- `t` is the token behind the cursor. -/
def Behind (x : Tape) (c : Cursor) (t : Token) : Prop := x.tokens[c.current - 1]? = some t

variable {x : Tape} {c : Cursor}

theorem Holds.current_le (h : x.Holds c) : c.current ≤ x.front.length :=
  h.positions_le _ List.mem_cons_self

theorem Holds.step (h : x.Holds c) (hlt : c.current < x.front.length) : x.Holds c.step where
  tokens_eq := h.tokens_eq
  positions_le := by
    rintro i (_ | ⟨_, hi⟩)
    · exact hlt
    · exact h.positions_le i hi

theorem tokens_lt {i : Nat} (h : i < x.front.length) : x.tokens[i]? = some x.front[i] := by
  simp [tokens, List.getElem?_append_left h, h]

theorem tokens_front : x.tokens[x.front.length]? = some x.eof := by simp [tokens]

theorem ahead_cons (h : c.current < x.front.length) :
    (x.state c).ahead = x.front[c.current] :: (x.state c.step).ahead :=
  List.drop_eq_getElem_cons h

theorem ahead_nil (h : c.current = x.front.length) : (x.state c).ahead = [] := by
  simp [state, h]

/-! ### Single tokens -/

theorem look_run {t : Token} {i : Nat} (h : x.Holds c) (ht : x.tokens[i]? = some t) :
    (Cursor.look i).run.run c = some (.ok t, c) := by
  have hget : (get : Reading Cursor).run.run c = some (.ok c, c) := rfl
  unfold Cursor.look
  rw [Reading.run_bind_ok hget, h.tokens_eq, ht]
  rfl

theorem peek_run (h : x.Holds c) : Cursor.peek.run.run c = some (.ok (x.state c).peek, c) := by
  have ht : x.tokens[c.current]? = some (x.state c).peek := by
    rcases Nat.lt_or_eq_of_le h.current_le with hlt | heq
    · simp [State.peek, ahead_cons hlt, tokens_lt hlt]
    · simp [State.peek, state, heq, tokens_front]
  exact look_run h ht

theorem previous_run {t : Token} (h : x.Holds c) (ht : x.Behind c t) :
    Cursor.previous.run.run c = some (.ok t, c) := look_run h ht

theorem behind_step (h : c.current < x.front.length) : x.Behind c.step x.front[c.current] :=
  tokens_lt h

theorem isAtEnd_run (h : x.Holds c) :
    Cursor.isAtEnd.run.run c = some (.ok (x.state c).ahead.isEmpty, c) := by
  have hkind : ((x.state c).peek.kind == .eof) = (x.state c).ahead.isEmpty := by
    rcases Nat.lt_or_eq_of_le h.current_le with hlt | heq
    · simpa [State.peek, ahead_cons hlt] using x.front_kind _ (List.getElem_mem hlt)
    · rw [State.peek, ahead_nil heq]
      simpa [state] using x.eof_kind
  unfold Cursor.isAtEnd
  rw [Reading.run_bind_ok (peek_run h), hkind]
  rfl

theorem checkIf_run (h : x.Holds c) (wanted : Kind → Bool) :
    (Cursor.checkIf wanted).run.run c =
      some (.ok ((x.state c).ahead.head?.any fun t => wanted t.kind), c) := by
  unfold Cursor.checkIf
  rw [Reading.run_bind_ok (isAtEnd_run h)]
  rcases Nat.lt_or_eq_of_le h.current_le with hlt | heq
  · simp only [ahead_cons hlt, List.isEmpty_cons, Bool.false_eq_true, if_false]
    rw [Reading.run_bind_ok (peek_run h), State.peek, ahead_cons hlt]
    rfl
  · rw [ahead_nil heq]
    rfl

theorem advance_run (h : x.Holds c) (hlt : c.current < x.front.length) :
    Cursor.advance.run.run c = some (.ok x.front[c.current], c.step) := by
  have hstep : (modify Cursor.step : Reading Unit).run.run c = some (.ok (), c.step) := rfl
  unfold Cursor.advance
  rw [Reading.run_bind_ok (isAtEnd_run h), ahead_cons hlt]
  simp only [List.isEmpty_cons, Bool.false_eq_true, if_false]
  rw [Reading.run_bind_ok hstep, previous_run (h.step hlt) (behind_step hlt)]

/-- Either the next token is not wanted, or both rules take it and the cursor has it behind. -/
theorem next_cases (h : x.Holds c) (wanted : Kind → Bool) :
    (acceptIf wanted (x.state c) = .ok none (x.state c) ∧
      (Cursor.checkIf wanted).run.run c = some (.ok false, c)) ∨
    ∃ t, x.Holds c.step ∧ x.Behind c.step t ∧
      acceptIf wanted (x.state c) = .ok (some t) (x.state c.step) ∧
      (Cursor.checkIf wanted).run.run c = some (.ok true, c) ∧
      Cursor.advance.run.run c = some (.ok t, c.step) := by
  have hrun := checkIf_run h wanted
  rcases Nat.lt_or_eq_of_le h.current_le with hlt | heq
  · rw [ahead_cons hlt] at hrun
    unfold acceptIf
    rw [ahead_cons hlt]
    rcases hw : wanted x.front[c.current].kind with _ | _
    · exact .inl ⟨by simp [hw], by simpa [hw] using hrun⟩
    · exact .inr ⟨_, h.step hlt, behind_step hlt, by simp [hw]; rfl, by simpa [hw] using hrun,
        advance_run h hlt⟩
  · rw [ahead_nil heq] at hrun
    exact .inl ⟨by simp [acceptIf, ahead_nil heq], hrun⟩

/-- At the end the cursor stays where it is. -/
theorem advance_end (h : x.Holds c) (heq : c.current = x.front.length) :
    ∃ t, Cursor.advance.run.run c = some (.ok t, c) := by
  have hlt : c.current - 1 < x.tokens.length := by simp [tokens]; omega
  refine ⟨x.tokens[c.current - 1], ?_⟩
  unfold Cursor.advance
  rw [Reading.run_bind_ok (isAtEnd_run h), ahead_nil heq]
  exact previous_run h (List.getElem?_eq_getElem hlt)

end Tape

end Lox.Parser
