import Lox.Syntax

/-!
# Parsing

A parser reads the tokens before the first end marker and hands out node ids as it goes. Each rule
of the grammar is a function that takes fuel; `program` and `expressionOnly` give enough of it for
the tokens at hand. A syntax error blames one token; after an error in a program the parser skips
to the next likely start of a statement and goes on, so that one input reports all of them.

    program     → declaration* eof
    declaration → class | fun function | var | statement
    class       → "class" name ( "<" name )? "{" function* "}"
    function    → name "(" ( name ( "," name )* )? ")" block
    var         → "var" name ( "=" expression )? ";"
    statement   → expression ";" | for | if | print | return | while | break | block
    for         → "for" "(" ( var | expression ";" | ";" ) expression? ";" expression? ")" statement
    if          → "if" "(" expression ")" statement ( "else" statement )?
    while       → "while" "(" expression ")" statement
    print       → "print" expression ";"
    return      → "return" expression? ";"
    break       → "break" ";"
    block       → "{" declaration* "}"
    expression  → ( call "." )? name "=" expression | or
    or          → and ( "or" and )*
    and         → equality ( "and" equality )*
    equality    → comparison ( ( "!=" | "==" ) comparison )*
    comparison  → term ( ( ">" | ">=" | "<" | "<=" ) term )*
    term        → factor ( ( "-" | "+" ) factor )*
    factor      → unary ( ( "*" | "/" ) unary )*
    unary       → ( "!" | "-" ) unary | call
    call        → primary ( "(" ( expression ( "," expression )* )? ")" | "." name )*
    primary     → number | string | "true" | "false" | "nil" | "this" | name
                | "(" expression ")" | "super" "." name
-/

namespace Lox

/-- Lists of parameters and arguments are at most this long. -/
def maxArity : Nat := 255

/-- Tokens up to the first end marker. -/
structure TokenStream where
  ahead : List Token
  eof : Token

/-- Tokens after the first end marker are never read; without one, the last token's line ends the
stream. -/
def TokenStream.ofList (tokens : List Token) : TokenStream :=
  let isEof (t : Token) : Bool := t.kind == .eof
  { ahead := tokens.takeWhile fun t => !isEof t
    eof := (tokens.find? isEof).getD ⟨.eof, "", (tokens.getLast?.map (·.line)).getD 1⟩ }

/-- What a function declaration is called in complaints. -/
inductive FunctionSort
  | function
  | method
  deriving DecidableEq, Repr

def FunctionSort.name : FunctionSort → String
  | .function => "function"
  | .method => "method"

namespace Parser

/-- What is missing or wrong at the blamed token. -/
inductive Cause
  | className | superclassName | classOpen | classClose
  | functionName (sort : FunctionSort) | parametersOpen (sort : FunctionSort)
  | tooManyParameters | parameterName | parametersClose | bodyOpen (sort : FunctionSort)
  | variableName | variableEnd
  | forOpen | forConditionEnd | forClose
  | ifOpen | whileOpen | conditionClose
  | printEnd | returnEnd | breakEnd | expressionEnd | blockClose
  | assignmentTarget | propertyName | tooManyArguments | argumentsClose
  | superDot | superMethod | groupClose | expression | endOfExpression
  deriving DecidableEq, Repr

def Cause.message : Cause → String
  | className => "Expected class name"
  | superclassName => "Expected superclass name"
  | classOpen => "Expected '\x7b' before class body"
  | classClose => "Expected '\x7d' after class body"
  | functionName sort => "Expected " ++ sort.name ++ " name"
  | parametersOpen sort => "Expected '(' after " ++ sort.name ++ " name"
  | tooManyParameters => "Can't have more than 255 parameters"
  | parameterName => "Expected parameter name"
  | parametersClose => "Expected ')' after parameters"
  | bodyOpen sort => "Expected '\x7b' before " ++ sort.name ++ " body"
  | variableName => "Expected variable name"
  | variableEnd => "Expected ';' after variable declaration"
  | forOpen => "Expected '(' after 'for'"
  | forConditionEnd => "Expected ';' after loop condition"
  | forClose => "Expected ')' after for clauses"
  | ifOpen => "Expected '(' after 'if'"
  | whileOpen => "Expected '(' after 'while'"
  | conditionClose => "Expected ')' after condition"
  | printEnd => "Expected ';' after value"
  | returnEnd => "Expected ';' after return value"
  | breakEnd => "Expected ';' after 'break'"
  | expressionEnd => "Expected ';' after expression"
  | blockClose => "Expected '\x7d' after block"
  | assignmentTarget => "Invalid assignment target"
  | propertyName => "Expected property name after '.'"
  | tooManyArguments => "Can't have more than 255 arguments"
  | argumentsClose => "Expected ')' after arguments"
  | superDot => "Expected '.' after 'super'"
  | superMethod => "Expected superclass method name"
  | groupClose => "Expected ')' after expression"
  | expression => "Expected expression"
  | endOfExpression => "Expected end of expression"

structure Error where
  blamed : Token
  cause : Cause
  deriving DecidableEq, Repr

/-- The unread tokens and the next node id. -/
structure State where
  ahead : List Token
  eof : Token
  nextId : Nat

end Parser

abbrev Parser := EStateM Parser.Error Parser.State

namespace Parser

/-! ### Single tokens -/

def State.peek (s : State) : Token := s.ahead.headD s.eof

def fail {α : Type} (cause : Cause) : Parser α := fun s => .error ⟨s.peek, cause⟩ s

/-- Takes the next token if its kind is wanted; the end marker is never taken. -/
def acceptIf (wanted : Kind → Bool) : Parser (Option Token) := fun s =>
  match s.ahead with
  | t :: rest => if wanted t.kind then .ok (some t) { s with ahead := rest } else .ok none s
  | [] => .ok none s

def accept (kind : Kind) : Parser (Option Token) := acceptIf (· == kind)

def check (kind : Kind) : Parser Bool := fun s =>
  .ok (s.ahead.head?.any (·.kind == kind)) s

def atEnd : Parser Bool := fun s => .ok s.ahead.isEmpty s

def expect (kind : Kind) (cause : Cause) : Parser Token := do
  match ← accept kind with
  | some t => return t
  | none => fail cause

def freshId : Parser NodeId := fun s => .ok ⟨s.nextId⟩ { s with nextId := s.nextId + 1 }

/-! ### Expressions -/

/-- The precedence levels of binary operators, loosest first. -/
inductive Level
  | or | and | equality | comparison | term | factor
  deriving DecidableEq, Repr

def Level.tighter : Level → Option Level
  | or => some and
  | and => some equality
  | equality => some comparison
  | comparison => some term
  | term => some factor
  | factor => none

def Level.accepts : Level → Kind → Bool
  | or, kind => kind == .keyword .or
  | and, kind => kind == .keyword .and
  | equality, kind => kind == .punct .bangEqual || kind == .punct .equalEqual
  | comparison, kind =>
    kind == .punct .greater || kind == .punct .greaterEqual || kind == .punct .less ||
      kind == .punct .lessEqual
  | term, kind => kind == .punct .minus || kind == .punct .plus
  | factor, kind => kind == .punct .star || kind == .punct .slash

def Level.node : Level → Expr → Token → Expr → Expr
  | or => .logical
  | and => .logical
  | _ => .binary

def isUnaryOperator (kind : Kind) : Bool := kind == .punct .bang || kind == .punct .minus

/-- The tokens that are an expression by themselves, up to the node id some of them take. -/
def literal? : Kind → Option Literal
  | .keyword .false => some (.bool false)
  | .keyword .true => some (.bool true)
  | .keyword .nil => some .nil
  | .number x => some (.number x)
  | .string s => some (.string s)
  | _ => none

/-- Only a variable or a property can be assigned to. -/
def assignTo (target : Expr) (equals : Token) (value : Expr) : Parser Expr :=
  match target with
  | .variable _ name => return .assign (← freshId) name value
  | .get object name => return .set object name value
  | _ => throw ⟨equals, .assignmentTarget⟩

mutual

def expression : (fuel : Nat) → Parser Expr
  | 0 => fail .expression
  | n + 1 => do
    let target ← binary n .or
    match ← accept (.punct .equal) with
    | none => return target
    | some equals => assignTo target equals (← expression n)

/-- Operands joined to the left by the operators of one level. -/
def binary : (fuel : Nat) → Level → Parser Expr
  | 0, _ => fail .expression
  | n + 1, level => do binaryRest n level (← operand n level)

def binaryRest : (fuel : Nat) → Level → Expr → Parser Expr
  | 0, _, _ => fail .expression
  | n + 1, level, left => do
    match ← acceptIf level.accepts with
    | none => return left
    | some operator => binaryRest n level (level.node left operator (← operand n level))

def operand : (fuel : Nat) → Level → Parser Expr
  | 0, _ => fail .expression
  | n + 1, level =>
    match level.tighter with
    | some tighter => binary n tighter
    | none => unary n

def unary : (fuel : Nat) → Parser Expr
  | 0 => fail .expression
  | n + 1 => do
    match ← acceptIf isUnaryOperator with
    | some operator => return .unary operator (← unary n)
    | none => callRest n (← primary n)

/-- Argument lists and property names after an expression. -/
def callRest : (fuel : Nat) → Expr → Parser Expr
  | 0, _ => fail .expression
  | n + 1, callee => do
    if (← accept (.punct .leftParen)).isSome then
      let arguments ← if ← check (.punct .rightParen) then pure [] else arguments n 0
      let paren ← expect (.punct .rightParen) .argumentsClose
      callRest n (.call callee paren arguments)
    else if (← accept (.punct .dot)).isSome then
      callRest n (.get callee (← expect .identifier .propertyName))
    else return callee

/-- Expressions with commas between them, after `count` earlier ones. -/
def arguments : (fuel : Nat) → (count : Nat) → Parser (List Expr)
  | 0, _ => fail .expression
  | n + 1, count => do
    if maxArity ≤ count then fail .tooManyArguments else
      let first ← expression n
      if (← accept (.punct .comma)).isSome then return first :: (← arguments n (count + 1))
      else return [first]

def primary : (fuel : Nat) → Parser Expr
  | 0 => fail .expression
  | n + 1 => do
    match ← acceptIf fun kind => (literal? kind).isSome with
    | some t => return .literal ((literal? t.kind).getD .nil)
    | none =>
    match ← accept (.keyword .this) with
    | some keyword => return .this (← freshId) keyword
    | none =>
    match ← accept (.keyword .super) with
    | some keyword =>
      let _ ← expect (.punct .dot) .superDot
      let method ← expect .identifier .superMethod
      return .super (← freshId) keyword method
    | none =>
    match ← accept .identifier with
    | some name => return .variable (← freshId) name
    | none =>
    match ← accept (.punct .leftParen) with
    | some _ =>
      let inner ← expression n
      let _ ← expect (.punct .rightParen) .groupClose
      return .grouping inner
    | none => fail .expression

end

/-! ### Statements -/

def optional {α : Type} (absent : Bool) (p : Parser α) : Parser (Option α) :=
  if absent then return none else return some (← p)

/-- Names with commas between them, after `count` earlier ones. -/
def parameters : (fuel : Nat) → (count : Nat) → Parser (List Token)
  | 0, _ => fail .parameterName
  | n + 1, count => do
    if maxArity ≤ count then fail .tooManyParameters else
      let first ← expect .identifier .parameterName
      if (← accept (.punct .comma)).isSome then return first :: (← parameters n (count + 1))
      else return [first]

def expressionStatement (fuel : Nat) : Parser Stmt := do
  let value ← expression fuel
  let _ ← expect (.punct .semicolon) .expressionEnd
  return .expression value

def varDeclaration (fuel : Nat) : Parser Stmt := do
  let name ← expect .identifier .variableName
  let initializer ← optional (← accept (.punct .equal)).isNone (expression fuel)
  let _ ← expect (.punct .semicolon) .variableEnd
  return .var name initializer

def condition (fuel : Nat) (opening : Cause) : Parser Expr := do
  let _ ← expect (.punct .leftParen) opening
  let value ← expression fuel
  let _ ← expect (.punct .rightParen) .conditionClose
  return value

/-- The first clause of a `for`, with its semicolon. -/
def forInitializer (fuel : Nat) : Parser (Option Stmt) := do
  if (← accept (.punct .semicolon)).isSome then return none
  else if (← accept (.keyword .var)).isSome then return some (← varDeclaration fuel)
  else return some (← expressionStatement fuel)

/-- A `for` loop written with `while`: the increment follows the body in a block of their own, and
the initializer stands before the loop in another. -/
def forLoop (initializer : Option Stmt) (condition increment : Option Expr) (body : Stmt) : Stmt :=
  let body := match increment with
    | none => body
    | some increment => .block [body, .expression increment]
  let loop := .while (condition.getD (.literal (.bool true))) body
  match initializer with
  | none => loop
  | some initializer => .block [initializer, loop]

mutual

def declaration : (fuel : Nat) → Parser Stmt
  | 0 => fail .expression
  | n + 1 => do
    if (← accept (.keyword .class)).isSome then classDeclaration n
    else if (← accept (.keyword .fun)).isSome then return .function (← function n .function)
    else if (← accept (.keyword .var)).isSome then varDeclaration n
    else statement n

def classDeclaration : (fuel : Nat) → Parser Stmt
  | 0 => fail .expression
  | n + 1 => do
    let name ← expect .identifier .className
    let superclass ← optional (← accept (.punct .less)).isNone do
      let name ← expect .identifier .superclassName
      return .variable (← freshId) name
    let _ ← expect (.punct .leftBrace) .classOpen
    let methods ← methods n
    let _ ← expect (.punct .rightBrace) .classClose
    return .class name superclass methods

def methods : (fuel : Nat) → Parser (List FunDecl)
  | 0 => fail .expression
  | n + 1 => do
    if (← check (.punct .rightBrace)) || (← atEnd) then return []
    else
      let first ← function n .method
      return first :: (← methods n)

def function : (fuel : Nat) → FunctionSort → Parser FunDecl
  | 0, _ => fail .expression
  | n + 1, sort => do
    let name ← expect .identifier (.functionName sort)
    let _ ← expect (.punct .leftParen) (.parametersOpen sort)
    let params ← if ← check (.punct .rightParen) then pure [] else parameters n 0
    let _ ← expect (.punct .rightParen) .parametersClose
    let _ ← expect (.punct .leftBrace) (.bodyOpen sort)
    return ⟨name, params, ← block n⟩

/-- The declarations of a block whose opening brace has been read. -/
def block : (fuel : Nat) → Parser (List Stmt)
  | 0 => fail .expression
  | n + 1 => do
    if (← check (.punct .rightBrace)) || (← atEnd) then
      let _ ← expect (.punct .rightBrace) .blockClose
      return []
    else
      let first ← declaration n
      return first :: (← block n)

def statement : (fuel : Nat) → Parser Stmt
  | 0 => fail .expression
  | n + 1 => do
    if (← accept (.keyword .for)).isSome then
      let _ ← expect (.punct .leftParen) .forOpen
      let initializer ← forInitializer n
      let condition ← optional (← check (.punct .semicolon)) (expression n)
      let _ ← expect (.punct .semicolon) .forConditionEnd
      let increment ← optional (← check (.punct .rightParen)) (expression n)
      let _ ← expect (.punct .rightParen) .forClose
      return forLoop initializer condition increment (← statement n)
    else if (← accept (.keyword .if)).isSome then
      let condition ← condition n .ifOpen
      let thenBranch ← statement n
      let elseBranch ← optional (← accept (.keyword .else)).isNone (statement n)
      return .if condition thenBranch elseBranch
    else if (← accept (.keyword .while)).isSome then
      let condition ← condition n .whileOpen
      return .while condition (← statement n)
    else if (← accept (.punct .leftBrace)).isSome then
      return .block (← block n)
    else if (← accept (.keyword .print)).isSome then
      let value ← expression n
      let _ ← expect (.punct .semicolon) .printEnd
      return .print value
    else
      match ← accept (.keyword .return) with
      | some keyword =>
        let value ← optional (← check (.punct .semicolon)) (expression n)
        let _ ← expect (.punct .semicolon) .returnEnd
        return .return keyword value
      | none =>
      match ← accept (.keyword .break) with
      | some keyword =>
        let _ ← expect (.punct .semicolon) .breakEnd
        return .break keyword
      | none => expressionStatement n

end

/-! ### Whole inputs -/

/-- The kinds that begin a statement worth resuming at. -/
def resumesAt (kind : Kind) : Bool :=
  kind == .keyword .class || kind == .keyword .fun || kind == .keyword .var ||
    kind == .keyword .for || kind == .keyword .if || kind == .keyword .while ||
    kind == .keyword .print || kind == .keyword .return

/-- Drops tokens until after a semicolon or before the start of a statement; `last` is the token
dropped before. -/
def dropStatement (last : Token) : List Token → List Token
  | [] => []
  | t :: rest =>
    if last.kind == .punct .semicolon || resumesAt t.kind then t :: rest
    else dropStatement t rest

/-- Skips at least one token. -/
def synchronize (s : State) : State :=
  match s.ahead with
  | [] => s
  | t :: rest => { s with ahead := dropStatement t rest }

/-- More than the rules need between two tokens that they take. -/
def fuelFor (tokens : List Token) : Nat := 32 * (tokens.length + 1)

/-- The declarations up to the end, the errors on the way and the state at the end; each round
takes at least one token. -/
def declarations : (rounds : Nat) → State → List Stmt × List Error × State
  | 0, s => ([], [], s)
  | n + 1, s =>
    if s.ahead.isEmpty then ([], [], s)
    else match declaration (fuelFor s.ahead) s with
      | .ok stmt s =>
        let (stmts, errors, s) := declarations n s
        (stmt :: stmts, errors, s)
      | .error e s =>
        let (stmts, errors, s) := declarations n (synchronize s)
        (stmts, e :: errors, s)

/-- A program, or all its syntax errors. Node ids count from `first`, and the next free one is
returned also with errors. -/
def program (tokens : List Token) (first : Nat) : Except (List Error) (List Stmt) × Nat :=
  let stream := TokenStream.ofList tokens
  let (stmts, errors, s) := declarations stream.ahead.length ⟨stream.ahead, stream.eof, first⟩
  (if errors.isEmpty then .ok stmts else .error errors, s.nextId)

/-- Exactly one expression up to the end, or its first syntax error. -/
def expressionOnly (tokens : List Token) (first : Nat) : Except Error Expr × Nat :=
  let stream := TokenStream.ofList tokens
  let rule : Parser Expr := do
    let e ← expression (fuelFor stream.ahead)
    if ← atEnd then return e else fail .endOfExpression
  match rule ⟨stream.ahead, stream.eof, first⟩ with
  | .ok e s => (.ok e, s.nextId)
  | .error e s => (.error e, s.nextId)

end Parser

end Lox
