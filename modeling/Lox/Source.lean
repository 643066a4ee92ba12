import Lox.Diagnostic

/-!
# Sources

A source as tokens, as a program or as a single expression, or everything wrong with it. Lexical
errors do not keep `program?` from parsing the tokens that were found, so that it can tell all
errors at once; `tokens?` and what builds on it stop at them.
-/

namespace Lox.Source

def lexicalErrors (items : List Lexer.Item) : List Diagnostic :=
  (Lexer.errors items).map .lex

def tokens? (source : String) : Except (List Diagnostic) (List Token) :=
  let items := Lexer.scan source
  match lexicalErrors items with
  | [] => .ok (Lexer.tokens items)
  | errors => .error errors

/-- Lexical errors, then syntax errors; node ids count from `first` in any case. -/
def program? (source : String) (first : Nat) :
    Except (List Diagnostic) (List Stmt) × Nat :=
  let items := Lexer.scan source
  let (parsed, next) := Parser.program (Lexer.tokens items) first
  let outcome := match lexicalErrors items, parsed with
    | [], .ok program => .ok program
    | errors, .ok _ => .error errors
    | errors, .error more => .error (errors ++ more.map .parse)
  (outcome, next)

/-- A program whose lexical errors hide its syntax errors. -/
def programOfTokens? (source : String) : Except (List Diagnostic) (List Stmt) := do
  let tokens ← tokens? source
  (Parser.program tokens 0).1.mapError fun errors => errors.map .parse

def expression? (source : String) (first : Nat) : Except Failure Expr × Nat :=
  match tokens? source with
  | .error errors => (.error (.rejected errors), first)
  | .ok tokens =>
    let (parsed, next) := Parser.expressionOnly tokens first
    (parsed.mapError .malformed, next)

end Lox.Source
