import Lox.Scope
import Lox.Syntax.Parser
import Lox.Token.Lexer
import Lox.Machine

/-!
# Diagnostics

What a source can be told to be wrong before it runs, and how a request can fail: rejected by the
static stages, or stopped in a run. Every wording and exit code is here or beside its cause.
-/

namespace Lox

/-- One static error: of a lexeme, of the grammar or of a scope. -/
inductive Diagnostic
  | lex (e : Lexer.Error)
  | parse (e : Parser.Error)
  | resolve (e : Scope.Error)
  deriving DecidableEq, Repr

namespace Diagnostic

def line : Diagnostic → Nat
  | lex e => e.line
  | parse e => e.blamed.line
  | resolve e => e.blamed.line

/-- The token it blames; a lexical error has none. -/
def blamed? : Diagnostic → Option Token
  | lex _ => none
  | parse e => some e.blamed
  | resolve e => some e.blamed

def message : Diagnostic → String
  | lex e => e.fault.message
  | parse e => e.cause.message
  | resolve e => e.cause.message

def text (d : Diagnostic) : String :=
  "[line " ++ toString d.line ++ "] Error" ++ ((d.blamed?.map (·.location)).getD "") ++ ": " ++
    d.message

end Diagnostic

namespace Stop

def text : Stop → String
  | error e => e.cause.message ++ "\n[line " ++ toString e.line ++ "]"
  | sinkFull => "sink full"
  | fault f => f.message
  | outOfFuel => "out of fuel"

end Stop

/-- How a request fails. A lone expression with a syntax error is `malformed`: the error stands
alone and not in a list. -/
inductive Failure
  | rejected (errors : List Diagnostic)
  | malformed (e : Parser.Error)
  | stopped (stop : Stop)
  deriving DecidableEq, Repr

namespace Failure

def text : Failure → String
  | rejected errors => "\n".intercalate (errors.map (·.text))
  | malformed e => (Diagnostic.parse e).text
  | stopped stop => stop.text

/-- The program was refused before any of it ran. -/
def isStatic : Failure → Bool
  | stopped _ => false
  | _ => true

/-- Bad input counts as 65, a failing run as 70 and trouble with files as 74. -/
def exitCode : Failure → UInt32
  | stopped .sinkFull => 74
  | stopped _ => 70
  | _ => 65

end Failure

end Lox
