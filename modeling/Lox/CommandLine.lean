import Lox.Session
import Lox.Store.Inspect
import Lox.Syntax.Json
import Lox.Syntax.Printer
import Lox.Text.Utf8

/-!
# The command line

What a command writes and how it exits, as a function of its words, the files it can see and the
lines it is given. Results go to the output and complaints to the error stream.
-/

namespace Lox.CommandLine

inductive Command
  | tokenize (file : String) (json : Bool)
  | parse (file : String) (json : Bool)
  | evaluate (file : String)
  | run (file : String)
  | repl
  deriving DecidableEq, Repr

/-- With a log, its file is made before anything else happens. -/
structure Invocation where
  command : Command
  log : Option String
  deriving DecidableEq, Repr

/-- Options and other words seen so far. -/
structure Words where
  log : Bool
  logFile : String
  json : Bool
  plain : List String

def optionMark : String := "--log-file="

/-- Options stand anywhere among the words, up to a `--`; after the name of the command, that mark
makes plain words of all that follow. A later option replaces an earlier one. -/
def readWords : Words → List String → Option Words
  | w, [] => some w
  | w, "--" :: rest => if w.plain.isEmpty then none else some { w with plain := w.plain ++ rest }
  | w, "--log" :: rest => readWords { w with log := true } rest
  | w, "--log-file" :: path :: rest => readWords { w with logFile := path } rest
  | w, "--json" :: rest => readWords { w with json := true } rest
  | w, word :: rest =>
    if word.startsWith optionMark then
      readWords { w with logFile := (word.drop optionMark.length).toString } rest
    else if word.startsWith "-" && word != "-" then none
    else readWords { w with plain := w.plain ++ [word] } rest

def command? (json : Bool) : List String → Option Command
  | ["tokenize", file] => some (.tokenize file json)
  | ["parse", file] => some (.parse file json)
  | ["evaluate", file] => if json then none else some (.evaluate file)
  | ["run", file] => if json then none else some (.run file)
  | ["repl"] => if json then none else some .repl
  | _ => none

def Invocation.parse? (words : List String) : Option Invocation := do
  let w ← readWords ⟨false, "lox.log", false, []⟩ words
  let command ← command? w.json w.plain
  return ⟨command, if w.log then some w.logFile else none⟩

def usage : String :=
  "usage: [--log] [--log-file PATH] (tokenize [--json] FILE | parse [--json] FILE | " ++
    "evaluate FILE | run FILE | repl)"

/-- Why the system refuses a file. -/
structure FileTrouble where
  reason : String
  code : Nat
  deriving DecidableEq, Repr

def FileTrouble.notFound : FileTrouble := ⟨"No such file or directory", 2⟩

def FileTrouble.denied : FileTrouble := ⟨"Permission denied", 13⟩

def FileTrouble.notDirectory : FileTrouble := ⟨"Not a directory", 20⟩

def FileTrouble.isDirectory : FileTrouble := ⟨"Is a directory", 21⟩

def FileTrouble.text (t : FileTrouble) : String :=
  t.reason ++ " (os error " ++ toString t.code ++ ")"

/-- What is written on the two streams, and the exit code. -/
structure Response where
  out : String
  err : String
  exit : UInt32
  deriving DecidableEq, Repr

def unlines (lines : List String) : String := "".intercalate (lines.map (· ++ "\n"))

/-- A file that cannot be used ends the command. -/
def Response.trouble (complaint : String) : Response := ⟨"", "Error: " ++ complaint ++ "\n", 74⟩

def Response.failed (out : String) (failure : Failure) : Response :=
  ⟨out, failure.text ++ "\n", failure.exitCode⟩

def createTrouble (path : String) (t : FileTrouble) : Response :=
  .trouble ("Failed to create " ++ Text.quoted path ++ ": " ++ t.text)

/-- The text of a file, or the complaint about it. -/
def sourceOf (path : String) : Except FileTrouble (List UInt8) → Except String String
  | .error t => .error ("Failed to open file " ++ Text.quoted path ++ ": " ++ t.text)
  | .ok octets =>
    (Text.decode octets).mapError fun m =>
      "File " ++ Text.quoted path ++ " is not valid UTF-8: " ++ m.message

/-! ### Commands on a source -/

def tokenize (json : Bool) (source : String) : Response :=
  let items := Lexer.scan source
  let line (t : Token) := if json then t.toJson.text else t.text
  let errors := Source.lexicalErrors items
  { out := unlines ((Lexer.tokens items).map line)
    err := unlines (errors.map (·.text))
    exit := if errors.isEmpty then 0 else 65 }

def parse (json : Bool) (source : String) : Response :=
  let line (s : Stmt) := if json then s.toJson.text else s.text
  match Source.programOfTokens? source with
  | .ok program => ⟨unlines (program.map line), "", 0⟩
  | .error errors => .failed "" (.rejected errors)

def evaluate (fuel : Nat) (clock : Nat → Float) (source : String) : Response :=
  let (outcome, s) := (Session.start clock none).evaluate fuel source
  let out := unlines s.printed.toList
  match outcome with
  | .ok v => ⟨out ++ s.machine.heap.display v ++ "\n", "", 0⟩
  | .error failure => .failed out failure

def run (fuel : Nat) (clock : Nat → Float) (source : String) : Response :=
  let (outcome, s) := (Session.start clock none).run fuel source
  let out := unlines s.printed.toList
  match outcome with
  | .ok _ => ⟨out, "", 0⟩
  | .error failure => .failed out failure

/-! ### Prompt -/

def prompt : String := "> "

/-- Runs one line of a dialogue; an error ends the line and not the dialogue. -/
def turn (fuel : Nat) (s : Session) (line : String) : Response × Session :=
  let before := s.printed.size
  let (outcome, s) := s.run fuel line
  let out := unlines (s.printed.extract before).toList
  match outcome with
  | .ok _ => (⟨out, "", 0⟩, s)
  | .error failure => (.failed out failure, s)

/-- A dialogue shows the prompt before each line and once more at the end. -/
def dialogue (fuel : Nat) (s : Session) : List String → Response
  | [] => ⟨prompt, "", 0⟩
  | line :: rest =>
    let (r, s) := turn fuel s line
    let more := dialogue fuel s rest
    ⟨prompt ++ r.out ++ more.out, r.err ++ more.err, 0⟩

/-- The lines of a text, each with its line break. -/
def linesOf (text : String) : List String :=
  let lines := text.splitOn "\n"
  lines.dropLast.map (· ++ "\n") ++ (lines.getLast?.toList.filter fun last => !last.isEmpty)

/-! ### Whole commands -/

/-- The files a command can see, the log file it can make and the text it is given. -/
structure World where
  read : String → Except FileTrouble (List UInt8)
  create : String → Except FileTrouble Unit
  input : String
  clock : Nat → Float

def World.withSource (w : World) (path : String) (use : String → Response) : Response :=
  match sourceOf path (w.read path) with
  | .ok source => use source
  | .error complaint => .trouble complaint

def answer (fuel : Nat) (w : World) : Command → Response
  | .tokenize file json => w.withSource file (tokenize json)
  | .parse file json => w.withSource file (parse json)
  | .evaluate file => w.withSource file (evaluate fuel w.clock)
  | .run file => w.withSource file (run fuel w.clock)
  | .repl => dialogue fuel (.start w.clock none) (linesOf w.input)

def Invocation.respond (fuel : Nat) (w : World) (i : Invocation) : Response :=
  match i.log.map fun path => (path, w.create path) with
  | some (path, .error t) => createTrouble path t
  | _ => answer fuel w i.command

end Lox.CommandLine
