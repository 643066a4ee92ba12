import Lox.CommandLine
import Std.Time.DateTime.Timestamp

/-!
# The program

Reads files and lines, and writes what the commands answer. A dialogue is answered line by line.
-/

namespace Lox.CommandLine

/-- More steps than a run can take in a lifetime. -/
def plentifulFuel : Nat := Nat.pow 2 62

/-- Readings a microsecond apart, from the time the program was started. -/
def clockFrom (nanoseconds : Int) : Nat → Float := fun k =>
  Float.ofInt nanoseconds / 1000000000 + k.toFloat / 1000000

def troubleOf : IO.Error → FileTrouble
  | .noFileOrDirectory .. => .notFound
  | .permissionDenied .. => .denied
  | .inappropriateType _ _ details =>
    if details == "not a directory" then .notDirectory else .isDirectory
  | e => ⟨toString e, 5⟩

def attempt (act : IO Unit) : IO (Except FileTrouble Unit) :=
  try
    act
    return .ok ()
  catch e => return .error (troubleOf e)

def readOctets (path : String) : IO (Except FileTrouble (List UInt8)) :=
  try return .ok (← IO.FS.readBinFile path).toList
  catch e => return .error (troubleOf e)

def write (r : Response) : IO Unit := do
  IO.print r.out
  IO.eprint r.err

partial def converse (s : Session) : IO Unit := do
  IO.print prompt
  (← IO.getStdout).flush
  let line ← (← IO.getStdin).getLine
  if line.isEmpty then return
  let (r, s) := turn plentifulFuel s line
  write r
  converse s

def fileOf : Command → Option String
  | .tokenize file _ | .parse file _ | .evaluate file | .run file => some file
  | .repl => none

end Lox.CommandLine

open Lox Lox.CommandLine

def main (words : List String) : IO UInt32 := do
  match Invocation.parse? words with
  | none =>
    IO.eprintln usage
    return 2
  | some i =>
    let start ← Std.Time.Timestamp.now
    let clock := clockFrom start.toNanosecondsSinceUnixEpoch.val
    let created ← match i.log with
      | some path => attempt (IO.FS.writeFile path "")
      | none => pure (.ok ())
    match created, fileOf i.command with
    | .ok _, none =>
      converse (.start clock none)
      return 0
    | _, file =>
      let octets ← match file with
        | some path => readOctets path
        | none => pure (.error .notFound)
      let w : World := ⟨fun _ => octets, fun _ => created, "", clock⟩
      let r := i.respond plentifulFuel w
      write r
      return r.exit
