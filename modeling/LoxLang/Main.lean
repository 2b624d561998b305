import LoxLang.CommandLine
/-!
The program: reads its files and its standard input, and writes what the library answers.
-/
namespace LoxLang.Main

/-- More than any run uses up. -/
def fuel : Nat := Nat.pow 2 60

/-- A clock that showed `start` nanoseconds when it was set, and shows a later time whenever it is
read. -/
def clockFrom (start readings : Nat) : Float := (start + 1000 * readings).toFloat * 1e-9

def readText (file : String) : IO (Except FileFault String) := do
  try
    let bytes ← IO.FS.readBinFile file
    match String.fromUTF8? bytes with
    | some text => pure (.ok text)
    | none => pure (.error .notText)
  catch
    | .noFileOrDirectory .. => pure (.error .missing)
    | .inappropriateType none .. => pure (.error .directory)
    | .inappropriateType (some _) .. => pure (.error .throughFile)
    | .invalidArgument .. => pure (.error .nameTooLong)
    | e => throw e

def write (out err : String) : IO Unit := do
  IO.print out
  (← IO.getStdout).flush
  IO.eprint err

/-- Answers lines until they end. -/
partial def converse (s : Session) : IO Unit := do
  write Session.promptSign ""
  let line ← (← IO.getStdin).getLine
  if line.isEmpty then write "\n" ""
  else
    let now ← IO.monoNanosNow
    let s := { s with machine := { s.machine with clock := clockFrom now } }
    match s.runPromptLine fuel (String.join (Report.inputLines line)) with
    | none => pure ()
    | some (_, s) =>
      let (out, err, s) := s.drain
      write out err
      converse s

/-- Answers a command that is not the prompt. -/
def answer (command : Command) : IO UInt32 := do
  let text ← match command.file? with
    | some file => readText file
    | none => pure (.error .missing)
  let now ← IO.monoNanosNow
  match Report.ofFile fuel (clockFrom now) command "" (fun _ => text) with
  | none => pure 1
  | some report =>
    write report.stdout report.stderr
    pure (UInt32.ofNat report.code)

end LoxLang.Main

open LoxLang in
def main (words : List String) : IO UInt32 := do
  match Command.ofWords? words with
  | none =>
    Main.write "" "error: unexpected argument\n"
    pure 2
  | some .prompt =>
    Main.converse (Session.initial .unlimited .unlimited (Main.clockFrom 0))
    pure 0
  | some command => Main.answer command
