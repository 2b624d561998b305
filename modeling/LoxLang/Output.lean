import LoxLang.Diagnostic
/-!
Sinks: where a program's output and the reports about it go. A sink may stop taking text after
some number of line breaks, and flushing it may fail; what it took stays.
-/
namespace LoxLang

structure Sink where
  /-- All that was taken. -/
  text : String
  /-- The line breaks that will still be taken, if there is a limit. -/
  breaksLeft : Option Nat
  flushFails : Bool
  deriving Repr

namespace Sink

/-- A sink that takes everything. -/
def unlimited : Sink := ⟨"", none, false⟩

/-- The front of a text up to its `n`-th line break, and the number of breaks left over. -/
def upToBreak : (n : Nat) → List Char → List Char × Nat
  | 0, _ => ([], 0)
  | n + 1, [] => ([], n + 1)
  | n + 1, c :: cs =>
    let (front, left) := upToBreak (if c = '\n' then n else n + 1) cs
    (c :: front, left)

/-- Writes a text, as far as the sink takes it. -/
def write (s : Sink) (text : String) : Except OutputFault Unit × Sink :=
  match s.breaksLeft with
  | none => (.ok (), { s with text := s.text ++ text })
  | some n =>
    let (front, left) := upToBreak n text.toList
    let s := { s with text := s.text ++ String.ofList front, breaksLeft := some left }
    (if front.length = text.length then .ok () else .error .closed, s)

def writeLine (s : Sink) (text : String) : Except OutputFault Unit × Sink := s.write (text ++ "\n")

/-- Flushes the sink; what it took stays taken. -/
def flush (s : Sink) : Except OutputFault Unit :=
  if s.flushFails then .error .flush else .ok ()

/-- Writes a report on lines of its own. That it cannot be written is not reported. -/
def report (s : Sink) (text : String) : Sink := (s.writeLine text).2

/-- Writes reports in order, each of them whatever became of the others. -/
def reportAll (s : Sink) (texts : List String) : Sink := texts.foldl report s

/-- What the sink took, and the sink emptied of it. -/
def drain (s : Sink) : String × Sink := (s.text, { s with text := "" })

end Sink

end LoxLang
