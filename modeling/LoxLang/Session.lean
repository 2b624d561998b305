import LoxLang.Evaluation
import LoxLang.Resolution
import LoxLang.Syntax.Grammar
import LoxLang.Text.Blank
import LoxLang.Token.Scan
/-!
Sessions: programs and prompt lines run one after the other on one machine. A source is scanned,
parsed and resolved first; whatever is wrong with it is reported, and only a source without faults
is executed. `none` is the answer of a run that used up the depth it was given.
-/
namespace LoxLang

inductive Status where
  | ok
  /-- The source is faulty and nothing was executed. -/
  | staticError
  /-- Execution failed. -/
  | runtimeError
  deriving DecidableEq, Repr

namespace Status

/-- The exit code of a program that fared so. -/
def exitCode : Status → Nat
  | ok => 0
  | staticError => 65
  | runtimeError => 70

end Status

/-- A machine, and the sink for reports about the sources it runs. -/
structure Session where
  machine : Machine
  reports : Sink

namespace Session

/-- A session in which nothing was run. -/
def initial (out reports : Sink) (clock : Nat → Float) : Session :=
  ⟨Machine.initial out clock, reports⟩

def report (s : Session) (texts : List String) : Session :=
  { s with reports := s.reports.reportAll texts }

/-- Resolves and executes statements. -/
def execute (fuel : Nat) (program : List Stmt) (s : Session) : Option (Status × Session) :=
  let (program, found) := Resolution.ofProgram program
  let s := s.report (found.warnings.map Warning.text)
  if found.errors.isEmpty then
    match Run.interpret (some maxCallDepth) fuel program s.machine with
    | .ok _ machine => some (.ok, { s with machine })
    | .fail e machine => some (.runtimeError, { s with machine }.report [e.text])
    | .starved => none
  else some (.staticError, s.report (found.errors.map ScopeError.text))

/-- Reports what is wrong with a source, or executes its statements. -/
def finish (fuel : Nat) (scan : Scan) (parsed : Except (List SyntaxError) (List Stmt))
    (s : Session) : Option (Status × Session) :=
  let s := s.report (scan.errors.map LexError.text)
  match parsed with
  | .error errors => some (.staticError, s.report (errors.map SyntaxError.text))
  | .ok program => if scan.errors.isEmpty then s.execute fuel program else some (.staticError, s)

def run (fuel : Nat) (source : String) (s : Session) : Option (Status × Session) :=
  let scan := Scan.ofSource source
  s.finish fuel scan (Stmt.programOfTokens scan.tokens)

/-- Whether the tokens of a prompt line look like statements. -/
def looksLikeStatement : List Token → Bool
  | [] => false
  | t :: ts =>
    match t.kind with
    | .symbol .leftBrace => true
    | .keyword k => [.var, .if, .while, .print, .fun, .for, .class, .return, .this].contains k
    | .identifier => ts.head?.any (Token.isSymbol .equal)
    | _ => false

/-- What a prompt line says: statements, or an expression whose value is printed. -/
def promptStatements (tokens : List Token) : Except (List SyntaxError) (List Stmt) :=
  if looksLikeStatement tokens then Stmt.programOfTokens tokens
  else (Expr.ofTokens tokens).map fun e => [.print e]

/-- Runs a prompt line. Nothing happens on a line of blanks. -/
def runPromptLine (fuel : Nat) (line : String) (s : Session) : Option (Status × Session) :=
  if Text.allBlank line then some (.ok, s)
  else
    let scan := Scan.ofSource line
    s.finish fuel scan (promptStatements scan.tokens)

end Session

end LoxLang
