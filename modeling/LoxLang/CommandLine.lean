import LoxLang.Session
import LoxLang.Syntax.Forms
import LoxLang.Token.Text
/-!
The command line: what its words ask for, and what is answered on the two outputs. A file is
listed as tokens, written as an expression, or run; without a file, lines are read at a prompt.
-/
namespace LoxLang

/-- What the command line asks for. -/
inductive Command where
  | prompt
  | run (file : String)
  | tokenize (file : String) (json : Bool)
  | parse (file : String) (postfixForm : Bool)
  /-- Too many files. -/
  | usage
  deriving DecidableEq, Repr

inductive FileFault where
  | missing
  /-- The path goes on behind a file. -/
  | throughFile
  | nameTooLong
  | directory
  | notText
  deriving DecidableEq, Repr

/-- An exit code, and what is written to the two outputs. -/
structure Report where
  code : Nat
  stdout : String
  stderr : String
  deriving DecidableEq, Repr

namespace Command

/-- The option that changes nothing. -/
def logOption : String := "--log"

/-- The word behind which every word is the name of a file. -/
def filesMark : String := "--"

/-- The words up to the first `--`, among which options may be. -/
def front (words : List String) : List String := words.takeWhile (· != filesMark)

/-- Whether a word is an option; a hyphen alone is the name of a file. -/
def isOption (word : String) : Bool := word.startsWith "-" && word != "-"

/-- The names of files among words that may hold some options, if they hold no others. No file has
an empty name. -/
def files? (options words : List String) : Option (List String) :=
  let files := (front words).filter (!options.contains ·)
  let behind := words.drop ((front words).length + 1)
  if files.any isOption || (files ++ behind).contains "" then none else some (files ++ behind)

/-- The file among the words after a command, and whether the option of that command is there. -/
def fileAnd? (option : String) (words : List String) : Option (String × Bool) :=
  match files? [logOption, option] words with
  | some [file] => some (file, (front words).contains option)
  | _ => none

/-- The command that the words of a command line are, if they are one. Only the first word can
name a command. -/
def ofWords? (words : List String) : Option Command :=
  match words with
  | "tokenize" :: rest => (fileAnd? "--json" rest).map fun (file, json) => .tokenize file json
  | "parse" :: rest => (fileAnd? "--rpn" rest).map fun (file, rpn) => .parse file rpn
  | "run" :: rest => (fileAnd? logOption rest).map fun (file, _) => .run file
  | _ =>
    (files? [logOption] words).map fun files =>
      match files with
      | [] => .prompt
      | [file] => .run file
      | _ => .usage

def file? : Command → Option String
  | .run file => some file
  | .tokenize file _ => some file
  | .parse file _ => some file
  | .prompt | .usage => none

end Command

namespace FileFault

def attempt : FileFault → String
  | missing => "open"
  | throughFile => "open"
  | nameTooLong => "open"
  | directory => "read"
  | notText => "read"

def cause : FileFault → String
  | missing => "No such file or directory (os error 2)"
  | throughFile => "Not a directory (os error 20)"
  | nameTooLong => "File name too long (os error 36)"
  | directory => "Is a directory (os error 21)"
  | notText => "stream did not contain valid UTF-8"

def report (file : String) (f : FileFault) : Report :=
  ⟨1, "", "Error: Failed to " ++ f.attempt ++ " file " ++ Text.debugString file
    ++ "\n\nCaused by:\n    " ++ f.cause ++ "\n"⟩

end FileFault

namespace Report

def faultyCode : Nat := 65

def lines (ls : List String) : String := String.join (ls.map (· ++ "\n"))

/-- The tokens of a source, as lines or as JSON. -/
def tokenize (json : Bool) (source : String) : Report :=
  let scan := Scan.ofSource source
  let listing :=
    if json then Token.jsonDocument scan.tokens ++ "\n" else lines (scan.tokens.map Token.text)
  let code := if scan.errors.isEmpty then 0 else faultyCode
  ⟨code, listing, lines (scan.errors.map LexError.text)⟩

/-- A source that is an expression, written without precedence. -/
def parse (postfixForm : Bool) (source : String) : Report :=
  let scan := Scan.ofSource source
  if !scan.errors.isEmpty then ⟨faultyCode, "", lines (scan.errors.map LexError.text)⟩
  else match Expr.ofTokens scan.tokens with
    | .ok e => ⟨0, lines [if postfixForm then e.postfixForm else e.prefixForm], ""⟩
    | .error errors => ⟨faultyCode, "", lines (errors.map SyntaxError.text)⟩

def run (fuel : Nat) (clock : Nat → Float) (source : String) : Option Report :=
  ((Session.initial .unlimited .unlimited clock).run fuel source).map fun (status, s) =>
    ⟨status.exitCode, s.machine.out.text, s.reports.text⟩

/-- What more than one file is answered with. -/
def usage : Report := ⟨64, "Usage: treelox [script]\n", ""⟩

end Report

namespace Session

/-- What is shown where a line is awaited. -/
def promptSign : String := "> "

/-- What a session wrote since this was last asked. -/
def drain (s : Session) : String × String × Session :=
  let (out, machine) := s.machine.drain
  let (reports, sink) := s.reports.drain
  (out, reports, ⟨machine, sink⟩)

/-- Answers the lines of a prompt until they end; what was written so far comes first. -/
def prompt (fuel : Nat) : List String → Session → Option Session
  | [], s =>
    some { s with machine.out := (s.machine.out.write (promptSign ++ "\n")).2 }
  | line :: rest, s =>
    let s := { s with machine.out := (s.machine.out.write promptSign).2 }
    match s.runPromptLine fuel line with
    | some (_, s) => prompt fuel rest s
    | none => none

end Session

namespace Report

/-- The lines of a text, without line breaks and the returns in front of them. -/
def inputLines (text : String) : List String :=
  let rec go : List Char → List Char → List (List Char)
    | [], [] => []
    | line, [] => [line.reverse]
    | line, '\n' :: cs =>
      let line := match line with
        | '\r' :: l => l
        | l => l
      line.reverse :: go [] cs
    | line, c :: cs => go (c :: line) cs
  (go [] text.toList).map String.ofList

/-- A prompt that reads the lines of a text. -/
def prompt (fuel : Nat) (clock : Nat → Float) (input : String) : Option Report :=
  ((Session.initial .unlimited .unlimited clock).prompt fuel (inputLines input)).map fun s =>
    ⟨0, s.machine.out.text, s.reports.text⟩

/-- The report on a command whose file, if it has one, holds this text. -/
def ofFile (fuel : Nat) (clock : Nat → Float) (command : Command) (input : String)
    (text : String → Except FileFault String) : Option Report :=
  let withText (file : String) (report : String → Option Report) : Option Report :=
    match text file with
    | .ok source => report source
    | .error f => some (f.report file)
  match command with
  | .prompt => prompt fuel clock input
  | .run file => withText file (run fuel clock)
  | .tokenize file json => withText file fun source => some (tokenize json source)
  | .parse file postfixForm => withText file fun source => some (parse postfixForm source)
  | .usage => some usage

end Report

end LoxLang
