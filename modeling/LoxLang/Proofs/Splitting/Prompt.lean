import LoxLang.Proofs.Splitting.Parsing
import LoxLang.Proofs.Syntax.Terminated
import LoxLang.Session
/-!
A prompt line that is an expression is the program that prints it. The program is the line between `print`
and a semicolon on a line of its own, so that neither a word nor a comment at the end of the line takes
anything of them in; the tokens of the line stand on the lines they stood on.

What is proved: the tokens of the program are those of the line between the two others
(`Scan.words_printing`), and a session does with the program what it does with the line
(`Session.prompt_expression_prints`).
-/
namespace LoxLang

/-- The program that prints the expression on a line. -/
def printing (line : String) : String := "print " ++ line ++ "\n" ++ ";"

namespace Piece

/-- The word, the blank behind it, and the pieces of what follows. -/
theorem pieces_print (cs : List Char) : pieces ("print ".toList ++ cs) =
    ⟨.token (.keyword .print), "print".toList⟩ :: ⟨.blank, [' ']⟩ :: pieces cs := by
  have word : cut 'p' ("rint ".toList ++ cs) =
      (⟨.token (.keyword .print), "print".toList⟩, ' ' :: cs) := rfl
  have blank : pieces (' ' :: cs) = ⟨.blank, [' ']⟩ :: pieces cs := by
    rw [pieces]
    rfl
  show pieces ('p' :: ("rint ".toList ++ cs)) = _
  rw [pieces, word, blank]

end Piece

namespace Scan

variable {line : String}

def printWord : Token := ⟨.keyword .print, "print", 1⟩

/-- Its semicolon, on the line below the last one. -/
def printEnd (line : String) : Token := ⟨.symbol .semicolon, ";", 1 + (Token.lineBreaks line.toList + 1)⟩

theorem toList_print (line : String) : ("print " ++ line).toList = "print ".toList ++ line.toList := by
  simp

theorem words_print (line : String) : words ("print " ++ line) = printWord :: words line := by
  unfold words
  rw [toList_print, Piece.pieces_print]
  rfl

theorem errors_print (clean : (ofSource line).errors = []) :
    (ofSource ("print " ++ line)).errors = [] := by
  have sound := (errors_ofPieces _ 1).mp clean
  refine (errors_ofPieces _ 1).mpr ?_
  rw [toList_print, Piece.pieces_print]
  refine List.forall_mem_cons.mpr ⟨nofun, List.forall_mem_cons.mpr ⟨nofun, sound⟩⟩

theorem lineBreaks_print (line : String) :
    Token.lineBreaks ("print " ++ line).toList = Token.lineBreaks line.toList := by
  rw [toList_print, Token.lineBreaks, List.countP_append]
  exact Nat.zero_add _

theorem errors_printing (clean : (ofSource line).errors = []) : (ofSource (printing line)).errors = [] :=
  errors_append_break (errors_print clean) (by decide +kernel)

/-- The line stands between the word and the semicolon, on the lines it stood on. -/
theorem words_printing (clean : (ofSource line).errors = []) :
    words (printing line) = printWord :: (words line ++ [printEnd line]) := by
  have semicolon : words ";" = [⟨.symbol .semicolon, ";", 1⟩] := by decide +kernel
  unfold printing
  rw [words_append_break (errors_print clean), words_print, lineBreaks_print, semicolon]
  rfl

end Scan

/-- An expression that stands alone is read to the end if its last token is no semicolon. -/
theorem Reading.Expression.of_bare {tokens : List Token} {e : Expr} (h : Expr.ofTokens tokens = .ok e)
    (bare : ∀ t ∈ (Token.untilEof tokens).1.getLast?, t.isSymbol .semicolon = false) :
    Expression (Token.untilEof tokens).1 [] e [] := by
  obtain ⟨rest, rfl | ⟨semicolon, hs, rfl⟩, read⟩ := Expression.of_ok h
  · exact read
  · obtain ⟨front, whole⟩ := read.suffix
    have other := bare semicolon (by rw [← whole, List.getLast?_concat]; rfl)
    rw [hs] at other
    cases other

namespace Session

/-- A line that is an expression, and does not end with a semicolon, does what the program does that
prints the expression: it comes to the same status, writes and reports the same, and leaves the machine in
the same state. The program has no faults of its own. -/
theorem prompt_expression_prints (fuel : Nat) (s : Session) {line : String} {e : Expr}
    (nonblank : Text.allBlank line = false) (clean : (Scan.ofSource line).errors = [])
    (alone : looksLikeStatement (Scan.ofSource line).tokens = false)
    (parsed : Expr.ofTokens (Scan.ofSource line).tokens = .ok e)
    (bare : ∀ t ∈ (Scan.words line).getLast?, t.isSymbol .semicolon = false) :
    (Scan.ofSource (printing line)).errors = [] ∧
    Stmt.programOfTokens (Scan.ofSource (printing line)).tokens = .ok [.print e] ∧
    s.runPromptLine fuel line = s.run fuel (printing line) := by
  have read := Reading.Expression.of_bare parsed (by rwa [Scan.untilEof_ofSource])
  rw [Scan.untilEof_ofSource] at read
  have program : Stmt.programOfTokens (Scan.ofSource (printing line)).tokens = .ok [.print e] :=
    Stmt.programOfTokens_print read (by rfl : Scan.printWord.isKeyword .print = true)
      (by rfl : (Scan.printEnd line).isSymbol .semicolon = true)
      (by rw [Scan.untilEof_ofSource, Scan.words_printing clean])
  have whole := Scan.errors_printing clean
  refine ⟨whole, program, ?_⟩
  -- Both now come to the same statements, and report nothing before they run them.
  unfold runPromptLine run
  rw [nonblank]
  unfold promptStatements finish
  simp only [alone, parsed, program, clean, whole]
  rfl

/-- A function without a name that is called where it stands, with a comment at the end of the line. -/
theorem prompt_expression_prints_negation :
    let line := "(lambda (x) \x7b return !x; \x7d)(nil) // negated"
    let start := Session.initial .unlimited .unlimited fun _ => 0
    ∃ e, Text.allBlank line = false ∧ (Scan.ofSource line).errors = [] ∧
      looksLikeStatement (Scan.ofSource line).tokens = false ∧
      Expr.ofTokens (Scan.ofSource line).tokens = .ok e ∧
      (∀ t ∈ (Scan.words line).getLast?, t.isSymbol .semicolon = false) ∧
      Stmt.programOfTokens (Scan.ofSource (printing line)).tokens = .ok [.print e] ∧
      start.runPromptLine 40 line = start.run 40 (printing line) ∧
      (start.run 40 (printing line)).any (fun r => r.1 = .ok ∧ r.2.machine.out.text = "true\n") = true := by
  intro line start
  have nonblank : Text.allBlank line = false := by decide +kernel
  have clean : (Scan.ofSource line).errors = [] := by decide +kernel
  have alone : looksLikeStatement (Scan.ofSource line).tokens = false := by decide +kernel
  have bare : ∀ t ∈ (Scan.words line).getLast?, t.isSymbol .semicolon = false := by decide +kernel
  have parses : (Expr.ofTokens (Scan.ofSource line).tokens).isOk = true := by decide +kernel
  cases parsed : Expr.ofTokens (Scan.ofSource line).tokens with
  | error es =>
    rw [parsed] at parses
    cases parses
  | ok e =>
    obtain ⟨-, program, same⟩ := prompt_expression_prints 40 start nonblank clean alone parsed bare
    exact ⟨e, nonblank, clean, alone, rfl, bare, program, same, by decide +kernel⟩

end Session

end LoxLang
