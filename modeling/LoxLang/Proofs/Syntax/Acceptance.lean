import LoxLang.Proofs.Syntax.Following
import LoxLang.Proofs.Syntax.Gathering
import LoxLang.Proofs.Syntax.Settling
/-!
The tokens of a program are accepted exactly when they derive. A program is what a reading of its
tokens says: `Stmt.programOfTokens` notes the faults of the reading and no others, and where there is no
reading it notes at least one. With what readings have to do with derivations, in both directions, this
is the whole behaviour on tokens that end with their only end token.
-/
namespace LoxLang

open Reading Dialect

variable {tokens front : List Token} {last : Token} {program : List Stmt} {vs : List SyntaxError}

theorem Token.untilEof_append (inner : ∀ t ∈ front, t.isEof = false) (ends : last.isEof = true) :
    Token.untilEof (front ++ [last]) = (front, last) := by
  induction front with
  | nil => simp [Token.untilEof, ends]
  | cons t ts ih =>
    have first : t.isEof = false := inner t List.mem_cons_self
    have rest := ih fun s mem => inner s (List.mem_cons_of_mem t mem)
    simp [Token.untilEof, first, rest]

theorem Reading.Declarations.to_end : ∀ {a b ss vs}, Declarations false a b ss vs → b = []
  | _, _, _, _, .ended => rfl
  | _, _, _, _, .more _ others => others.to_end

theorem Grammar.declarations_depth (front : List Token) :
    32 * front.length + 22 ≤ Grammar.depthFor front := by
  simp only [Grammar.depthFor, Grammar.depthPerToken]
  omega

/-- What the declarations of a program come to: never to nothing, and what they make without a fault is
what a reading without faults says. -/
theorem Grammar.declarations_whole (last : Token) (front : List Token) :
    match Grammar.declarations last (Grammar.depthFor front) false ⟨front, []⟩ with
      | .ok program c => c.errors = [] → Program front program []
      | .fail _ _ => True
      | .starved => False := by
  have settled := (Grammar.settles last (Grammar.depthFor front)).declarations false front
    (Grammar.declarations_depth front) []
  cases made : Grammar.declarations last (Grammar.depthFor front) false ⟨front, []⟩ with
  | ok program c =>
    rw [made] at settled
    intro clean
    have read := settled.2.2 clean
    rwa [read.to_end] at read
  | fail e c => trivial
  | starved =>
    rw [made] at settled
    exact settled

/-- Where tokens are not a program, there is a fault. -/
theorem Stmt.programOfTokens_fault {es : List SyntaxError}
    (h : Stmt.programOfTokens tokens = .error es) : es ≠ [] := by
  have whole := Grammar.declarations_whole (Token.untilEof tokens).2 (Token.untilEof tokens).1
  unfold Stmt.programOfTokens at h
  dsimp only at h
  split at h
  · split at h
    · cases h
    · rename_i errors
      cases h
      simpa using errors
  · cases h
    simp
  · rename_i starved
    rw [starved] at whole
    exact whole.elim

/-- What tokens are without a fault, a reading says. -/
theorem Reading.Program.of_ok (h : Stmt.programOfTokens tokens = .ok program) :
    Program (Token.untilEof tokens).1 program [] := by
  have whole := Grammar.declarations_whole (Token.untilEof tokens).2 (Token.untilEof tokens).1
  unfold Stmt.programOfTokens at h
  dsimp only at h
  split at h
  · rename_i made
    rw [made] at whole
    split at h
    · rename_i clean
      cases h
      exact whole (List.isEmpty_iff.mp clean)
    · cases h
  · cases h
  · cases h

/-- Tokens with a reading are its program, unless it has faults; then these are reported. -/
theorem Reading.Program.parsed (h : Program (Token.untilEof tokens).1 program vs) :
    Stmt.programOfTokens tokens = if vs = [] then .ok program else .error vs := by
  have whole := Grammar.declarations_whole (Token.untilEof tokens).2 (Token.untilEof tokens).1
  have follows : Parse.Follows (Grammar.declarations (Token.untilEof tokens).2
      (Grammar.depthFor (Token.untilEof tokens).1) false)
      (Token.untilEof tokens).1 program [] vs := Declarations.follows _ _ h
  rcases follows [] with starved | made
  · rw [starved] at whole
    exact whole.elim
  · unfold Stmt.programOfTokens
    dsimp only
    rw [made]
    simp only [List.nil_append, List.isEmpty_iff]

/-! Expressions that stand alone -/

/-- What may be left behind an expression that stands alone: a semicolon or nothing. -/
def Closes (rest : List Token) : Prop :=
  rest = [] ∨ ∃ semicolon : Token, semicolon.isSymbol .semicolon = true ∧ rest = [semicolon]

theorem Parse.settles_trailing {a : List Token} (e : Expr) :
    Parse.Settles (Grammar.trailing last e) a 0 fun _ x => a = [] ∧ x = e := by
  cases a with
  | nil => exact (Parse.Settles.pure ⟨rfl, rfl⟩).here fun _ => rfl
  | cons t b =>
    have made : Parse.Settles (pure e) (t :: b) 0 fun _ _ => True := .pure trivial
    have noted : Parse.Settles (Parse.report .trailing t >>= fun _ => pure e) (t :: b) 0
        fun _ x => t :: b = [] ∧ x = e := made.noted
    exact noted.here fun _ => rfl

/-- An expression that stands alone is read to the end, or has a fault. -/
theorem Grammar.expression_settles_alone (last : Token) (front : List Token) :
    Parse.Settles (Grammar.alone last (Grammar.depthFor front)) front 0 fun _ e =>
      ∃ rest, Closes rest ∧ Expression front rest e [] := by
  have deep : 32 * front.length + 17 ≤ Grammar.depthFor front := by
    simp only [Grammar.depthFor, Grammar.depthPerToken]
    omega
  refine ((Grammar.settles last _).expression front deep).bind fun e b _ => ?_
  refine .accept ?_ fun stops => ?_
  · rintro semicolon c rfl _ hs
    refine (Parse.settles_trailing e).imp ?_
    rintro d x ⟨rfl, rfl⟩ read
    exact ⟨[semicolon], .inr ⟨semicolon, hs, rfl⟩, read⟩
  · refine (Parse.settles_trailing e).imp ?_
    rintro d x ⟨rfl, rfl⟩ read
    exact ⟨[], .inl rfl, read⟩

theorem Expr.ofTokens_fault {es : List SyntaxError} (h : Expr.ofTokens tokens = .error es) :
    es ≠ [] := by
  have settled :=
    Grammar.expression_settles_alone (Token.untilEof tokens).2 (Token.untilEof tokens).1 []
  rw [Expr.ofTokens_eq] at h
  dsimp only at h
  split at h
  · split at h
    · cases h
    · rename_i errors
      cases h
      simpa using errors
  · cases h
    simp
  · rename_i starved
    rw [starved] at settled
    exact settled.elim

theorem Reading.Expression.of_ok {e : Expr} (h : Expr.ofTokens tokens = .ok e) :
    ∃ rest, Closes rest ∧ Expression (Token.untilEof tokens).1 rest e [] := by
  have settled :=
    Grammar.expression_settles_alone (Token.untilEof tokens).2 (Token.untilEof tokens).1 []
  rw [Expr.ofTokens_eq] at h
  dsimp only at h
  split at h
  · rename_i made
    rw [made] at settled
    split at h
    · rename_i clean
      cases h
      exact settled.2.2 (List.isEmpty_iff.mp clean)
    · cases h
  · cases h
  · cases h

theorem Reading.Expression.parsed {e : Expr} {rest : List Token} (closes : Closes rest)
    (h : Expression (Token.untilEof tokens).1 rest e []) : Expr.ofTokens tokens = .ok e := by
  have settled :=
    Grammar.expression_settles_alone (Token.untilEof tokens).2 (Token.untilEof tokens).1 []
  have follows : Parse.Follows (Grammar.alone (Token.untilEof tokens).2
      (Grammar.depthFor (Token.untilEof tokens).1)) (Token.untilEof tokens).1 e [] [] := by
    refine (Expression.follows _ _ h).skip ?_
    rcases closes with rfl | ⟨semicolon, hs, rfl⟩
    · refine (Parse.follows_accept_not stops_nil).skip ?_
      exact (Parse.follows_next_not stops_nil).skip .pure
    · refine (Parse.follows_accept hs).skip ?_
      exact (Parse.follows_next_not stops_nil).skip .pure
  rw [Expr.ofTokens_eq]
  dsimp only
  rcases follows [] with starved | made
  · rw [starved] at settled
    exact settled.elim
  · rw [made]
    rfl

/-! Programs and the grammar -/

/-- The program is accepted exactly if the tokens derive. In the relaxed dialect derivations are
readings, each fault of a reading is reported once and nothing else is, and what does not derive has a
fault; so what is accepted is what derives in the documented dialect. -/
theorem Stmt.accepts_exactly_grammar (inner : ∀ t ∈ front, t.isEof = false)
    (ends : last.isEof = true) :
    (relaxed.Derives .program (front ++ [last]) ↔ ∃ program vs, Program front program vs) ∧
    (∀ program vs, Program front program vs →
      Stmt.programOfTokens (front ++ [last]) = if vs = [] then .ok program else .error vs) ∧
    (¬relaxed.Derives .program (front ++ [last]) →
      ∃ e es, Stmt.programOfTokens (front ++ [last]) = .error (e :: es)) ∧
    ((∃ program, Stmt.programOfTokens (front ++ [last]) = .ok program) ↔
      documented.Derives .program (front ++ [last])) := by
  have whole : (Token.untilEof (front ++ [last])).1 = front := by
    rw [Token.untilEof_append inner ends]
  have parsed : ∀ program vs, Program front program vs →
      Stmt.programOfTokens (front ++ [last]) = if vs = [] then .ok program else .error vs := by
    intro program vs read
    rw [← whole] at read
    exact read.parsed
  have accepted : ∀ program, Stmt.programOfTokens (front ++ [last]) = .ok program →
      Program front program [] := by
    intro program ok
    have read := Program.of_ok ok
    rwa [whole] at read
  refine ⟨⟨fun derived => ?_, fun ⟨program, vs, read⟩ => ?_⟩, parsed, fun missing => ?_,
    ⟨fun ⟨program, ok⟩ => ?_, fun derived => ?_⟩⟩
  · obtain ⟨program, vs, _, read⟩ := Program.of_derives derived
    exact ⟨program, vs, read⟩
  · exact read.derives ends clean_relaxed
  · -- Without a fault there would be a reading, and so a derivation.
    cases result : Stmt.programOfTokens (front ++ [last]) with
    | ok program => exact absurd ((accepted program result).derives ends clean_relaxed) missing
    | error es =>
      cases es with
      | nil => exact absurd rfl (Stmt.programOfTokens_fault result)
      | cons e es => exact ⟨e, es, rfl⟩
  · exact (accepted program ok).derives ends (clean_documented.mpr rfl)
  · obtain ⟨program, vs, clean, read⟩ := Program.of_derives derived
    have none : vs = [] := clean_documented.mp clean
    refine ⟨program, ?_⟩
    rw [parsed program vs read, if_pos none]

/-- The program `true = nil;` derives in the relaxed dialect only, and its `=` is the one fault. -/
theorem Stmt.accepts_nothing_assigned_to_constant :
    let word : Token := ⟨.keyword .true, "true", 1⟩
    let equals : Token := ⟨.symbol .equal, "=", 1⟩
    let constant : Token := ⟨.keyword .nil, "nil", 1⟩
    let semicolon : Token := ⟨.symbol .semicolon, ";", 1⟩
    let front := [word, equals, constant, semicolon]
    (∀ t ∈ front, t.isEof = false) ∧ (Token.eof 1).isEof = true ∧
      relaxed.Derives .program (front ++ [.eof 1]) ∧
      Stmt.programOfTokens (front ++ [.eof 1]) = .error [⟨.assignmentTarget, equals⟩] ∧
      ¬documented.Derives .program (front ++ [.eof 1]) := by
  intro word equals constant semicolon front
  have inner : ∀ t ∈ front, t.isEof = false := by decide
  have ends : (Token.eof 1).isEof = true := by decide
  have spec := Stmt.accepts_exactly_grammar inner ends
  have target : Lambda front [equals, constant, semicolon] (.literal (.bool true)) [] :=
    .of_unary (.call (.atom rfl) (.done (stops_cons.mpr rfl) (stops_cons.mpr rfl))) rfl
  have unary : At 8 [constant, semicolon] [semicolon] (.literal .nil) [] :=
    Unary.call (.atom rfl) (.done (stops_cons.mpr rfl) (stops_cons.mpr rfl))
  have value : Expression [constant, semicolon] [semicolon] (.literal .nil) [] :=
    unary.loosen (Nat.le_refl 8) (Nat.zero_le 8) (.of_symbol (s := .semicolon) rfl fun _ _ => rfl)
  have read : Program front [.expression (.literal (.bool true))]
      [⟨.assignmentTarget, equals⟩] :=
    .more (.statement (.ofExpression (.assign target rfl value) rfl)) .ended
  have reported := spec.2.1 _ _ read
  refine ⟨inner, ends, spec.1.mpr ⟨_, _, read⟩, reported, fun derived => ?_⟩
  obtain ⟨program, ok⟩ := spec.2.2.2.mpr derived
  rw [reported] at ok
  cases ok

end LoxLang
