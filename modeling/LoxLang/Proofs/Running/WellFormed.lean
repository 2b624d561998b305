import LoxLang.Proofs.Receivers.Methods
import LoxLang.Proofs.Running.Raising
/-!
What the parser makes is well-formed wherever it is run. Operators are the ones of their places and names
are names, in the statements of a program as well as in the functions that are left of it in the machine:
whatever a session comes by belongs to a tree that the parser made.

What is proved: so no run of a session fails with an invalid operator, and nothing is ever assigned to
`this` (`Session.parsed_well_formed`).
-/
namespace LoxLang

/-! Operators -/

namespace Value

/-- An operator in front of an operand is one of two, and both are valid. -/
theorem unary?_ne_invalid {op : Token} (h : Grammar.isUnaryOperator op = true) (v : Value) :
    v.unary? op.kind ≠ .error .invalidOperator := by
  obtain ⟨kind, lexeme, line⟩ := op
  cases kind with
  | symbol s =>
    cases s with
    | bang => nofun
    | minus =>
      unfold unary?
      dsimp only
      split <;> nofun
    | _ => cases h
  | _ => cases h

theorem add?_ne_invalid (v w : Value) : v.add? w ≠ .error .invalidOperator := by
  unfold add?
  split <;> nofun

theorem arithmetic?_ne_invalid {op : Token} (h : op.IsBinary)
    (equality : Level.equality.isOperator op = false) (plus : op.kind ≠ .symbol .plus) (x y : Float) :
    arithmetic? op.kind x y ≠ .error .invalidOperator := by
  obtain ⟨kind, lexeme, line⟩ := op
  rw [Token.IsBinary, equality] at h
  cases kind with
  | symbol s =>
    cases s with
    | plus => exact absurd rfl plus
    | slash =>
      unfold arithmetic?
      dsimp only
      split <;> nofun
    | greater | greaterEqual | less | lessEqual | minus | star | percent => nofun
    | _ => rcases h with h | h | h | h <;> cases h
  | _ => rcases h with h | h | h | h <;> cases h

theorem binary?_ne_invalid {op : Token} (h : op.IsBinary) (v w : Value) :
    v.binary? op.kind w ≠ .error .invalidOperator := by
  unfold binary?
  split
  · nofun
  · nofun
  · exact add?_ne_invalid v w
  · rename_i notEqual notUnequal notPlus
    split
    · refine arithmetic?_ne_invalid h ?_ notPlus _ _
      obtain ⟨kind, lexeme, line⟩ := op
      cases kind with
      | symbol s =>
        cases s with
        | equalEqual => exact absurd rfl notEqual
        | bangEqual => exact absurd rfl notUnequal
        | _ => rfl
      | _ => rfl
    · nofun

end Value

/-! Parts of programs -/

/-- What the walk over a well-formed program comes by is well-formed. -/
theorem Site.Within.proper {program : List Stmt} {p : Site} (h : Site.Within program p)
    (proper : Stmt.AllProper program) : p.part.Proper := by
  induction h with
  | root => exact proper
  | child i _ ih => exact Site.proper_child ih i

theorem Expr.Proper.not_raises_invalid {e : Expr} (h : e.Proper) (place : Surroundings)
    (r : Resolution) (t : Token) :
    ¬ (Resolve.expression place e r).1.Raises ⟨.invalidOperator, t⟩ := by
  cases e with
  | unary op right =>
    rintro ⟨-, v, invalid⟩
    exact Value.unary?_ne_invalid h.1 v invalid
  | binary left op right =>
    rintro ⟨-, v, w, invalid⟩
    exact Value.binary?_ne_invalid h.2.1 v w invalid
  | «this» keyword depth =>
    obtain ⟨body, receiver⟩ := place
    cases receiver <;> rintro ⟨-, ⟨⟩⟩
  | call callee paren arguments =>
    rintro ⟨-, invalid | invalid | ⟨_, _, invalid⟩⟩ <;> cases invalid
  | property object name =>
    rintro ⟨-, invalid | invalid⟩ <;> cases invalid
  | «variable» name depth => rintro ⟨-, ⟨⟩⟩
  | assign name value depth => rintro ⟨-, ⟨⟩⟩
  | setProperty object name value => rintro ⟨-, ⟨⟩⟩
  | _ => exact id

/-- The walk over the names gives no name to what had none. -/
theorem Expr.Proper.ne_this_of_assign {e : Expr} (h : e.Proper) {place : Surroundings}
    {r : Resolution} {name : Token} {value : Expr} {depth : Option Nat}
    (resolved : (Resolve.expression place e r).1 = .assign name value depth) :
    name.lexeme ≠ Keyword.this.word := by
  cases e with
  | assign name' value' depth' =>
    cases resolved
    exact h.1.lexeme_ne .this
  | «this» keyword depth' =>
    obtain ⟨body, receiver⟩ := place
    cases receiver <;> cases resolved
  | _ => cases resolved

/-- An expression that a run comes by is what the walk made of one in a program. -/
theorem Mark.Fits.walked {ran : List (List Stmt)} {p : Site} {e : Expr} {m : Machine}
    (fits : (Mark.reached p (.expression e) m).Fits ran) :
    (∃ program ∈ ran, Site.Within program p) ∧ ∃ e₀ : Expr, p.part = .expression e₀ ∧
      (Resolve.expression p.place e₀ p.before).1 = e := by
  obtain ⟨within, resolved, -⟩ := fits
  refine ⟨within, ?_⟩
  obtain ⟨part, place, before, closing⟩ := p
  cases part with
  | expression e₀ =>
    cases resolved
    exact ⟨e₀, rfl, rfl⟩
  | _ => cases resolved

/-- An expression that a run of well-formed programs comes by is one of theirs. -/
theorem Mark.Fits.expression {ran : List (List Stmt)} (proper : ∀ program ∈ ran, Stmt.AllProper program)
    {p : Site} {e : Expr} {m : Machine} (fits : (Mark.reached p (.expression e) m).Fits ran) :
    ∃ e₀ : Expr, e₀.Proper ∧ (Resolve.expression p.place e₀ p.before).1 = e := by
  obtain ⟨⟨program, mem, within⟩, e₀, part, walked⟩ := fits.walked
  have whole := within.proper (proper program mem)
  rw [part] at whole
  exact ⟨e₀, whole, walked⟩

def Mark.isAssignment : Mark → Bool
  | reached _ (.expression (.assign ..)) _ => true
  | _ => false

/-! Sessions -/

namespace Session

variable {s : Session} {g : Log} {ran : List (List Stmt)}

/-- A fault of a program that is run in a session belongs to an expression, in that program or in one that
ran before. -/
theorem History.raises (h : History s g ran) (fuel : Nat) {program : List Stmt}
    (proper : Stmt.AllProper program) (accepted : (Resolution.ofProgram program).2.errors = [])
    {error : RuntimeError} {m : Machine}
    (failed : Run.interpret (some maxCallDepth) fuel (Resolution.ofProgram program).1 s.machine =
      .fail (.runtime error) m) :
    ∃ p e₀, (∃ q ∈ program :: ran, Stmt.AllProper q ∧ Site.Within q p) ∧ p.part = .expression e₀ ∧
      (Resolve.expression p.place e₀ p.before).1.Raises error := by
  -- Faithfulness is known of what ran before; the program itself is put in front of that.
  have sound := h.sound (.program "")
  have proper' : ∀ q ∈ program :: ran, Stmt.AllProper q :=
    List.forall_mem_cons.mpr ⟨proper, fun q mem => (sound q (List.mem_append_right _ mem)).1⟩
  have accepted' : ∀ q ∈ program :: ran, (Resolution.ofProgram q).2.errors = [] :=
    List.forall_mem_cons.mpr ⟨accepted, h.settled.2⟩
  have fits := (watchExecute_watches accepted' (h.settled.1.more (List.subset_cons_self _ _)) fuel proper
    fun _ => List.mem_cons_self).1
  rw [← Watched.erases_interpret (some maxCallDepth) fuel (Site.root program) _ g s.machine] at failed
  obtain ⟨p, e, m₁, mem, raises⟩ := Watched.blames_interpret failed
  have noted : (s.watchExecute fuel program g).2 = (Watched.interpret (some maxCallDepth) fuel
      (Site.root program) (Resolution.ofProgram program).1 g s.machine).2 := by
    unfold watchExecute
    simp only [accepted, List.isEmpty_nil, if_true, report]
    split <;> rename_i eq <;> rw [eq]
  rw [← noted] at mem
  obtain ⟨⟨q, among, within⟩, e₀, part, walked⟩ := (fits _ mem).walked
  exact ⟨p, e₀, ⟨q, among, proper' q among, within⟩, part, walked ▸ raises⟩

/-- A program that is run in a session does not fail with an invalid operator. -/
theorem History.no_invalidOperator (h : History s g ran) (fuel : Nat) {program : List Stmt}
    (proper : Stmt.AllProper program) (accepted : (Resolution.ofProgram program).2.errors = [])
    (t : Token) (m : Machine) :
    Run.interpret (some maxCallDepth) fuel (Resolution.ofProgram program).1 s.machine ≠
      .fail (.runtime ⟨.invalidOperator, t⟩) m := by
  intro failed
  obtain ⟨p, e₀, ⟨q, -, made, within⟩, part, raises⟩ := h.raises fuel proper accepted failed
  have whole := within.proper made
  rw [part] at whole
  exact Expr.Proper.not_raises_invalid whole _ _ t raises

/-- What is read off the tokens of a text without a fault is well-formed at every depth: no distances, no
declarations but in programs and bodies, names where names stand, operators of their places, and short
lists of parameters and arguments. So no run of a session fails with an invalid operator, neither in a
program nor in a function that an earlier one made, and no assignment that it comes by is to `this`. -/
theorem parsed_well_formed (h : History s g ran) (fuel : Nat) (input : Input) :
    (∀ source : String,
      (∀ program, Stmt.programOfTokens (Scan.ofSource source).tokens = .ok program →
        Stmt.AllProper program) ∧
      ∀ e, Expr.ofTokens (Scan.ofSource source).tokens = .ok e → e.Proper) ∧
    (∀ program ∈ input.programs, ∀ t m,
      Run.interpret (some maxCallDepth) fuel (Resolution.ofProgram program).1 s.machine ≠
        .fail (.runtime ⟨.invalidOperator, t⟩) m) ∧
    (input.watch fuel s g).1 = input.run fuel s ∧
    ∀ p name value depth m,
      .reached p (.expression (.assign name value depth)) m ∈ (input.watch fuel s g).2.marks →
        name.lexeme ≠ Keyword.this.word := by
  refine ⟨fun source => ⟨fun program parsed => ?_, fun e parsed => ?_⟩, fun program mem t m => ?_,
    input.watch_eq fuel s g, fun p name value depth m mem => ?_⟩
  · exact proper_of_programOfTokens (fun _ => genuine_of_mem_scan) parsed
  · exact proper_of_ofTokens (fun _ => genuine_of_mem_scan) parsed
  · exact h.no_invalidOperator fuel (Input.proper_of_mem mem) (Input.accepted_of_mem mem) t m
  · have sound := h.sound input
    obtain ⟨e₀, made, resolved⟩ := Mark.Fits.expression (fun program mem => (sound program mem).1)
      (h.fits fuel input _ mem)
    exact made.ne_this_of_assign resolved

/-- A function of an earlier program negates what it is given, assigns it and compares it. -/
theorem parsed_well_formed_kept : ∃ s g ran, History s g ran ∧
    (∃ program, Stmt.programOfTokens (Scan.ofSource "fun f(x){var y;y=!x;return y==x;}").tokens =
      .ok program ∧ Stmt.AllProper program) ∧
    (∃ program ∈ (Input.line "f(nil)").programs, ∀ t m,
      Run.interpret (some maxCallDepth) 40 (Resolution.ofProgram program).1 s.machine ≠
        .fail (.runtime ⟨.invalidOperator, t⟩) m) ∧
    ∃ p name value depth m, .reached p (.expression (.assign name value depth)) m ∈
      ((Input.line "f(nil)").watch 40 s g).2.marks ∧ name.lexeme ≠ Keyword.this.word := by
  let make : Input := .program "fun f(x){var y;y=!x;return y==x;}"
  let start := Session.initial .unlimited .unlimited fun _ => 0
  let made := make.watch 40 start Log.empty
  have ends : made.1.any (fun r => ((Input.line "f(nil)").watch 40 r.2 made.2).2.marks.any
      Mark.isAssignment) = true := by decide +kernel
  have parses : make.parsed.toOption.isSome = true := by decide +kernel
  have runs : (Input.line "f(nil)").programs.isEmpty = false := by decide +kernel
  obtain ⟨⟨status, s⟩, ended, assigns⟩ := (Option.any_eq_true _ _).mp ends
  have history : History s made.2 (make.programs ++ []) :=
    .step 40 make (.initial .unlimited .unlimited fun _ => 0) (Prod.ext ended rfl)
  obtain ⟨wellFormed, valid, -, unassigned⟩ := parsed_well_formed history 40 (.line "f(nil)")
  obtain ⟨tree, parsed⟩ := Option.isSome_iff_exists.mp parses
  obtain ⟨program, mem⟩ := List.exists_mem_of_ne_nil _ (List.isEmpty_eq_false_iff.mp runs)
  obtain ⟨mark, noted, assignment⟩ := List.any_eq_true.mp assigns
  have parsed : Stmt.programOfTokens _ = .ok tree := Input.parsed_of_toOption parsed
  refine ⟨s, made.2, _, history, ⟨tree, parsed, ?_⟩, ⟨program, mem, valid program mem⟩, ?_⟩
  · exact (wellFormed _).1 tree parsed
  · unfold Mark.isAssignment at assignment
    split at assignment
    · rename_i p name value depth m
      exact ⟨p, name, value, depth, m, noted, unassigned p name value depth m noted⟩
    · cases assignment

end Session

end LoxLang
