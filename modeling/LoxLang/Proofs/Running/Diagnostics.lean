import LoxLang.Proofs.Resolution.Sourced
import LoxLang.Proofs.Running.StaticErrors
import LoxLang.Proofs.Running.WellFormed
import LoxLang.Proofs.Splitting.Scanning
/-!
What is reported points at the source. `Diagnostic.About` says so of a diagnostic of each stage: faults of
syntax and of scope are noticed at tokens of the source, warnings are about names in it, and a fault of a run
is raised at an operator, a name, a `this` or the end of a call in it, however late the code runs that it is
part of.

What is proved:
1. the tree of a source is drawn from its tokens (`Session.Input.drawn_of_parsed`);
2. a fault of a run is raised at a token that its expression keeps (`Expr.Drawn.raised`);
3. in a fresh session all that a stage finds is about tokens of the source, and nothing else is reported
   (`Session.diagnostics_at_tokens`).
-/
namespace LoxLang

/-- A token at which an expression can fail: an operator, a name, `this`, or the end of a call. -/
def Token.CanFail (t : Token) : Prop :=
  (Grammar.isUnaryOperator t ∨ t.IsBinary) ∨ t.IsName ∨ t.isKeyword .this ∨ t.isSymbol .rightParen

theorem Token.not_canFail_impliedReturn (line : Nat) : ¬ (impliedReturn line).CanFail := by
  rintro ((operator | operator) | name | this | paren)
  · cases operator
  · rcases operator with h | h | h | h <;> cases h
  · cases name.1
  · cases this
  · cases paren

/-- What an expression raises, it raises at one of its tokens. The walk over the names changes none. -/
theorem Expr.Drawn.raised {ts : List Token} {e : Expr} (drawn : e.Drawn ts) (proper : e.Proper)
    {place : Surroundings} {r : Resolution} {error : RuntimeError}
    (raises : (Resolve.expression place e r).1.Raises error) :
    error.token ∈ ts ∧ error.token.CanFail := by
  cases e with
  | unary op right =>
    obtain ⟨same, -⟩ := raises
    exact same ▸ ⟨drawn.1, .inl (.inl proper.1)⟩
  | binary left op right =>
    obtain ⟨same, -⟩ := raises
    exact same ▸ ⟨drawn.2.1, .inl (.inr proper.2.1)⟩
  | «variable» name depth =>
    obtain ⟨same, -⟩ := raises
    exact same ▸ ⟨drawn, .inr (.inl proper.1)⟩
  | «this» keyword depth =>
    have here : keyword.isKeyword .this = true := by
      unfold Token.isKeyword Token.is
      rw [proper.1.1]
      rfl
    obtain ⟨body, receiver⟩ := place
    cases receiver <;> exact raises.1 ▸ ⟨drawn, .inr (.inr (.inl here))⟩
  | assign name value depth =>
    obtain ⟨same, -⟩ := raises
    exact same ▸ ⟨drawn.1, .inr (.inl proper.1)⟩
  | call callee paren arguments =>
    obtain ⟨same, -⟩ := raises
    exact same ▸ ⟨drawn.2.1.1, .inr (.inr (.inr drawn.2.1.2))⟩
  | property object name =>
    obtain ⟨same, -⟩ := raises
    exact same ▸ ⟨drawn.2, .inr (.inl proper.2)⟩
  | setProperty object name value =>
    obtain ⟨same, -⟩ := raises
    exact same ▸ ⟨drawn.2.1, .inr (.inl proper.2.1)⟩
  | _ => exact raises.elim

/-! Diagnostics -/

/-- Something that is reported about a source. -/
inductive Diagnostic where
  | lexical (e : LexError)
  | grammatical (e : SyntaxError)
  | scope (e : ScopeError)
  | unused (w : Warning)
  | failure (e : Failure)

namespace Diagnostic

def text : Diagnostic → String
  | lexical e => e.text
  | grammatical e => e.text
  | scope e => e.text
  | unused w => w.text
  | failure e => e.text

/-- The diagnostic is about a token of the source: what it tells of the place is what the token tells. Faults
of the text itself have a line only, and refused output has not even that. -/
def About (input : Session.Input) : Diagnostic → Prop
  | lexical e => e ∈ input.scan.errors
  | grammatical e => e.token ∈ input.scan.tokens
  | scope e => e.token ∈ input.scan.tokens
  | unused w => ∃ program, input.parsed = .ok program ∧ ∃ way ∈ Stmt.placesAll program, ∃ d others,
      partAt program way = .declarators (d :: others) ∧ w = ⟨d.name.lexeme, d.name.line⟩ ∧
        d.name ∈ input.scan.tokens ∧ d.name.IsName
  | failure (.runtime e) => e.token ∈ input.scan.tokens ∧ e.token.CanFail
  | failure (.output _) => True

end Diagnostic

namespace Session

namespace Input

/-- A stage finds this in a source, or it is why the run of the source fails on a machine. -/
def Finds (fuel : Nat) (m : Machine) (input : Input) : Diagnostic → Prop
  | .lexical e => e ∈ input.scan.errors
  | .grammatical e => e ∈ input.syntaxErrors
  | .scope e => e ∈ input.scopeErrors
  | .unused w => ∃ program, input.parsed = .ok program ∧ w ∈ (Resolution.ofProgram program).2.warnings
  | .failure e => ∃ program ∈ input.programs, ∃ m',
      Run.interpret (some maxCallDepth) fuel (Resolution.ofProgram program).1 m = .fail e m'

variable {input : Input} {fuel : Nat} {s s' : Session} {status : Status}

theorem readOff (input : Input) :
    ReadOff input.scan.tokens (Stmt.AllDrawn input.scan.tokens false) input.parsed := by
  cases input with
  | program source => exact drawn_of_programOfTokens (Scan.ended_ofSource source)
  | line text =>
    unfold parsed promptStatements
    dsimp only
    split
    · exact drawn_of_programOfTokens (Scan.ended_ofSource text)
    · have drawn := drawn_of_ofTokens (Scan.ended_ofSource text)
      cases result : Expr.ofTokens (Scan.ofSource text).tokens with
      | ok e =>
        rw [result] at drawn
        exact ⟨drawn, trivial⟩
      | error errors =>
        rw [result] at drawn
        exact drawn

theorem drawn_of_parsed {program : List Stmt} (parsed : input.parsed = .ok program) :
    Stmt.AllDrawn input.scan.tokens false program := by
  have drawn := input.readOff
  rwa [parsed] at drawn

theorem parsed_of_mem {program : List Stmt} (mem : program ∈ input.programs) :
    input.parsed = .ok program := by
  have among := (List.mem_filter.mp mem).1
  exact parsed_of_toOption (Option.mem_toList.mp among)

end Input

/-- Between the two sessions diagnostics with this property are reported, and nothing else. -/
def Reports (Q : Diagnostic → Prop) (s s' : Session) : Prop :=
  ∃ ds : List Diagnostic, s'.reports = s.reports.reportAll (ds.map Diagnostic.text) ∧ ∀ d ∈ ds, Q d

namespace Reports

variable {Q : Diagnostic → Prop} {s s' : Session}

theorem refl (s : Session) : Reports Q s s := ⟨[], rfl, fun _ none => absurd none List.not_mem_nil⟩

theorem report {α : Type} (h : Reports Q s s') (make : α → Diagnostic) {found : List α}
    (each : ∀ a ∈ found, Q (make a)) :
    Reports Q s (s'.report (found.map fun a => (make a).text)) := by
  obtain ⟨ds, reports, all⟩ := h
  refine ⟨ds ++ found.map make, ?_, fun d mem => ?_⟩
  · rw [List.map_append, List.map_map, Sink.reportAll_append, ← reports]
    rfl
  · rcases List.mem_append.mp mem with before | here
    · exact all d before
    · obtain ⟨a, among, rfl⟩ := List.mem_map.mp here
      exact each a among

end Reports

section

variable {fuel : Nat} {input : Input} {s s' : Session} {status : Status}

theorem Input.reports_of_run (ran : input.run fuel s = some (status, s')) :
    Reports (input.Finds fuel s.machine) s s' := by
  cases busy : input.blank with
  | true =>
    rw [run_of_blank busy] at ran
    cases ran
    exact .refl s
  | false =>
    -- The stages in turn: what one reports it has found, and the last one is the first that finds an error.
    have lexed : Reports (input.Finds fuel s.machine) s (s.report (input.scan.errors.map LexError.text)) :=
      (Reports.refl s).report .lexical fun _ mem => mem
    rw [run_of_not_blank busy] at ran
    unfold finish at ran
    dsimp only at ran
    cases parsed : input.parsed with
    | error errors =>
      rw [parsed] at ran
      cases ran
      refine lexed.report .grammatical fun e mem => ?_
      rw [Finds, syntaxErrors, parsed]
      exact mem
    | ok program =>
      rw [parsed] at ran
      dsimp only at ran
      have warnings : ∀ w ∈ (Resolution.ofProgram program).2.warnings,
          input.Finds fuel s.machine (.unused w) := fun w mem => ⟨program, parsed, mem⟩
      have warned := lexed.report .unused warnings
      split at ran
      · rename_i clean
        unfold execute at ran
        dsimp only at ran
        split at ran
        · rename_i accepted
          have among := mem_programs parsed clean accepted
          split at ran
          · cases ran
            exact warned
          · rename_i e m failed
            cases ran
            have failure : ∀ f ∈ [e], input.Finds fuel s.machine (.failure f) := fun f mem => by
              rw [List.mem_singleton.mp mem]
              exact ⟨program, among, m, failed⟩
            exact warned.report .failure failure
          · cases ran
        · cases ran
          refine warned.report .scope fun e mem => ?_
          rw [Finds, scopeErrors, parsed]
          exact mem
      · cases ran
        exact lexed

theorem Input.Finds.about {out : Sink} {clock : Nat → Float} {d : Diagnostic}
    (found : input.Finds fuel (Machine.initial out clock) d) : d.About input := by
  cases d with
  | lexical e => exact found
  | grammatical e =>
    have drawn := input.readOff
    have found : e ∈ input.syntaxErrors := found
    unfold Input.syntaxErrors at found
    split at found
    · rename_i errors parsed
      rw [parsed] at drawn
      exact drawn e found
    · exact absurd found List.not_mem_nil
  | scope e =>
    have found : e ∈ input.scopeErrors := found
    unfold Input.scopeErrors at found
    split at found
    · exact absurd found List.not_mem_nil
    · rename_i program parsed
      rw [errors_ofProgram (Input.proper_of_parsed parsed)] at found
      obtain ⟨way, -, fault⟩ := List.mem_flatMap.mp found
      exact faultsAt_drawn (Input.drawn_of_parsed parsed) way e fault
  | unused w =>
    obtain ⟨program, parsed, warned⟩ := found
    have proper := Input.proper_of_parsed parsed
    obtain ⟨way, listed, d, others, part, same⟩ := declarator_of_warning proper warned
    have made := proper_siteAt proper way
    have drawn := drawn_siteAt (Input.drawn_of_parsed parsed) way
    rw [Site.Drawn, ← partAt_eq, part] at drawn
    rw [← partAt_eq, part] at made
    refine ⟨program, parsed, way, listed, d, others, part, same, ?_⟩
    obtain ⟨name, initial⟩ := d
    cases initial with
    | none => exact ⟨drawn.1, made.1⟩
    | some e => exact ⟨drawn.1.1, made.1.1⟩
  | failure e =>
    cases e with
    | output f => trivial
    | runtime error =>
      obtain ⟨program, mem, m', failed⟩ := found
      have fresh := History.initial out .unlimited clock
      -- Nothing was run before, so the expression that raises the error is one of this program.
      obtain ⟨p, e₀, ⟨q, among, proper, within⟩, part, raises⟩ :=
        fresh.raises fuel (Input.proper_of_mem mem) (Input.accepted_of_mem mem) failed
      obtain rfl := List.mem_singleton.mp among
      have made := within.proper proper
      have drawn := within.drawn (Input.drawn_of_parsed (Input.parsed_of_mem mem))
      rw [Site.Drawn, part] at drawn
      rw [part] at made
      exact Expr.Drawn.raised drawn made raises

end

/-- What is reported points at tokens of the source. All tokens of a tree are tokens of the source it is read
off, with kind, text and line, but for the `return` in front of an expression that is the body of a function
without a name. That one is in no diagnostic: where it stands the walk over the names finds nothing wrong,
and a run does not fail at it. Whatever a stage finds in a source that is the first of a session is about
tokens of the source, and of those that are declared or can fail where it is about a declaration or a run;
and such findings are all that is reported. -/
theorem diagnostics_at_tokens (fuel : Nat) (input : Input) (out reports : Sink) (clock : Nat → Float) :
    (∀ program, input.parsed = .ok program →
      Stmt.AllDrawn input.scan.tokens false program ∧
      (Resolution.ofProgram program).2.errors =
        (Stmt.placesAll program).flatMap (faultsAt program) ∧
      ∀ way name params keyword value, partAt program way =
          .expression (.lambda ⟨name, params, [.returns keyword (some value)]⟩) →
        faultsAt program (0 :: 0 :: 0 :: way) = []) ∧
    (∀ line, ¬ (Token.impliedReturn line).CanFail) ∧
    (∀ d, input.Finds fuel (Machine.initial out clock) d → d.About input) ∧
    ∀ status s', input.run fuel (Session.initial out reports clock) = some (status, s') →
      ∃ ds : List Diagnostic, s'.reports = reports.reportAll (ds.map Diagnostic.text) ∧
        ∀ d ∈ ds, d.About input := by
  refine ⟨fun program parsed => ⟨Input.drawn_of_parsed parsed, ?_, fun _ _ _ _ _ => faultsAt_implied⟩,
    Token.not_canFail_impliedReturn, fun d found => found.about, fun status s' ran => ?_⟩
  · exact errors_ofProgram (Input.proper_of_parsed parsed)
  · obtain ⟨ds, reported, found⟩ := Input.reports_of_run ran
    exact ⟨ds, reported, fun d mem => (found d mem).about⟩

/-- A variable is not used, and a function whose `return` is made up fails when it is called in the end. -/
theorem diagnostics_at_tokens_late :
    let input : Input := .program "{var a;}\nfun f(){return lambda()-nil;}\nf()();"
    let text := "[line 1] Warning: Local variable 'a' is never used.\n" ++
      "Operand of '-' must be a number.\n[line 2]\n"
    ∃ program status s', ∃ ds : List Diagnostic, input.parsed = .ok program ∧
      Stmt.AllDrawn input.scan.tokens false program ∧
      input.run 40 (Session.initial .unlimited .unlimited fun _ => 0) = some (status, s') ∧
      s'.reports.text = text ∧ s'.reports = Sink.reportAll .unlimited (ds.map Diagnostic.text) ∧
      ∀ d ∈ ds, d.About input := by
  intro input text
  have parses : input.parsed.toOption.isSome = true := by decide +kernel
  have ends : (input.run 40 (Session.initial .unlimited .unlimited fun _ => 0)).any
      (fun r => r.2.reports.text == text) = true := by decide +kernel
  obtain ⟨program, parsed⟩ := Option.isSome_iff_exists.mp parses
  have parsed := Input.parsed_of_toOption parsed
  obtain ⟨⟨status, s'⟩, ran, written⟩ := (Option.any_eq_true _ _).mp ends
  obtain ⟨trees, -, -, reported⟩ :=
    diagnostics_at_tokens 40 input .unlimited .unlimited fun _ => 0
  obtain ⟨ds, all, about⟩ := reported status s' ran
  exact ⟨program, status, s', ds, parsed, (trees program parsed).1, ran, eq_of_beq written, all, about⟩

end Session

end LoxLang
