import LoxLang.Proofs.Running.Sessions
import LoxLang.Proofs.Syntax.Acceptance
/-!
Faulty sources leave no trace but their reports. An input is faulty if it is not blank and the scan, the
parser or the walk over its names finds an error in it. What is proved:

* a run of an input ends with a static error exactly if the input is faulty, whatever the session and
  the depth (`Input.run_of_faulty`, `Input.run_of_faultless`);
* it reports at least one line then, and does nothing else;
* what a run comes to does not depend on what was reported before (`Input.run_alike`), so a step with a
  static error can be left out of a sequence of steps and no other step shows a difference.
-/
namespace LoxLang

namespace Sink

/-- What was taken between two states of a sink. -/
def since (before after : Sink) : List Char := after.text.toList.drop before.text.length

def lines (texts : List String) : List Char := texts.flatMap fun text => text.toList ++ ['\n']

variable {s : Sink} {texts : List String}

theorem reportAll_append (s : Sink) (first second : List String) :
    s.reportAll (first ++ second) = (s.reportAll first).reportAll second :=
  List.foldl_append

/-- A sink without a limit takes every report, and never gets one. -/
theorem reportAll_of_unlimited (h : s.breaksLeft = none) :
    (s.reportAll texts).text.toList = s.text.toList ++ lines texts ∧
      (s.reportAll texts).breaksLeft = none := by
  induction texts generalizing s with
  | nil => simp [reportAll, lines, h]
  | cons text texts ih =>
    have once : (s.report text).text.toList = s.text.toList ++ (text.toList ++ ['\n']) ∧
        (s.report text).breaksLeft = none := by
      simp [report, writeLine, write, h]
    obtain ⟨rest, unlimited⟩ := ih once.2
    refine ⟨?_, unlimited⟩
    calc ((s.report text).reportAll texts).text.toList
        = (s.report text).text.toList ++ lines texts := rest
      _ = s.text.toList ++ lines (text :: texts) := by rw [once.1]; simp [lines]

theorem since_reportAll (h : s.breaksLeft = none) : s.since (s.reportAll texts) = lines texts := by
  rw [since, (reportAll_of_unlimited h).1, ← String.length_toList]
  exact List.drop_left

end Sink

namespace Session

@[simp]
theorem report_machine (s : Session) (texts : List String) : (s.report texts).machine = s.machine :=
  rfl

@[simp]
theorem report_append (s : Session) (first second : List String) :
    s.report (first ++ second) = (s.report first).report second := by
  simp only [report, Sink.reportAll_append]

namespace Input

def blank : Input → Bool
  | program _ => false
  | line text => Text.allBlank text

def syntaxErrors (input : Input) : List SyntaxError := match input.parsed with
  | .error errors => errors
  | .ok _ => []

/-- What the walk over the names of a source finds wrong with it. -/
def scopeErrors (input : Input) : List ScopeError := match input.parsed with
  | .error _ => []
  | .ok tree => (Resolution.ofProgram tree).2.errors

/-- The scan, the parser or the walk over the names finds an error. -/
def Faulty (input : Input) : Prop :=
  input.blank = false ∧
    (input.scan.errors ≠ [] ∨ input.syntaxErrors ≠ [] ∨ input.scopeErrors ≠ [])

variable {input : Input} {fuel : Nat} {s : Session}

theorem run_of_blank (h : input.blank = true) : input.run fuel s = some (.ok, s) := by
  cases input with
  | program source => cases h
  | line text => exact if_pos h

theorem run_of_not_blank (h : input.blank = false) :
    input.run fuel s = s.finish fuel input.scan input.parsed := by
  cases input with
  | program source => rfl
  | line text =>
    have busy : ¬Text.allBlank text = true := by
      simpa [blank] using h
    exact if_neg busy

/-- The parser refuses nothing without a fault. -/
theorem parsed_fault {errors : List SyntaxError} (h : input.parsed = .error errors) :
    errors ≠ [] := by
  cases input with
  | program source => exact Stmt.programOfTokens_fault h
  | line text =>
    unfold parsed promptStatements at h
    dsimp only at h
    split at h
    · exact Stmt.programOfTokens_fault h
    · cases result : Expr.ofTokens (Scan.ofSource text).tokens with
      | ok e =>
        rw [result] at h
        cases h
      | error found =>
        rw [result] at h
        cases h
        exact Expr.ofTokens_fault result

theorem run_of_faulty (h : input.Faulty) :
    ∃ texts, texts ≠ [] ∧ ∀ fuel s, input.run fuel s = some (.staticError, s.report texts) := by
  obtain ⟨busy, errors⟩ := h
  have lexed : input.scan.errors ≠ [] → input.scan.errors.map LexError.text ≠ [] := by simp
  cases parsed : input.parsed with
  | error found =>
    have some : found ≠ [] := parsed_fault parsed
    refine ⟨input.scan.errors.map LexError.text ++ found.map SyntaxError.text, by simp [some], ?_⟩
    intro fuel s
    rw [run_of_not_blank busy, parsed, report_append]
    rfl
  | ok program =>
    cases clean : input.scan.errors.isEmpty with
    | false =>
      have some : input.scan.errors ≠ [] := by simpa using clean
      refine ⟨_, lexed some, fun fuel s => ?_⟩
      rw [run_of_not_blank busy, parsed]
      simp only [finish, clean]
      rfl
    | true =>
      -- The scan and the parser are content, so the walk over the names is not.
      have none : input.scan.errors = [] := List.isEmpty_iff.mp clean
      have found : (Resolution.ofProgram program).2.errors ≠ [] := by
        simpa [none, syntaxErrors, scopeErrors, parsed] using errors
      refine ⟨(Resolution.ofProgram program).2.warnings.map Warning.text ++
        (Resolution.ofProgram program).2.errors.map ScopeError.text, by simp [found], ?_⟩
      intro fuel s
      have some : (Resolution.ofProgram program).2.errors.isEmpty = false := by simpa using found
      rw [run_of_not_blank busy, parsed, report_append]
      simp only [finish, execute, some, none, List.map_nil]
      rfl

/-- An input without faults that is not blank has a program, in which nothing is found. -/
theorem parts_of_faultless (busy : input.blank = false) (h : ¬input.Faulty) :
    ∃ program, input.parsed = .ok program ∧ input.scan.errors = [] ∧
      (Resolution.ofProgram program).2.errors = [] := by
  cases parsed : input.parsed with
  | error found =>
    have some : found ≠ [] := parsed_fault parsed
    exact absurd ⟨busy, .inr (.inl (by simpa [syntaxErrors, parsed] using some))⟩ h
  | ok program =>
    refine ⟨program, rfl, ?_, ?_⟩
    · by_contra some
      exact h ⟨busy, .inl some⟩
    · by_contra some
      exact h ⟨busy, .inr (.inr (by simpa [scopeErrors, parsed] using some))⟩

theorem run_of_faultless (h : ¬input.Faulty) (s' : Session) :
    input.run fuel s ≠ some (.staticError, s') := by
  intro ran
  cases busy : input.blank with
  | true =>
    rw [run_of_blank busy] at ran
    cases ran
  | false =>
    obtain ⟨program, parsed, lexed, resolved⟩ := parts_of_faultless busy h
    rw [run_of_not_blank busy, parsed] at ran
    simp only [finish, execute, lexed, resolved, List.isEmpty_nil, if_true] at ran
    split at ran <;> cases ran

theorem run_staticError_iff :
    (∃ s', input.run fuel s = some (.staticError, s')) ↔ input.Faulty := by
  constructor
  · rintro ⟨s', ran⟩
    by_contra faultless
    exact run_of_faultless faultless s' ran
  · intro faulty
    obtain ⟨texts, _, ran⟩ := run_of_faulty faulty
    exact ⟨_, ran fuel s⟩

/-- What a run comes to and what it reports depend on the machine only, not on what was reported
before. -/
theorem run_alike (fuel : Nat) (input : Input) (m : Machine) :
    ∃ effect : Option (Status × Machine × List String), ∀ reports : Sink,
      input.run fuel ⟨m, reports⟩ =
        effect.map fun (status, m', texts) => (status, ⟨m', reports.reportAll texts⟩) := by
  cases busy : input.blank with
  | true => exact ⟨some (.ok, m, []), fun _ => run_of_blank busy⟩
  | false =>
    by_cases faulty : input.Faulty
    · obtain ⟨texts, _, ran⟩ := run_of_faulty faulty
      exact ⟨some (.staticError, m, texts), fun _ => ran fuel _⟩
    · obtain ⟨program, parsed, lexed, resolved⟩ := parts_of_faultless busy faulty
      have run : ∀ reports : Sink, input.run fuel ⟨m, reports⟩ =
          execute fuel program ⟨m, reports⟩ := by
        intro reports
        rw [run_of_not_blank busy, parsed]
        simp only [finish, lexed, List.isEmpty_nil, if_true, List.map_nil]
        rfl
      let warnings := (Resolution.ofProgram program).2.warnings.map Warning.text
      -- The program runs on the machine alone; its reports come behind those of before.
      cases ran : Run.interpret (some maxCallDepth) fuel (Resolution.ofProgram program).1 m with
      | ok _ m' =>
        refine ⟨some (.ok, m', warnings), fun reports => ?_⟩
        simp only [run, execute, resolved, List.isEmpty_nil, if_true, report_machine, ran]
        rfl
      | fail e m' =>
        refine ⟨some (.runtimeError, m', warnings ++ [e.text]), fun reports => ?_⟩
        simp only [run, execute, resolved, List.isEmpty_nil, if_true, report_machine, ran]
        rw [Option.map_some, Sink.reportAll_append]
        rfl
      | starved =>
        refine ⟨none, fun reports => ?_⟩
        simp only [run, execute, resolved, List.isEmpty_nil, if_true, report_machine, ran]
        rfl

end Input

/-! Sequences of steps -/

/-- What a step shows: how it ended, what the program wrote, and what was reported. -/
structure Observed where
  status : Status
  output : List Char
  diagnostics : List Char
  deriving DecidableEq

/-- What the steps show that run one after the other, if all of them come to an end. -/
def trace (fuel : Nat) : List Input → Session → Option (List Observed)
  | [], _ => some []
  | input :: inputs, s =>
    match input.run fuel s with
    | none => none
    | some (status, s') =>
      (trace fuel inputs s').map fun others =>
        ⟨status, s.machine.out.since s'.machine.out, s.reports.since s'.reports⟩ :: others

variable {fuel : Nat} {s s' : Session} {status : Status}

theorem trace_cons {input : Input} {inputs : List Input}
    (ran : input.run fuel s = some (status, s')) :
    trace fuel (input :: inputs) s = (trace fuel inputs s').map fun others =>
      ⟨status, s.machine.out.since s'.machine.out, s.reports.since s'.reports⟩ :: others := by
  simp only [trace, ran]

theorem trace_alike (inputs : List Input) {m : Machine} {r r' : Sink} (h : r.breaksLeft = none)
    (h' : r'.breaksLeft = none) : trace fuel inputs ⟨m, r⟩ = trace fuel inputs ⟨m, r'⟩ := by
  induction inputs generalizing m r r' with
  | nil => rfl
  | cons input inputs ih =>
    obtain ⟨effect, ran⟩ := input.run_alike fuel m
    cases effect with
    | none => simp only [trace, ran r, ran r', Option.map_none]
    | some effect =>
      obtain ⟨status, m', texts⟩ := effect
      rw [trace_cons (ran r), trace_cons (ran r'), Sink.since_reportAll h, Sink.since_reportAll h']
      have same : trace fuel inputs ⟨m', r.reportAll texts⟩ =
          trace fuel inputs ⟨m', r'.reportAll texts⟩ :=
        ih (Sink.reportAll_of_unlimited h).2 (Sink.reportAll_of_unlimited h').2
      rw [same]

/-- A step with a static error is left out and nothing else changes. -/
theorem trace_without {before after : List Input} {input : Input} {observed : List Observed}
    (unlimited : s.reports.breaksLeft = none)
    (ran : trace fuel (before ++ [input]) s = some observed)
    (static : observed[before.length]?.map Observed.status = some .staticError) :
    trace fuel (before ++ after) s =
      (trace fuel (before ++ input :: after) s).map fun all => all.eraseIdx before.length := by
  induction before generalizing s observed with
  | nil =>
    cases first : input.run fuel s with
    | none => simp [trace, first] at ran
    | some result =>
      obtain ⟨status, s'⟩ := result
      rw [List.nil_append, trace_cons first] at ran
      cases ran
      have ended : status = .staticError := by simpa using static
      rw [ended] at first
      obtain ⟨texts, _, reported⟩ := Input.run_of_faulty (Input.run_staticError_iff.mp ⟨_, first⟩)
      have left : s' = s.report texts := by
        rw [reported fuel s] at first
        cases first
        rfl
      -- The machine is the same, and what was reported does not show in the steps behind.
      have alike : trace fuel after s = trace fuel after s' := by
        rw [left]
        exact trace_alike after unlimited (Sink.reportAll_of_unlimited unlimited).2
      calc trace fuel ([] ++ after) s
          = trace fuel after s' := alike
        _ = (trace fuel ([] ++ input :: after) s).map fun all => all.eraseIdx 0 := by
          rw [List.nil_append, trace_cons first, Option.map_map]
          simp [Function.comp_def]
  | cons earlier before ih =>
    cases first : earlier.run fuel s with
    | none => simp [trace, first] at ran
    | some result =>
      obtain ⟨status, s'⟩ := result
      rw [List.cons_append, trace_cons first] at ran ⊢
      rw [List.cons_append, trace_cons first]
      obtain ⟨others, rest, rfl⟩ := Option.map_eq_some_iff.mp ran
      have unlimited' : s'.reports.breaksLeft = none := by
        obtain ⟨effect, effects⟩ := earlier.run_alike fuel s.machine
        have same := first.symm.trans (effects s.reports)
        obtain ⟨⟨_, _, texts⟩, _, made⟩ := Option.map_eq_some_iff.mp same.symm
        cases made
        exact (Sink.reportAll_of_unlimited unlimited).2
      have static : others[before.length]?.map Observed.status = some .staticError := by
        simpa using static
      rw [ih unlimited' rest static, Option.map_map, Option.map_map]
      rfl

/-- Static errors are atomic. A run ends with one exactly if its input is faulty; then the machine is what
it was and at least one line is reported, and nothing else; and a step that ended so can be left out of
any sequence of steps, without a difference in what the other steps show. -/
theorem static_errors_atomic :
    (∀ (fuel : Nat) (input : Input) (s : Session),
      (∃ s', input.run fuel s = some (.staticError, s')) ↔
        input.blank = false ∧
          (input.scan.errors ≠ [] ∨ input.syntaxErrors ≠ [] ∨ input.scopeErrors ≠ [])) ∧
    (∀ (fuel : Nat) (input : Input) (s s' : Session),
      input.run fuel s = some (.staticError, s') →
        s'.machine = s.machine ∧ ∃ texts, texts ≠ [] ∧ s'.reports = s.reports.reportAll texts ∧
          (s.reports.breaksLeft = none → s.reports.since s'.reports = Sink.lines texts)) ∧
    (∀ (fuel : Nat) (s : Session) (before after : List Input) (input : Input)
      (observed : List Observed), s.reports.breaksLeft = none →
        trace fuel (before ++ [input]) s = some observed →
          observed[before.length]?.map Observed.status = some .staticError →
            trace fuel (before ++ after) s =
              (trace fuel (before ++ input :: after) s).map fun all =>
                all.eraseIdx before.length) := by
  refine ⟨fun fuel input s => Input.run_staticError_iff, fun fuel input s s' ran => ?_,
    fun fuel s before after input observed => trace_without⟩
  obtain ⟨texts, some, reported⟩ := Input.run_of_faulty (Input.run_staticError_iff.mp ⟨s', ran⟩)
  rw [reported fuel s] at ran
  cases ran
  exact ⟨rfl, texts, some, rfl, Sink.since_reportAll⟩

/-- A prompt line with a fault between two programs: it is told from the others by its status, and without
it the programs show the same. -/
theorem static_errors_atomic_between :
    let print : Input := .program "var a = true; print a;"
    let wrong : Input := .line "var b = ;"
    let start := Session.initial .unlimited .unlimited fun _ => 0
    wrong.blank = false ∧ wrong.syntaxErrors ≠ [] ∧
      (trace 30 ([print] ++ wrong :: [print]) start).isSome = true ∧
      trace 30 ([print] ++ [print]) start =
        (trace 30 ([print] ++ wrong :: [print]) start).map fun all => all.eraseIdx 1 := by
  intro print wrong start
  have busy : wrong.blank = false := by decide +kernel
  have ends : (trace 30 ([print] ++ [wrong]) start).any (fun observed =>
      observed[1]?.map Observed.status = some .staticError) = true := by decide +kernel
  have all : (trace 30 ([print] ++ wrong :: [print]) start).isSome = true := by decide +kernel
  obtain ⟨observed, ran, static⟩ := (Option.any_eq_true _ _).mp ends
  have without := static_errors_atomic.2.2 30 start [print] [print] wrong observed rfl ran
    (of_decide_eq_true static)
  have refused : wrong.syntaxErrors.isEmpty = false := by decide +kernel
  exact ⟨busy, fun none => by simp [none] at refused, all, without⟩

end Session

end LoxLang
