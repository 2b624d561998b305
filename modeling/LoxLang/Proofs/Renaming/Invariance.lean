import LoxLang.Proofs.Renaming.Renamed
import LoxLang.Proofs.Renaming.TwinRuns
import LoxLang.Proofs.Running.Sessions
/-!
Names of local variables do not matter. To give a local variable a name that does not occur in the
program, where it is declared and in the occurrences that the walk finds to stand for it, changes
neither whether the program is accepted nor how it runs (`renaming_invariant`).
-/
namespace LoxLang

/-! The scope of the variable -/

section

variable {program : List Stmt} {ρ : Renaming}

theorem within_siteAt (program : List Stmt) : ∀ way : List Nat,
    Site.Within program (siteAt program way)
  | [] => .root
  | i :: way => .child i (within_siteAt program way)

theorem Site.proper_child {p : Site} (h : p.part.Proper) (i : Nat) : (p.child i).part.Proper := by
  obtain ⟨part, place, before, closing⟩ := p
  unfold child
  dsimp only
  split
  all_goals first
    -- a condition has a second branch or not
    | cases ‹Option Stmt› with
      | none => first | exact h.1 | exact h.2.2
      | some => first | exact h.1 | exact h.2.1.2
    | exact h
    | exact h.1
    | exact h.2
    | exact h.1.2
    | exact h.2.1
    | exact h.2.2
    | exact h.2.2.2
    | exact ⟨h, trivial⟩

theorem proper_siteAt (proper : Stmt.AllProper program) : ∀ way : List Nat,
    (siteAt program way).part.Proper
  | [] => proper
  | i :: way => Site.proper_child (proper_siteAt proper way) i

theorem Site.nodup_scope (accepted : (Resolution.ofProgram program).2.errors = []) {p : Site}
    (h : Within program p) (proper : p.part.Proper) :
    (p.part.params.map (·.lexeme) ++ p.part.body.flatMap Stmt.declares).Nodup := by
  cases part : p.part with
  | function code =>
    rw [part] at proper
    exact nodup_of_function accepted h part proper
  | statement s =>
    rw [part] at proper
    cases s with
    | block body => exact nodup_of_block accepted h part proper
    | _ => exact List.nodup_nil
  | _ => exact List.nodup_nil

theorem isName_of_declarators {t : Token} : ∀ {ds : List Declarator}, Declarator.AllProper ds →
    t ∈ ds.map (·.name) → t.IsName
  | ⟨name, initial⟩ :: ds, proper, mem => by
    rcases List.mem_cons.mp mem with rfl | mem
    · cases initial with
      | none => exact proper.1
      | some initial => exact proper.1.1
    · exact isName_of_declarators proper.2 mem

theorem isName_of_statements {t : Token} : ∀ {ss : List Stmt}, Stmt.AllProper ss →
    t ∈ ss.flatMap Stmt.locals → t.IsName
  | s :: ss, proper, mem => by
    rcases List.mem_append.mp mem with mem | mem
    · have first := proper.1
      cases s with
      | declare d => exact isName_of_declarators (show Declarator.AllProper [d] from ⟨first, trivial⟩) mem
      | declareAll ds => exact isName_of_declarators first.2 mem
      | _ => cases mem
    · exact isName_of_statements proper.2 mem

/-- The variables of a scope are under names that are no keywords. -/
theorem isName_of_variable {part : Part} (proper : part.Proper) {t : Token}
    (h : t ∈ part.locals) : t.IsName := by
  cases part with
  | function code =>
    obtain ⟨name, params, body⟩ := code
    rcases List.mem_append.mp h with param | mem
    · exact proper.1.2 t param
    · exact isName_of_statements proper.2 mem
  | statement s =>
    cases s with
    | block body => exact isName_of_statements proper h
    | _ => cases h
  | _ => cases h

/-- A variable that is declared in its scope shares it with no function or class of its name. -/
theorem Renaming.fits_of_declared {σ : Exchange}
    (accepted : (Resolution.ofProgram program).2.errors = []) (proper : Stmt.AllProper program)
    (declared : ρ.Declared program) (old : ρ.old = σ.old) (new : ρ.new = σ.new) :
    ρ.Fits σ program := by
  refine ⟨old, new, fun s mem t callable same => ?_⟩
  obtain ⟨u, variable_, name⟩ := declared
  have nodup := Site.nodup_scope accepted (within_siteAt program ρ.scope)
    (proper_siteAt proper ρ.scope)
  have given : σ.old ∈ s.declares := by
    rw [← same, Stmt.declares, callable]
    simp
  rw [List.nodup_append] at nodup
  obtain ⟨_, distinct, apart⟩ := nodup
  rcases List.mem_append.mp variable_ with param | variable_
  · refine apart u.lexeme (List.mem_map.mpr ⟨u, param, rfl⟩) σ.old ?_ (name.trans old)
    exact List.mem_flatMap.mpr ⟨s, mem, given⟩
  · obtain ⟨s', mem', variable_⟩ := List.mem_flatMap.mp variable_
    have given' : σ.old ∈ s'.declares := by
      rw [← old, ← name, Stmt.declares]
      exact List.mem_map.mpr ⟨u, List.mem_append_left _ variable_, rfl⟩
    obtain rfl := eq_of_mem_flatMap distinct mem mem' given given'
    rw [Stmt.callable?_eq_none variable_] at callable
    cases callable

end

/-! Two runs from one machine -/

section

variable {σ : Exchange}

def Pair.double (m : Machine) : Pair := ⟨m, m, fun _ => false⟩

theorem Pair.sees_double {m : Machine} {e : Nat} (lt : e < m.environments.size) :
    (Pair.double m).Sees e [] := ⟨lt, fun _ _ _ => rfl⟩

theorem Closure.twin_self {m : Machine} (inner : List Bool) (f : Closure) (unmarked : Unmarked inner)
    (lt : f.scope < m.environments.size) : Closure.Twin σ (Pair.double m) inner f f := by
  refine ⟨rfl, rfl, rfl, [], Pair.sees_double lt, Function.twin_self f.code ?_⟩
  rwa [List.append_nil]

theorem option_twin_self {m : Machine} {o : Option Value} (sound : ∀ v, o = some v → v.Sound m) :
    Option.Rel (Value.Twin σ (Pair.double m)) o o :=
  relOption_imp (fun _ _ => Value.twin_iff.mpr) (option_alike_self Closure.twin_self sound)

theorem Pair.like_double {m : Machine} (sound : m.Sound) : (Pair.double m).Like σ where
  nonempty := sound.nonempty
  globals := rfl
  size := rfl
  outer _ := rfl
  bound e x := option_twin_self (sound.bound e x)
  instances := rfl
  fields i x := option_twin_self (sound.fields i x)
  nextId := rfl
  current := rfl
  callDepth := rfl
  out := rfl
  clock := rfl
  readings := rfl

end

namespace Session

variable {ran : List (List Stmt)} {s : Session} {g : Log}

/-- Let a local variable or a parameter of a program that is accepted get a new name, which does not
occur in it and is no keyword. Then the program is accepted as before, and from any session it fares
as before and writes the same. -/
theorem renaming_invariant (h : History s g ran) {input : Input} {program : List Stmt}
    (parsed : input.parsed = .ok program)
    (accepted : (Resolution.ofProgram program).2.errors = []) {ρ : Renaming}
    (declared : ρ.Declared program) (fresh : ρ.new ∉ Stmt.allNames program)
    (noKeyword : Keyword.ofWord? ρ.new = none) :
    (Resolution.ofProgram (ρ.apply program)).2.errors = [] ∧
      ∀ fuel, (s.execute fuel (ρ.apply program)).map (fun r => (r.1, r.2.machine.out)) =
        (s.execute fuel program).map fun r => (r.1, r.2.machine.out) := by
  have sound := h.settled.1.sound
  have proper := Input.proper_of_parsed parsed
  have new_ne : ρ.new ≠ Keyword.this.word := by
    intro same
    rw [same] at noKeyword
    exact absurd noKeyword (by decide)
  have old_ne : ρ.old ≠ Keyword.this.word := by
    obtain ⟨t, mem, name⟩ := declared
    rw [← name]
    exact (isName_of_variable (proper_siteAt proper ρ.scope) mem).lexeme_ne .this
  let σ : Exchange := ⟨ρ.old, ρ.new, old_ne, new_ne⟩
  have fits : ρ.Fits σ program := Renaming.fits_of_declared accepted proper declared rfl rfl
  have apart : ∀ s ∈ program, Apart σ [] s := fun _ _ mark => absurd mark Bool.false_ne_true
  have site : (siteAt program []).part = .statements program := rfl
  -- The walks over both programs go side by side, and what they make of them are twins.
  obtain ⟨walked, twins⟩ := statements_renames fits ⟨.program, .none⟩ program site fresh proper apart
    _ _ (Resolution.Relabels.empty σ)
  have accepted' : (Resolution.ofProgram (ρ.apply program)).2.errors = [] := by
    have length := walked.errors
    have none : (Resolve.statements ⟨.program, .none⟩ program .empty).2.errors = [] := accepted
    rw [none] at length
    exact List.eq_nil_of_length_eq_zero length
  refine ⟨accepted', fun fuel => ?_⟩
  -- Twins run alike from machines that are alike, and a machine is like itself.
  have sees : (Pair.double s.machine).Sees s.machine.current [] :=
    Pair.sees_double sound.current
  have ran : (Pair.double s.machine).Ends σ (fun _ _ _ => True)
      (Run.interpret (some maxCallDepth) fuel (Resolution.ofProgram program).1 s.machine)
      (Run.interpret (some maxCallDepth) fuel (Resolution.ofProgram (ρ.apply program)).1
        s.machine) := interpret_agree (Pair.like_double sound) sees twins
  unfold execute
  dsimp only [report]
  rw [accepted, accepted']
  generalize Run.interpret (some maxCallDepth) fuel (Resolution.ofProgram program).1 s.machine = o
    at ran ⊢
  generalize Run.interpret (some maxCallDepth) fuel (Resolution.ofProgram (ρ.apply program)).1
    s.machine = o' at ran ⊢
  cases ran with
  | ok p like _ _ => exact congrArg (fun out => some (Status.ok, out)) like.out
  | fail e e' p like _ => exact congrArg (fun out => some (Status.runtimeError, out)) like.out
  | starved => rfl

theorem Input.parsed_of_toOption {input : Input} {program : List Stmt}
    (h : input.parsed.toOption = some program) : input.parsed = .ok program := by
  cases parsed : input.parsed with
  | error errors => rw [parsed] at h; cases h
  | ok tree => rw [parsed] at h; exact congrArg Except.ok (Option.some.inj h)

/-- A parameter is renamed where an inner variable of its name hides it for a while. -/
theorem renaming_invariant_hidden :
    let start := Session.initial .unlimited .unlimited fun _ => 0
    let ρ : Renaming := ⟨[0, 0], "a", "k"⟩
    ∃ program, (Input.program "fun f(a){var b=a;{var a=b;print a;}print a;} f(f);").parsed =
        .ok program ∧ (Resolution.ofProgram program).2.errors = [] ∧ ρ.Declared program ∧
      ρ.new ∉ Stmt.allNames program ∧ Keyword.ofWord? ρ.new = none ∧
      (Resolution.ofProgram (ρ.apply program)).2.errors = [] ∧
      (start.execute 30 (ρ.apply program)).map (fun r => (r.1, r.2.machine.out)) =
        (start.execute 30 program).map fun r => (r.1, r.2.machine.out) := by
  intro start ρ
  let input := Input.program "fun f(a){var b=a;{var a=b;print a;}print a;} f(f);"
  have checked : input.parsed.toOption.any (fun program =>
      (Resolution.ofProgram program).2.errors.isEmpty && decide (ρ.Declared program) &&
        decide (ρ.new ∉ Stmt.allNames program)) = true := by
    decide +kernel
  obtain ⟨program, parsed, checked⟩ := (Option.any_eq_true _ _).mp checked
  have parsed := Input.parsed_of_toOption parsed
  rw [Bool.and_eq_true, Bool.and_eq_true, List.isEmpty_iff, decide_eq_true_iff,
    decide_eq_true_iff] at checked
  obtain ⟨⟨accepted, declared⟩, fresh⟩ := checked
  have noKeyword : Keyword.ofWord? ρ.new = none := by decide
  obtain ⟨accepted', same⟩ := renaming_invariant (.initial .unlimited .unlimited fun _ => 0) parsed
    accepted declared fresh noKeyword
  exact ⟨program, parsed, accepted, declared, fresh, noKeyword, accepted', same 30⟩

end Session

end LoxLang
