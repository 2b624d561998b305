import LoxLang.Proofs.Paring.Accepting
import LoxLang.Proofs.Paring.Runs
import LoxLang.Proofs.Running.Depth
/-!
A local variable that is reported unused is dead, if it is given no value but its first one. To take it
out of a program, whose first value stays as an expression, removes the warning of it and changes neither
whether the program is accepted nor how it runs (`Session.paring_invariant`). The program without the
variable takes another depth, so what is compared are the ends that the two programs come to within any depths
(`Session.EndsLike`).
-/
namespace LoxLang

/-! Two runs from one machine -/

section

variable {x : String} {m : Machine}

theorem Closure.pared_self (inner : List Bool) (f : Closure) (unmarked : ∀ b ∈ inner, b = false)
    (lt : f.scope < m.environments.size) : Closure.Pared x (Pair.double m) inner f f := by
  refine ⟨rfl, rfl, rfl, [], Pair.sees_double lt, Function.pared_self f.code ?_⟩
  rw [List.append_nil]
  exact unmarked

theorem Pair.lacks_double (sound : m.Sound) : (Pair.double m).Lacks x where
  nonempty := sound.nonempty
  globals := rfl
  size := rfl
  outer _ := rfl
  bound e y _ := option_alike_self Closure.pared_self (sound.bound e y)
  instances := rfl
  fields i y := option_alike_self Closure.pared_self (sound.fields i y)
  current := rfl
  even := ⟨rfl, rfl, rfl, rfl, rfl⟩

end

def Part.assigned? : Part → Option String
  | .expression (.assign name _ _) => some name.lexeme
  | _ => none

namespace Session

variable {ran : List (List Stmt)} {s : Session} {g : Log}

/-- Two programs come to ends that look the same: they fared alike, wrote the same, and reported the same
behind their warnings. -/
structure EndsLike (s : Session) (program program' : List Stmt) (r r' : Status × Session) : Prop where
  status : r'.1 = r.1
  out : r'.2.machine.out = r.2.machine.out
  reports : ∃ texts : List String,
    r.2.reports = (s.reports.reportAll
      ((Resolution.ofProgram program).2.warnings.map Warning.text)).reportAll texts ∧
    r'.2.reports = (s.reports.reportAll
      ((Resolution.ofProgram program').2.warnings.map Warning.text)).reportAll texts

/-- Within any two depths a program ends alike with the variable and without it, unless one of the two
depths is too small. -/
theorem execute_accord (h : History s g ran) {x : String} (ne_this : x ≠ Keyword.this.word)
    {program program' : List Stmt}
    (pared : Stmt.AllPared x [] true (Resolution.ofProgram program).1
      (Resolution.ofProgram program').1)
    (accepted : (Resolution.ofProgram program).2.errors = [])
    (accepted' : (Resolution.ofProgram program').2.errors = []) (n k : Nat) :
    Option.Rel (s.EndsLike program program') (s.execute n program) (s.execute k program') ∨
      (n < 2 * k + 3 ∧ s.execute n program = none) ∨ (k < room n ∧ s.execute k program' = none) := by
  have sound := h.settled.1.sound
  have sees : (Pair.double s.machine).Sees s.machine.current [] :=
    Pair.sees_double sound.current
  have ran : (paring x).Ends (.between 3 n k) (Pair.double s.machine) (fun _ _ _ => True)
      (Run.interpret (some maxCallDepth) n (Resolution.ofProgram program).1 s.machine)
      (Run.interpret (some maxCallDepth) k (Resolution.ofProgram program').1 s.machine) :=
    interpret_accord ne_this (Pair.lacks_double sound) sees pared
  unfold execute
  dsimp only [report]
  rw [accepted, accepted']
  generalize Run.interpret (some maxCallDepth) n (Resolution.ofProgram program).1 s.machine = o
    at ran ⊢
  generalize Run.interpret (some maxCallDepth) k (Resolution.ofProgram program').1 s.machine = o'
    at ran ⊢
  cases ran with
  | ok p like _ _ => exact .inl (.some ⟨rfl, like.even.out, [], rfl, rfl⟩)
  | fail e p like _ => exact .inl (.some ⟨rfl, like.even.out, [e.text], rfl, rfl⟩)
  | starved => exact .inl .none
  | early may => exact .inr (.inl ⟨may, rfl⟩)
  | late may => exact .inr (.inr ⟨may, rfl⟩)

/-- Let a variable of a block or function, in a program that is accepted, be reported unused, and let no
name belong to it that is given a value. Let its declarator be replaced by its first value (`Stmt.without`).
Then the program is accepted with the same warnings but for that of the variable, and from any session both
programs come to ends that look the same, or to none. -/
theorem paring_invariant (h : History s g ran) {input : Input} {program : List Stmt}
    (parsed : input.parsed = .ok program)
    (accepted : (Resolution.ofProgram program).2.errors = []) {v : Surplus} {line : Nat}
    (scope : v.scope ∈ Stmt.closingsAll program)
    (unused : v.warning line ∈ unusedAt program v.scope)
    (unassigned : ∀ way ∈ Stmt.placesAll program, ∀ name value depth,
      partAt program way = .expression (.assign name value depth) → name.lexeme = v.name →
        resolvesTo program way v.name ≠ some v.scope) :
    (∃ ss, (partAt program v.scope).scoped? = some ss ∧
      (partAt (v.apply program) v.scope).scoped? = some (ss.flatMap (Stmt.without v.name))) ∧
      (Resolution.ofProgram (v.apply program)).2.errors = [] ∧
      (∃ before after,
        (Resolution.ofProgram program).2.warnings = before ++ v.warning line :: after ∧
        (Resolution.ofProgram (v.apply program)).2.warnings = before ++ after) ∧
      (∀ fuel r, s.execute fuel program = some r → ∃ fuel' r',
        s.execute fuel' (v.apply program) = some r' ∧ s.EndsLike program (v.apply program) r r') ∧
      ∀ fuel r', s.execute fuel (v.apply program) = some r' → ∃ fuel' r,
        s.execute fuel' program = some r ∧ s.EndsLike program (v.apply program) r r' := by
  have given := Surplus.given accepted (Input.proper_of_parsed parsed) unused unassigned
  obtain ⟨pared, errors, warnings⟩ := Surplus.ofProgram_pares given scope
  have accepted' := errors.trans accepted
  have ends := execute_accord h given.ne_this pared accepted accepted'
  refine ⟨Surplus.body_apply scope unused, accepted', warnings, fun n r ran => ?_,
    fun k r' ran' => ?_⟩
  -- The other program is run at a depth that cannot be too small, so it does not end for want of depth.
  · rcases ends n (room n) with alike | ⟨_, none⟩ | ⟨less, _⟩
    · rw [ran] at alike
      generalize ran' : s.execute (room n) (v.apply program) = o' at alike
      cases alike with
      | some alike => exact ⟨_, _, ran', alike⟩
    · rw [ran] at none
      cases none
    · exact absurd less (Nat.lt_irrefl _)
  · rcases ends (2 * k + 3) k with alike | ⟨less, _⟩ | ⟨_, none⟩
    · rw [ran'] at alike
      generalize ran : s.execute (2 * k + 3) program = o at alike
      cases alike with
      | some alike => exact ⟨_, _, ran, alike⟩
    · exact absurd less (Nat.lt_irrefl _)
    · rw [ran'] at none
      cases none

/-- The second of three variables that one statement declares is taken out, while a loop in its scope has
a variable of its name, which is read and given a value, and a function that sees its scope is returned.
After a call of that function the program fails. -/
theorem paring_invariant_divided :
    let start := Session.initial .unlimited .unlimited fun _ => 0
    let source := "fun f(n){var a=n,b=f,c;while(a){var b=a;b=f;print b;a=nil;}return lambda(){return a;};}"
      ++ "print f(f)();nil();"
    let v : Surplus := ⟨[0, 0], "b"⟩
    ∃ program, (Input.program source).parsed = .ok program ∧
      (Resolution.ofProgram program).2.errors = [] ∧ v.scope ∈ Stmt.closingsAll program ∧
      v.warning 1 ∈ unusedAt program v.scope ∧
      (∀ way ∈ Stmt.placesAll program, ∀ name value depth,
        partAt program way = .expression (.assign name value depth) → name.lexeme = v.name →
          resolvesTo program way v.name ≠ some v.scope) ∧
      (Resolution.ofProgram (v.apply program)).2.warnings.map (·.name) = ["c"] ∧
      ∃ fuel r, start.execute fuel (v.apply program) = some r ∧ r.1 = .runtimeError ∧
        r.2.machine.out.text = "<fn f>\nnil\n" := by
  intro start source v
  let input := Input.program source
  have checked : input.parsed.toOption.any (fun program =>
      (Resolution.ofProgram program).2.errors.isEmpty &&
        decide (v.scope ∈ Stmt.closingsAll program) &&
        decide (v.warning 1 ∈ unusedAt program v.scope) &&
        (Stmt.placesAll program).all (fun way =>
          (partAt program way).assigned? != some v.name ||
            decide (resolvesTo program way v.name ≠ some v.scope)) &&
        (Resolution.ofProgram program).2.warnings.map (·.name) == ["b", "c"] &&
        (start.execute 60 program).any (fun r =>
          r.1 = .runtimeError ∧ r.2.machine.out.text = "<fn f>\nnil\n")) = true := by
    decide +kernel
  obtain ⟨program, parsed, checked⟩ := (Option.any_eq_true _ _).mp checked
  have parsed := Input.parsed_of_toOption parsed
  simp only [Bool.and_eq_true, List.isEmpty_iff, decide_eq_true_iff] at checked
  obtain ⟨⟨⟨⟨⟨accepted, scope⟩, unused⟩, apart⟩, names⟩, fails⟩ := checked
  have unassigned : ∀ way ∈ Stmt.placesAll program, ∀ name value depth,
      partAt program way = .expression (.assign name value depth) → name.lexeme = v.name →
        resolvesTo program way v.name ≠ some v.scope := by
    intro way mem name value depth part same
    have apart := List.all_eq_true.mp apart way mem
    rw [part] at apart
    simpa [Part.assigned?, same] using apart
  obtain ⟨_, _, ⟨before, after, warnings, warnings'⟩, ends, _⟩ := paring_invariant
    (.initial .unlimited .unlimited fun _ => 0) parsed accepted scope unused unassigned
  have others : (before ++ after).map (·.name) = ["c"] := by
    have names := eq_of_beq names
    rw [warnings] at names
    rcases before with _ | ⟨_, _ | ⟨_, _⟩⟩ <;> simp_all [Surplus.warning, v]
  obtain ⟨r, ran, fails⟩ := (Option.any_eq_true _ _).mp fails
  obtain ⟨status, out⟩ := of_decide_eq_true fails
  obtain ⟨fuel, r', ran', alike⟩ := ends 60 r ran
  exact ⟨program, parsed, accepted, scope, unused, unassigned, warnings' ▸ others, fuel, r', ran',
    alike.status.trans status, alike.out ▸ out⟩

end Session

end LoxLang
