import LoxLang.Proofs.Nesting.Doubles
import LoxLang.Proofs.Nesting.Placing
import LoxLang.Proofs.Nesting.Runs
import LoxLang.Proofs.Nesting.Walking
import LoxLang.Proofs.Renaming.Invariance
import LoxLang.Proofs.Running.Depth
/-!
Blocks around single statements do not matter. To put statements that are no declarations into blocks
of their own changes neither whether a program is accepted and what is reported about it, nor how it
runs (`Session.enclosing_invariant`). A run with the blocks takes more depth, up to three times as
much, so what is compared is what a program comes to within any depth (`Session.Shows`).
-/
namespace LoxLang

namespace Session

variable {ran : List (List Stmt)} {s : Session} {g : Log}

/-- What can be seen of a session that ran a program: how the program fared, what was written, and
what was reported. -/
def seen (r : Status × Session) : Status × Sink × Sink := (r.1, r.2.machine.out, r.2.reports)

/-- A program that is run comes to an end, at which this is seen. -/
def Shows (s : Session) (program : List Stmt) (sight : Status × Sink × Sink) : Prop :=
  ∃ fuel r, s.execute fuel program = some r ∧ seen r = sight

/-- There is one end at most that a program comes to. -/
theorem Shows.unique {program : List Stmt} {sight sight' : Status × Sink × Sink}
    (h : s.Shows program sight) (h' : s.Shows program sight') : sight = sight' := by
  obtain ⟨n, r, ran, rfl⟩ := h
  obtain ⟨k, r', ran', rfl⟩ := h'
  have deeper := execute_deepens (Nat.le_max_left n k) ran
  have deeper' := execute_deepens (Nat.le_max_right n k) ran'
  rw [deeper] at deeper'
  rw [Option.some.inj deeper']

/-- Within any two depths a program shows the same with the blocks and without them, unless one of
the two depths is too small. -/
theorem execute_concur {program program' : List Stmt} {n k : Nat}
    (h : History s g ran)
    (nested : Stmt.AllNested [] (Resolution.ofProgram program).1 (Resolution.ofProgram program').1)
    (accepted : (Resolution.ofProgram program).2.errors = [])
    (accepted' : (Resolution.ofProgram program').2.errors = [])
    (warnings : (Resolution.ofProgram program').2.warnings =
      (Resolution.ofProgram program).2.warnings) :
    (s.execute k program').map seen = (s.execute n program).map seen ∨
      (n < k ∧ s.execute n program = none) ∨ (k < 3 * n ∧ s.execute k program' = none) := by
  have sound := h.settled.1.sound
  have stands : (Nesting.double s.machine).Stands [] := Nesting.sees_double sound.current .nil
  have ran : (Nesting.double s.machine).Ends (.of n k) (fun _ _ _ => True)
      (Run.interpret (some maxCallDepth) n (Resolution.ofProgram program).1 s.machine)
      (Run.interpret (some maxCallDepth) k (Resolution.ofProgram program').1 s.machine) :=
    interpret_concur (Nesting.like_double sound) stands nested
  unfold execute
  dsimp only [report]
  rw [accepted, accepted', warnings]
  generalize Run.interpret (some maxCallDepth) n (Resolution.ofProgram program).1 s.machine = o
    at ran ⊢
  generalize Run.interpret (some maxCallDepth) k (Resolution.ofProgram program').1 s.machine = o'
    at ran ⊢
  cases ran with
  | ok p like _ _ =>
    exact .inl (congrArg (fun out => some (Status.ok, out, s.reports.reportAll _)) like.out)
  | fail e p like _ =>
    exact .inl (congrArg
      (fun out => some (Status.runtimeError, out, (s.reports.reportAll _).reportAll [e.text]))
      like.out)
  | starved => exact .inl rfl
  | early may => exact .inr (.inl ⟨may, rfl⟩)
  | late may => exact .inr (.inr ⟨may, rfl⟩)

/-- Let statements of a program that is accepted, other than declarations, be put into blocks of
their own, any number of them. Then the program is accepted with the same warnings, and from any
session it shows the same. -/
theorem wrapping_invariant (h : History s g ran) {program : List Stmt}
    (proper : Stmt.AllProper program) (accepted : (Resolution.ofProgram program).2.errors = [])
    (chosen : List Nat → Bool) :
    (Resolution.ofProgram (Stmt.wrapAll chosen [] program)).2.errors = [] ∧
      (Resolution.ofProgram (Stmt.wrapAll chosen [] program)).2.warnings =
        (Resolution.ofProgram program).2.warnings ∧
      ∀ sight, s.Shows (Stmt.wrapAll chosen [] program) sight ↔ s.Shows program sight := by
  obtain ⟨nested, errors, warnings⟩ := ofProgram_nests chosen proper
  have accepted' := errors.trans accepted
  refine ⟨accepted', warnings, fun sight => ⟨?_, ?_⟩⟩
  · -- What ends with the blocks ends without them within the same depth.
    rintro ⟨k, r', ran', same'⟩
    rcases execute_concur (n := k) (k := k) h nested accepted accepted' warnings with
      shown | ⟨less, _⟩ | ⟨_, none⟩
    · rw [ran', Option.map_some] at shown
      obtain ⟨r, ran, same⟩ := Option.map_eq_some_iff.mp shown.symm
      exact ⟨k, r, ran, same.trans same'⟩
    · exact absurd less (Nat.lt_irrefl k)
    · rw [ran'] at none
      cases none
  · rintro ⟨n, r, ran, same⟩
    rcases execute_concur (n := n) (k := 3 * n) h nested accepted accepted' warnings with
      shown | ⟨_, none⟩ | ⟨less, _⟩
    · rw [ran, Option.map_some] at shown
      obtain ⟨r', ran', same'⟩ := Option.map_eq_some_iff.mp shown
      exact ⟨3 * n, r', ran', same'.trans same⟩
    · rw [ran] at none
      cases none
    · exact absurd less (Nat.lt_irrefl (3 * n))

/-- Let a statement of a program that is accepted, other than a declaration, be put into a block of
its own, wherever it stands. Then the program is accepted with the same warnings, and from any session
it comes to the same end, or to none as before, writes the same and is reported on alike. -/
theorem enclosing_invariant (h : History s g ran) {input : Input} {program : List Stmt}
    (parsed : input.parsed = .ok program)
    (accepted : (Resolution.ofProgram program).2.errors = []) {way : List Nat} {inner : Stmt}
    (place : way ∈ (Part.statements program).places)
    (there : partAt program way = .statement inner) (plain : inner.isDeclaration = false) :
    partAt (Stmt.encloseAt way program) way = .statement (.block [inner]) ∧
      (Resolution.ofProgram (Stmt.encloseAt way program)).2.errors = [] ∧
      (Resolution.ofProgram (Stmt.encloseAt way program)).2.warnings =
        (Resolution.ofProgram program).2.warnings ∧
      ∀ sight, s.Shows (Stmt.encloseAt way program) sight ↔ s.Shows program sight :=
  ⟨partAt_encloseAt place there plain,
    wrapping_invariant h (Input.proper_of_parsed parsed) accepted (· == way)⟩

/-- What a loop returns from the body of a function gets a block. It is a function that gives the
parameter around it another value; after two calls of it the program fails. -/
theorem enclosing_invariant_captured :
    let start := Session.initial .unlimited .unlimited fun _ => 0
    let source := "fun keep(k){while(true)return lambda(d){k=d;return k;};} " ++
      "var f=keep(nil); print f(keep); print f(nil); nil();"
    let way := [1, 0, 0, 0, 0]
    ∃ program inner, (Input.program source).parsed = .ok program ∧
      (Resolution.ofProgram program).2.errors = [] ∧ way ∈ (Part.statements program).places ∧
      partAt program way = .statement inner ∧ inner.isDeclaration = false ∧
      partAt (Stmt.encloseAt way program) way = .statement (.block [inner]) ∧
      (Resolution.ofProgram (Stmt.encloseAt way program)).2.errors = [] ∧
      (Resolution.ofProgram (Stmt.encloseAt way program)).2.warnings =
        (Resolution.ofProgram program).2.warnings ∧
      (∀ sight, start.Shows (Stmt.encloseAt way program) sight ↔ start.Shows program sight) ∧
      (start.execute 40 program).any (fun r =>
        r.1 = .runtimeError ∧ r.2.machine.out.text = "<fn keep>\nnil\n") = true := by
  intro start source way
  let input := Input.program source
  have checked : input.parsed.toOption.any (fun program =>
      (Resolution.ofProgram program).2.errors.isEmpty &&
        decide (way ∈ (Part.statements program).places) &&
        (match partAt program way with
          | .statement inner => !inner.isDeclaration
          | _ => false) &&
        (start.execute 40 program).any (fun r =>
          r.1 = .runtimeError ∧ r.2.machine.out.text = "<fn keep>\nnil\n")) = true := by
    decide +kernel
  obtain ⟨program, parsed, checked⟩ := (Option.any_eq_true _ _).mp checked
  have parsed := Input.parsed_of_toOption parsed
  rw [Bool.and_eq_true, Bool.and_eq_true, Bool.and_eq_true, List.isEmpty_iff,
    decide_eq_true_iff] at checked
  obtain ⟨⟨⟨accepted, place⟩, statement⟩, fails⟩ := checked
  cases there : partAt program way with
  | statement inner =>
    rw [there] at statement
    have plain : inner.isDeclaration = false := by simpa using statement
    obtain ⟨enclosed, accepted', warnings, same⟩ := enclosing_invariant
      (.initial .unlimited .unlimited fun _ => 0) parsed accepted place there plain
    exact ⟨program, inner, parsed, accepted, place, there, plain, enclosed, accepted', warnings,
      same, fails⟩
  | _ =>
    rw [there] at statement
    cases statement

end Session

end LoxLang
