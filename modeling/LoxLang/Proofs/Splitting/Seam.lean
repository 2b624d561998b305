import LoxLang.Proofs.Running.Depth
import LoxLang.Proofs.Running.StaticErrors
import LoxLang.Proofs.Splitting.Parsing
import LoxLang.Proofs.Splitting.Resolving
import LoxLang.Proofs.Splitting.Running
/-!
Two programs one after the other, and as one. Where a session runs a program and then another one, it
could as well have run both as one text with a line break between them; only the tokens of the second
one then stand on later lines.

Which tokens of a machine come from the second program is told by marks. Before its run all lines that
the machine knows are marked as earlier ones (`Seam.earlier`) and those of the program as later ones
(`Seam.later`); a run does not look at lines, so whatever it leaves behind has the mark of where it comes
from. Taking the marks off again gives the run as it is by itself (`Seam.apart`), or as it is behind the
first program (`Seam.joined`).

What is proved, for each session: the second step comes to one marked result without its marks, and the
one text to the same result with the lines of the second program moved (`Session.split_source`). It is
assumed of neither source that it leaves the clock alone, and of no sink that it takes everything.
-/
namespace LoxLang

/-! Marks -/

namespace Seam

/-- The line of a token that was there before. -/
def earlier (line : Nat) : Nat := 2 * line

/-- The line of a token of the second program. -/
def later (line : Nat) : Nat := 2 * line + 1

def apart (line : Nat) : Nat := line / 2

/-- The lines without their marks, those of the second program `k` lines down. -/
def joined (k line : Nat) : Nat := if line % 2 = 1 then line / 2 + k else line / 2

theorem apart_earlier : apart ∘ earlier = id := by
  funext line
  show 2 * line / 2 = line
  omega

theorem apart_later : apart ∘ later = id := by
  funext line
  show (2 * line + 1) / 2 = line
  omega

theorem joined_earlier (k : Nat) : joined k ∘ earlier = id := by
  funext line
  show (if 2 * line % 2 = 1 then 2 * line / 2 + k else 2 * line / 2) = line
  rw [if_neg (by omega)]
  omega

theorem joined_later (k : Nat) : joined k ∘ later = (· + k) := by
  funext line
  show (if (2 * line + 1) % 2 = 1 then (2 * line + 1) / 2 + k else (2 * line + 1) / 2) = line + k
  rw [if_pos (by omega)]
  omega

end Seam

namespace Session

/-! Steps of a session -/

/-- The scan, the parser and the walk over the names find no fault in the source, which is that of the
program. -/
structure Faultless (source : String) (program : List Stmt) : Prop where
  scanned : (Scan.ofSource source).errors = []
  parsed : Stmt.programOfTokens (Scan.ofSource source).tokens = .ok program
  resolved : (Resolution.ofProgram program).2.errors = []

def faultless (source : String) : Bool :=
  let scan := Scan.ofSource source
  scan.errors.isEmpty &&
    match Stmt.programOfTokens scan.tokens with
    | .ok program => (Resolution.ofProgram program).2.errors.isEmpty
    | .error _ => false

theorem faultless_iff {source : String} :
    faultless source = true ↔ ∃ program, Faultless source program := by
  constructor
  · intro h
    unfold faultless at h
    simp only [Bool.and_eq_true, List.isEmpty_iff] at h
    obtain ⟨scanned, checked⟩ := h
    split at checked
    · rename_i program parsed
      exact ⟨program, scanned, parsed, List.isEmpty_iff.mp checked⟩
    · cases checked
  · rintro ⟨program, scanned, parsed, resolved⟩
    unfold faultless
    simp only [scanned, parsed, resolved]
    rfl

/-- What a step of a session comes to: how it fared, the machine it leaves, and what is reported, first
the warnings and then the failure. -/
structure Step where
  status : Status
  machine : Machine
  warnings : List Warning
  failure : Option Failure

/-- The step that runs a program without faults. -/
def step (fuel : Nat) (program : List Stmt) (m : Machine) : Option Step :=
  let (program, found) := Resolution.ofProgram program
  match Run.interpret (some maxCallDepth) fuel program m with
  | .ok _ m => some ⟨.ok, m, found.warnings, none⟩
  | .fail e m => some ⟨.runtimeError, m, found.warnings, some e⟩
  | .starved => none

namespace Step

def texts (r : Step) : List String :=
  r.warnings.map Warning.text ++ r.failure.toList.map Failure.text

def relocate (f : Nat → Nat) (r : Step) : Step where
  status := r.status
  machine := r.machine.relocate f
  warnings := r.warnings.map (·.relocate f)
  failure := r.failure.map (·.relocate f)

/-- The session behind the step, whose reports come behind those of before. -/
def behind (reports : Sink) (r : Step) : Status × Session :=
  (r.status, ⟨r.machine, reports.reportAll r.texts⟩)

theorem out_relocate (f : Nat → Nat) (reports : Sink) (r : Step) :
    ((r.relocate f).behind reports).2.machine.out = r.machine.out := rfl

end Step

variable {f : Nat → Nat} {fuel : Nat} {s : Session} {source first second : String}
  {program p q : List Stmt}

theorem Faultless.run (h : Faultless source program) :
    s.run fuel source = (step fuel program s.machine).map (Step.behind s.reports) := by
  have clean : (Resolution.ofProgram program).2.errors.isEmpty = true := by simp [h.resolved]
  unfold Session.run finish execute step
  simp only [h.scanned, h.parsed, clean, List.map_nil, List.isEmpty_nil, if_true]
  show (match Run.interpret (some maxCallDepth) fuel (Resolution.ofProgram program).1 s.machine with
    | .ok _ m => _
    | .fail e m => _
    | .starved => _) = _
  cases Run.interpret (some maxCallDepth) fuel (Resolution.ofProgram program).1 s.machine with
  | ok a m =>
    simp only [Option.map_some, Step.behind, Step.texts, Option.toList_none, List.map_nil,
      List.append_nil]
    rfl
  | fail e m =>
    simp only [Option.map_some, Step.behind, Step.texts, Option.toList_some, List.map_cons,
      List.map_nil, Sink.reportAll_append]
    rfl
  | starved => rfl

/-- A program on other lines comes to the same step on other lines. -/
theorem step_relocate (f : Nat → Nat) (fuel : Nat) (program : List Stmt) (m : Machine) :
    step fuel (Stmt.relocateAll f program) (m.relocate f) =
      (step fuel program m).map (Step.relocate f) := by
  unfold step
  rw [Resolution.ofProgram_relocate]
  dsimp only
  rw [Run.interpret_moves]
  cases Run.interpret (some maxCallDepth) fuel (Resolution.ofProgram program).1 m <;> rfl

theorem step_ok {m : Machine} {r : Step} (h : step fuel program m = some r)
    (ok : r.status = .ok) :
    Run.executeProgram (some maxCallDepth) fuel (Resolution.ofProgram program).1 m =
        .ok () r.machine ∧
      r.texts = (Resolution.ofProgram program).2.warnings.map Warning.text := by
  unfold step at h
  dsimp only at h
  split at h
  · rename_i ran
    cases h
    exact ⟨Run.interpret_ok ran, List.append_nil _⟩
  · cases h
    cases ok
  · cases h

/-- A program behind one that ended well goes on where that one stopped. -/
theorem step_append {m : Machine} {r : Step} (h : step fuel p m = some r) (ok : r.status = .ok) :
    step fuel (p ++ Stmt.relocateAll f q) m =
      (step fuel (Stmt.relocateAll f q) r.machine).map fun r' =>
        { r' with warnings := (Resolution.ofProgram p).2.warnings ++ r'.warnings } := by
  unfold step
  -- The names of the one program are found as those of both, and their warnings come first.
  rw [Resolution.ofProgram_append, Resolution.ofProgram_relocate]
  dsimp only
  rw [Run.interpret_append (step_ok h ok).1]
  cases Run.interpret (some maxCallDepth) fuel (Stmt.relocateAll f (Resolution.ofProgram q).1)
    r.machine <;> rfl

/-- Two sources without faults are one without faults. -/
theorem Faultless.append (h : Faultless first p) (h' : Faultless second q) :
    Faultless (first ++ "\n" ++ second)
      (p ++ Stmt.relocateAll (· + (Token.lineBreaks first.toList + 1)) q) where
  scanned := Scan.errors_append_break h.scanned h'.scanned
  parsed := by
    refine Stmt.programOfTokens_append h.parsed h'.parsed ?_
    simp only [Scan.untilEof_ofSource, Scan.words_append_break h.scanned]
  resolved := by
    rw [Resolution.ofProgram_append, Resolution.placed, h.resolved, h'.resolved]
    rfl

/-- The step of a program with its tokens marked. -/
def markedStep (fuel : Nat) (program : List Stmt) (m : Machine) : Option Step :=
  step fuel (Stmt.relocateAll Seam.later program) (m.relocate Seam.earlier)

theorem markedStep_relocate (f : Nat → Nat) (fuel : Nat) (program : List Stmt) (m : Machine)
    (same : f ∘ Seam.earlier = id) : (markedStep fuel program m).map (Step.relocate f) =
      step fuel (Stmt.relocateAll (f ∘ Seam.later) program) m := by
  rw [markedStep, ← step_relocate, Stmt.relocateAll_relocateAll, Machine.relocate_relocate, same,
    Machine.relocate_id]

theorem markedStep_apart (fuel : Nat) (program : List Stmt) (m : Machine) :
    (markedStep fuel program m).map (Step.relocate Seam.apart) = step fuel program m := by
  rw [markedStep_relocate _ _ _ _ Seam.apart_earlier, Seam.apart_later, Stmt.relocateAll_id]

theorem markedStep_joined (k fuel : Nat) (program : List Stmt) (m : Machine) :
    (markedStep fuel program m).map (Step.relocate (Seam.joined k)) =
      step fuel (Stmt.relocateAll (· + k) program) m := by
  rw [markedStep_relocate _ _ _ _ (Seam.joined_earlier k), Seam.joined_later]

/-- The one text of two sources, the first of which ended well. -/
theorem Faultless.run_append (h : Faultless first p) (h' : Faultless second q) {s₁ : Session}
    (ran : s.run fuel first = some (.ok, s₁)) :
    s.run fuel (first ++ "\n" ++ second) =
      (step fuel (Stmt.relocateAll (· + (Token.lineBreaks first.toList + 1)) q) s₁.machine).map
        (Step.behind s₁.reports) := by
  rw [h.run] at ran
  obtain ⟨r, ended, same⟩ := Option.map_eq_some_iff.mp ran
  simp only [Step.behind, Prod.mk.injEq] at same
  obtain ⟨ok, rfl⟩ := same
  rw [(h.append h').run, step_append ended ok, Option.map_map, (step_ok ended ok).2]
  refine congrArg (Option.map · _) (funext fun r' => ?_)
  simp only [Function.comp_apply, Step.behind, Step.texts, List.map_append, List.append_assoc,
    Sink.reportAll_append]

/-- A source split in two. Behind a first source that ended well, a second one comes to a marked step
without its marks, and the one text of both to the same step with the lines of the second program moved
by the lines of the first; or neither ends. So they end alike, with the same output, the same reports
up to lines, and the same machine up to lines. Nothing is asked of the clock, which is read as often
either way, and nothing of the sinks. -/
theorem split_source (h : Faultless first p) (h' : Faultless second q) {s₁ : Session}
    (ran : s.run fuel first = some (.ok, s₁)) {fuel' : Nat} (le : fuel ≤ fuel') :
    let down := Token.lineBreaks first.toList + 1
    let marked := markedStep fuel' q s₁.machine
    Faultless (first ++ "\n" ++ second) (p ++ Stmt.relocateAll (· + down) q) ∧
    s₁.run fuel' second = marked.map (fun r => (r.relocate Seam.apart).behind s₁.reports) ∧
    s.run fuel' (first ++ "\n" ++ second) =
      marked.map (fun r => (r.relocate (Seam.joined down)).behind s₁.reports) ∧
    ∀ status s₂, s₁.run fuel' second = some (status, s₂) →
      ∃ s₂', s.run fuel' (first ++ "\n" ++ second) = some (status, s₂') ∧
        s₂'.machine.out = s₂.machine.out := by
  intro down marked
  -- Both runs are the marked one without its marks, which are taken off in two ways.
  have alone : s₁.run fuel' second =
      marked.map (fun r => (r.relocate Seam.apart).behind s₁.reports) := by
    rw [h'.run, ← markedStep_apart, Option.map_map]
    rfl
  have together : s.run fuel' (first ++ "\n" ++ second) =
      marked.map (fun r => (r.relocate (Seam.joined down)).behind s₁.reports) := by
    rw [h.run_append h' (run_deepens le ran), ← markedStep_joined, Option.map_map]
    rfl
  refine ⟨h.append h', alone, together, fun status s₂ ended => ?_⟩
  rw [alone] at ended
  obtain ⟨r, marks, same⟩ := Option.map_eq_some_iff.mp ended
  refine ⟨((r.relocate (Seam.joined down)).behind s₁.reports).2, ?_, ?_⟩
  · have fared : r.status = status := congrArg Prod.fst same
    rw [together, marks, Option.map_some, ← fared]
    rfl
  · have here : s₂ = ((r.relocate Seam.apart).behind s₁.reports).2 := (congrArg Prod.snd same).symm
    rw [here, Step.out_relocate, Step.out_relocate]

/-- A function on three lines, and two lines behind it that call it and then something that is no
function: the second line fails, which as one text is the fifth. -/
theorem split_source_failing :
    let first := "fun f() \x7b\n  return true;\n\x7d"
    let second := "print f();\nnil();"
    let start := Session.initial .unlimited .unlimited fun _ => 0
    ∃ p q s₁, Faultless first p ∧ Faultless second q ∧ start.run 20 first = some (.ok, s₁) ∧
      s₁.run 30 second = (markedStep 30 q s₁.machine).map
        (fun r => (r.relocate Seam.apart).behind s₁.reports) ∧
      start.run 30 (first ++ "\n" ++ second) = (markedStep 30 q s₁.machine).map
        (fun r => (r.relocate (Seam.joined 3)).behind s₁.reports) ∧
      (start.run 30 (first ++ "\n" ++ second)).any (fun r =>
        r.1 = .runtimeError ∧ r.2.machine.out.text = "true\n") = true := by
  intro first second start
  obtain ⟨p, h⟩ := faultless_iff.mp (by decide +kernel : faultless first = true)
  obtain ⟨q, h'⟩ := faultless_iff.mp (by decide +kernel : faultless second = true)
  have ends : (start.run 20 first).any (fun r => r.1 = .ok) = true := by decide +kernel
  obtain ⟨⟨status, s₁⟩, ran, ok⟩ := (Option.any_eq_true _ _).mp ends
  cases of_decide_eq_true ok
  have split := split_source h h' ran (by decide : 20 ≤ 30)
  have down : Token.lineBreaks first.toList + 1 = 3 := by decide +kernel
  rw [down] at split
  exact ⟨p, q, s₁, h, h', ran, split.2.1, split.2.2.1, by decide +kernel⟩

end Session

end LoxLang
