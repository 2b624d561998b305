import LoxLang.Proofs.Receivers.Moments
import LoxLang.Proofs.Resolution.Naming
/-!
The states of a session are in one line. Each program starts in the state in which the one before it
ended, and what the parser makes names nothing `this`.

What is proved: whatever was run before, the states that a session comes by are in one line, and the
machine between two steps comes after them (`Session.History.lined`, `Session.Input.continues`).
-/
namespace LoxLang

variable {limit : Option Nat} {n : Nat} {m m' : Machine}

/-! Programs -/

namespace Run

theorem executeProgram_keeps (limit : Option Nat) (n : Nat) : ∀ {ss : List Stmt} {m : Machine},
    m.Faithful → Keyword.this.word ∉ Stmt.allNames ss →
      Keeps m (executeProgram limit n ss) fun _ _ => True
  | [], _, h, _ => .pure h trivial
  | s :: ss, m, h, clean => by
    rw [Stmt.allNames, List.mem_append, not_or] at clean
    apply ((keepsAll limit n).execute s h clean.1).bind
    intro flow m₁ h₁ _ _
    exact executeProgram_keeps limit n h₁ clean.2

theorem state?_flush (m : Machine) : (flush m).state? = some m := by
  unfold flush
  split <;> rfl

theorem state?_interpret (limit : Option Nat) (n : Nat) (ss : List Stmt) (m : Machine) :
    (interpret limit n ss m).state? = (executeProgram limit n ss m).state? := by
  unfold interpret
  cases executeProgram limit n ss m with
  | ok a m₁ => exact state?_flush m₁
  | fail e m₁ =>
    have flushed := state?_flush m₁
    dsimp only
    cases flush : flush m₁ with
    | ok b m₂ =>
      rw [flush] at flushed
      exact flushed
    | fail f m₂ =>
      rw [flush] at flushed
      exact flushed
    | starved =>
      rw [flush] at flushed
      cases flushed
  | starved => rfl

end Run

theorem Watched.log_interpret (limit : Option Nat) (n : Nat) (p : Site) (ss : List Stmt) (g : Log)
    (m : Machine) : (interpret limit n p ss g m).2 = (executeProgram limit n p ss g m).2 := by
  unfold interpret
  rcases executeProgram limit n p ss g m with ⟨_ | ⟨e, m₁⟩ | _, g₁⟩
  · rfl
  · dsimp only
    cases Run.flush m₁ <;> rfl
  · rfl

namespace InLine

theorem executeProgram (limit : Option Nat) (n : Nat) : ∀ (p : Site) {ss : List Stmt} {m : Machine},
    m.Faithful → Keyword.this.word ∉ Stmt.allNames ss →
      InLine limit m (Watched.executeProgram limit n p ss) fun k => Run.executeProgram limit k ss
  | _, [], _, _, _ => .pure ()
  | p, s :: ss, m, h, clean => by
    rw [Stmt.allNames, List.mem_append, not_or] at clean
    apply ((inLineAll limit n).execute _ s h clean.1).andThen fun k =>
      (Run.keepsAll limit k).execute s h clean.1
    intro flow m₁ h₁ _ _
    exact executeProgram limit n (p.child 1) h₁ clean.2

theorem interpret (limit : Option Nat) (n : Nat) (p : Site) {ss : List Stmt} (h : m.Faithful)
    (clean : Keyword.this.word ∉ Stmt.allNames ss) :
    InLine limit m (Watched.interpret limit n p ss) fun k => Run.interpret limit k ss := by
  have line := executeProgram limit n p h clean
  have marks (g : Log) := Watched.log_interpret limit n p ss g m
  have notes {g : Log} {new : List Mark} (notes : (Watched.interpret limit n p ss).Notes g m new) :
      (Watched.executeProgram limit n p ss).Notes g m new := by
    unfold Watched.Notes at *
    rwa [marks] at notes
  refine ⟨fun i k le => Run.interpret_deepens limit le ss m, fun g a _ => ⟨n, ?_⟩,
    fun k m' ended => ?_, fun g => ?_, fun g new noted => line.line g new (notes noted),
    fun g new noted => line.above g new (notes noted), fun g new noted a passes k m' ended => ?_⟩
  · exact (Watched.erases_interpret limit n p ss g m).symm
  · exact line.forward k m' ((Run.state?_interpret limit k ss m).symm.trans ended)
  · obtain ⟨new, noted⟩ := line.exists_notes g
    exact ⟨new, (congrArg Log.marks (marks g)).trans noted⟩
  · exact line.below g new (notes noted) a passes k m'
      ((Run.state?_interpret limit k ss m).symm.trans ended)

end InLine

namespace Session

variable {s s' : Session} {g g' : Log} {ran : List (List Stmt)}

/-- A session whose machine is faithful and comes after all that was noted. -/
structure Lined (s : Session) (g : Log) : Prop where
  faithful : s.machine.Faithful
  line : Timeline (some maxCallDepth) g.marks
  before : ∀ a, Passes (some maxCallDepth) g.marks a → a.Before s.machine

/-- What was watched is in one line, and the session comes after it if it ended. -/
def Continues (r : Option (Status × Session) × Log) : Prop :=
  Timeline (some maxCallDepth) r.2.marks ∧ ∀ status s', r.1 = some (status, s') → Lined s' r.2

theorem Lined.of_machine (h : Lined s g) (same : s.machine.SameHeap s'.machine)
    (current : s'.machine.current = s.machine.current) : Lined s' g where
  faithful := h.faithful.congr same.environments same.instances current
  line := h.line
  before a passes := (h.before a passes).trans same.before

theorem Lined.still (h : Lined s g) {status : Status} (machine : s'.machine = s.machine) :
    Continues (some (status, s'), g) := by
  refine ⟨h.line, fun _ _ eq => ?_⟩
  cases eq
  exact h.of_machine ⟨by rw [machine], by rw [machine]⟩ (by rw [machine])

theorem Lined.watchExecute (h : Lined s g) (fuel : Nat) {program : List Stmt}
    (proper : Stmt.AllProper program) : Continues (s.watchExecute fuel program g) := by
  have clean := Stmt.names_resolved proper
  have line := InLine.interpret (some maxCallDepth) fuel (Site.root program) h.faithful clean
  have keeps := Run.executeProgram_keeps (some maxCallDepth) fuel h.faithful clean
  unfold Session.watchExecute
  dsimp only [report]
  split
  · obtain ⟨new, notes⟩ := line.exists_notes g
    have timeline := (line.line g new notes).append_of_before h.line fun a b old passes =>
      (h.before a old).trans (line.above g new notes b passes)
    -- The state that the program ends in comes behind all that it passed, and behind those of before.
    have ended {o : Outcome Unit} {g' : Log} {m' : Machine}
        (eq : Watched.interpret (some maxCallDepth) fuel (Site.root program)
          (Resolution.ofProgram program).1 g s.machine = (o, g')) (state : o.state? = some m') :
        m'.Faithful ∧ ∀ a, Passes (some maxCallDepth) (new ++ g.marks) a → a.Before m' := by
      have unwatched := Watched.erases_interpret (some maxCallDepth) fuel (Site.root program)
        (Resolution.ofProgram program).1 g s.machine
      rw [eq] at unwatched
      dsimp only at unwatched
      rw [unwatched] at state
      refine ⟨(keeps.ended ((Run.state?_interpret ..).symm.trans state)).1, fun a passes => ?_⟩
      rcases Passes.append.mp passes with passes | passes
      · exact line.below g new notes a passes fuel m' state
      · exact (h.before a passes).trans (line.forward fuel m' state)
    unfold Watched.Notes at notes
    rw [← notes] at timeline ended
    split
    · rename_i m' g' eq
      rw [eq] at timeline ended
      obtain ⟨faithful, before⟩ := ended rfl rfl
      refine ⟨timeline, fun _ _ same => ?_⟩
      cases same
      exact ⟨faithful, timeline, before⟩
    · rename_i e m' g' eq
      rw [eq] at timeline ended
      obtain ⟨faithful, before⟩ := ended rfl rfl
      refine ⟨timeline, fun _ _ same => ?_⟩
      cases same
      exact ⟨faithful, timeline, before⟩
    · rename_i g' eq
      rw [eq] at timeline
      exact ⟨timeline, fun _ _ same => by cases same⟩
  · exact h.still rfl

theorem Lined.watchFinish (h : Lined s g) (fuel : Nat) (scan : Scan)
    (parsed : Except (List SyntaxError) (List Stmt))
    (proper : ∀ program, parsed = .ok program → Stmt.AllProper program) :
    Continues (s.watchFinish fuel scan parsed g) := by
  unfold Session.watchFinish
  cases parsed with
  | error errors => exact h.still rfl
  | ok program =>
    dsimp only
    split
    · have reported : Lined (s.report (scan.errors.map LexError.text)) g :=
        h.of_machine ⟨rfl, rfl⟩ rfl
      exact reported.watchExecute fuel (proper program rfl)
    · exact h.still rfl

theorem Input.continues (h : Lined s g) (fuel : Nat) (input : Input) :
    Continues (input.watch fuel s g) := by
  have finished := h.watchFinish fuel input.scan input.parsed fun _ => proper_of_parsed
  cases input with
  | program source => exact finished
  | line text =>
    unfold watch
    dsimp only
    split
    · exact h.still rfl
    · exact finished

/-- Whatever was run, the states that a session came by are in one line. -/
theorem History.lined (h : History s g ran) : Lined s g := by
  induction h with
  | initial out reports clock =>
    exact ⟨.initial out clock, .nil, fun a passes => absurd passes Passes.not_nil⟩
  | @step s s' g g' ran status fuel input _ ended ih =>
    have continues := (Input.continues ih fuel input).2 status s'
    rw [ended] at continues
    exact continues rfl
  | drained out reports _ ih => exact ih.of_machine ⟨rfl, rfl⟩ rfl

end Session

end LoxLang
