import LoxLang.Proofs.Receivers.Sessions
import LoxLang.Proofs.Running.Sparing
import LoxLang.Proofs.Running.WellFormed
/-!
The globals of a session. Only where no scope is open do statements run at the globals, and the only
declarations that stand there are those at the top level of a program.

What is proved:
  1. outside of all scopes the walk over the names comes by no other declarations (`Site.topLevel_of_within`);
  2. where a scope is open no distance leads to the globals, so an assignment that leads there was given none
     (`Matches.ancestor_ne_globals`, `AssignsGlobal.undistanced`);
  3. so no part of a program adds a global but the declarations at its top level, in any session
     (`Session.no_implicit_globals`).
-/
namespace LoxLang

variable {α : Type} {g : Log} {m m' : Machine}

/-! Declarations at the top level -/

/-- A statement that is no declaration binds nothing where it stands, nor do its branches. -/
theorem Stmt.binds_of_plain : ∀ {s : Stmt}, s.Proper → s.isDeclaration = false → s.binds = []
  | .conditional _ whenTrue none, ⟨_, plain, proper⟩, _ => by
    show binds whenTrue = []
    exact binds_of_plain proper plain
  | .conditional _ whenTrue (some whenFalse), ⟨_, ⟨plain, proper⟩, plain', proper'⟩, _ => by
    show binds whenTrue ++ binds whenFalse = []
    rw [binds_of_plain proper plain, binds_of_plain proper' plain']
    rfl
  | .loop _ body, ⟨_, plain, proper⟩, _ => by
    show binds body = []
    exact binds_of_plain proper plain
  | .expression _, _, _ => rfl
  | .print _, _, _ => rfl
  | .block _, _, _ => rfl
  | .returns _ _, _, _ => rfl

namespace Resolve

theorem declarators_binds (place : Surroundings) : ∀ (ds : List Declarator) (r : Resolution),
    (declarators place ds r).1.map (·.name.lexeme) = ds.map (·.name.lexeme)
  | [], _ => rfl
  | ⟨_, none⟩ :: ds, _ => congrArg (_ :: ·) (declarators_binds place ds _)
  | ⟨_, some _⟩ :: ds, _ => congrArg (_ :: ·) (declarators_binds place ds _)

theorem statement_binds (place : Surroundings) : ∀ (s : Stmt) (r : Resolution),
    (statement place s r).1.binds = s.binds
  | .conditional _ whenTrue none, _ => statement_binds place whenTrue _
  | .conditional _ whenTrue (some whenFalse), _ =>
    congrArg₂ (· ++ ·) (statement_binds place whenTrue _) (statement_binds place whenFalse _)
  | .loop _ body, _ => statement_binds place body _
  | .declareAll ds, r => declarators_binds place ds r
  | .declare ⟨_, none⟩, _ => rfl
  | .declare ⟨_, some _⟩, _ => rfl
  | .expression _, _ => rfl
  | .print _, _ => rfl
  | .block _, _ => rfl
  | .declareFunction ⟨_, _, _⟩, _ => rfl
  | .returns _ none, _ => rfl
  | .returns _ (some _), _ => rfl
  | .declareClass .., _ => rfl

theorem statement_isDeclaration (place : Surroundings) (s : Stmt) (r : Resolution) :
    (statement place s r).1.isDeclaration = s.isDeclaration := by
  cases s with
  | conditional _ _ whenFalse => cases whenFalse <;> rfl
  | returns _ value => cases value <;> rfl
  | _ => rfl

end Resolve

namespace Site

/-- The site of a statement at the top level of one of the programs. -/
def TopLevel (programs : List (List Stmt)) (p : Site) : Prop :=
  ∃ program ∈ programs, ∃ i < program.length, p = siteAt program (0 :: List.replicate i 1)

/-- Outside of all scopes the walk comes by the statements of the program, and by no other declaration. -/
def Outside (program : List Stmt) (p : Site) : Prop :=
  match p.part with
  | .statements ss => ∃ i, p = siteAt program (List.replicate i 1) ∧ ss = program.drop i
  | .statement s => s.isDeclaration = true →
    ∃ i < program.length, p = siteAt program (0 :: List.replicate i 1)
  | _ => True

theorem outline_of_declare {name : Token} {tracked : Bool} {r : Resolution}
    (outside : (Resolve.declare name tracked r).2.outline = []) : r.outline = [] := by
  rw [Resolve.outline_declare] at outside
  cases outline : r.outline with
  | nil => rfl
  | cons s ss => rw [outline] at outside; cases outside

theorem outside_of_within {program : List Stmt} (proper : Stmt.AllProper program) {p : Site}
    (h : Within program p) (outside : p.before.outline = []) : p.Outside program := by
  induction h with
  | root => exact ⟨0, rfl, rfl⟩
  | @child p i within ih =>
    have around : p.before.outline = [] := by
      cases step p i with
      | along first =>
        have length := first.length
        rw [outside] at length
        exact List.eq_nil_of_length_eq_zero length.symm
      | opened _ _ _ _ opened => rw [outside] at opened; cases opened
      | declared _ _ _ _ _ bound => exact outline_of_declare (bound.symm.trans outside)
    have whole := ih around
    have sound := within.proper proper
    obtain ⟨part, place, before, closing⟩ := p
    revert outside whole sound
    unfold child
    dsimp only
    split <;> intro outside whole sound
    all_goals try trivial
    -- What is left is a branch, the body of a loop, a statement in its place and the body of a function.
    · rename_i whenFalse
      cases whenFalse with
      | none => exact fun declares => absurd (sound.2.1.symm.trans declares) nofun
      | some whenFalse => exact fun declares => absurd (sound.2.1.1.symm.trans declares) nofun
    · exact fun declares => absurd (sound.2.2.1.symm.trans declares) nofun
    · exact fun declares => absurd (sound.2.1.symm.trans declares) nofun
    · obtain ⟨k, here, rest⟩ := whole
      refine fun _ => ⟨k, Nat.lt_of_not_le fun le => ?_, congrArg (child · 0) here⟩
      rw [List.drop_eq_nil_of_le le] at rest
      cases rest
    · obtain ⟨k, here, rest⟩ := whole
      refine ⟨k + 1, congrArg (child · 1) here, ?_⟩
      rw [← List.drop_drop, ← rest]
      rfl
    · rename_i params body
      obtain ⟨s, opened, -⟩ := openBody_outline params before
      exact absurd (opened.symm.trans outside) (List.cons_ne_nil _ _)

/-- A declaration outside of all scopes is a statement at the top level. -/
theorem topLevel_of_within {program : List Stmt} (proper : Stmt.AllProper program) {p : Site}
    (h : Within program p) (outside : p.before.scopes = []) {s : Stmt} (part : p.part = .statement s)
    (declares : s.isDeclaration = true) :
    ∃ i < program.length, p = siteAt program (0 :: List.replicate i 1) := by
  have outside := outside_of_within proper h (by rw [Resolution.outline, outside]; rfl)
  rw [Outside, part] at outside
  exact outside declares

/-- A distance that an assignment is given leads to one of the open scopes. -/
theorem depth_lt_of_assign {p : Site} {name : Token} {value : Expr} {d : Nat}
    (resolved : p.resolved = .expression (.assign name value (some d))) : d < p.before.scopes.length := by
  obtain ⟨name', value', depth, part⟩ : ∃ name' value' depth, p.part = .expression (.assign name' value' depth) := by
    obtain ⟨part, place, before, closing⟩ := p
    cases part with
    | expression e =>
      cases e with
      | assign name' value' depth => exact ⟨name', value', depth, rfl⟩
      | «this» keyword depth =>
        obtain ⟨body, receiver⟩ := place
        cases receiver <;> cases resolved
      | _ => cases resolved
    | _ => cases resolved
  obtain ⟨value'', resolved'⟩ := resolved_of_assign part
  rw [resolved', Part.expression.injEq, Expr.assign.injEq] at resolved
  exact (List.findIdx?_eq_some_iff_getElem.mp resolved.2.2).1

end Site

theorem Forest.ancestor?_succ (f : Forest α) : ∀ e d : Nat, f.ancestor? e (d + 1) = (f.ancestor? e d).bind f.outer?
  | e, 0 => by
    show f.ancestor? e (0 + 1) = f.outer? e
    rw [ancestor?]
    cases f.outer? e <;> rfl
  | e, d + 1 => by
    rw [ancestor?, ancestor?]
    cases f.outer? e with
    | none => rfl
    | some p => exact ancestor?_succ f p d

namespace Matches

variable {p : Site}

/-- Where a scope is open, the walk outward is not at the globals yet. -/
theorem ancestor_ne_globals (h : Matches p m) {d e : Nat} (inside : d < p.before.scopes.length)
    (ancestor : m.environments.ancestor? m.current d = some e) : e ≠ Machine.globals := by
  rintro rfl
  have last : m.environments.ancestor? m.current (d + 1) = none := by
    rw [Forest.ancestor?_succ, ancestor]
    exact Forest.outer?_zero _
  have globals := h.globals
  rw [Forest.ancestor?_none inside last] at globals
  cases globals

/-- Statements run at the globals where no scope is open, and only there. -/
theorem current_eq_globals_iff (h : Matches p m) :
    m.current = Machine.globals ↔ p.before.scopes = [] := by
  constructor
  · intro here
    cases scopes : p.before.scopes with
    | nil => rfl
    | cons s ss => exact absurd here (h.ancestor_ne_globals (d := 0) (by rw [scopes]; exact Nat.succ_pos _) rfl)
  · intro outside
    have globals := h.globals
    rw [outside] at globals
    exact Option.some.inj globals

end Matches

/-- An assignment that leads to the globals was given no distance. -/
theorem AssignsGlobal.undistanced {programs : List (List Stmt)} {marks : List Mark}
    (fits : ∀ mark ∈ marks, mark.Fits programs) {depth : Option Nat} {x : String}
    (assigns : AssignsGlobal marks depth x) : AssignsGlobal marks none x := by
  cases depth with
  | none => exact assigns
  | some d =>
    obtain ⟨p, name, value, m₀, m, reached, accessed, -, leads⟩ := assigns
    obtain ⟨-, resolved, -⟩ := fits _ reached
    obtain ⟨-, -, -, -, matched, -⟩ := fits _ accessed
    obtain ⟨ancestor, -⟩ := Option.filter_eq_some_iff.mp leads
    exact absurd rfl (matched.ancestor_ne_globals (Site.depth_lt_of_assign resolved) ancestor)

theorem Machine.Leaves.undistanced {programs : List (List Stmt)} {names : List String} {new : List Mark}
    (h : m.Leaves names new m') (fits : ∀ mark ∈ new, mark.Fits programs) :
    m.Spares (m.exposed names) (AssignsGlobal new none) m' :=
  h.spares.imp (List.Subset.refl _) fun _ ⟨_, assigns⟩ => assigns.undistanced fits

/-- The names that the run of a node may bind where it starts. -/
def Part.binds : Part → List String
  | .statement s => s.binds
  | _ => []

theorem Watched.node_spares (limit : Option Nat) (n : Nat) (p : Site) (part : Part) :
    Spares part.binds (node limit n p part) := by
  have good := composes_spares limit
  cases part with
  | expression e => exact good.bind ((spares_every limit n).evaluate p e) fun _ => good.pure ()
  | statement s => exact good.bind ((spares_every limit n).execute p s) fun _ => good.done ()
  | _ => exact good.pure ()

/-- A node that adds to the globals is a declaration at the top level of a program. -/
theorem Mark.Fits.exposed_binds {programs : List (List Stmt)} {p : Site} {part : Part}
    (proper : ∀ program ∈ programs, Stmt.AllProper program) (fits : (Mark.reached p part m).Fits programs)
    {x : String} (exposed : x ∈ m.exposed part.binds) : ∃ s, part = .statement s ∧
      s.isDeclaration = true ∧ p.TopLevel programs ∧ m.exposed part.binds = s.binds := by
  obtain ⟨⟨program, mem, within⟩, resolved, matched⟩ := fits
  have sound := within.proper (proper program mem)
  unfold Machine.exposed at exposed
  split at exposed
  · rename_i here
    have outside := matched.current_eq_globals_iff.mp here
    cases found : p.part with
    | statement s =>
      obtain rfl : .statement (Resolve.statement p.place s p.before).1 = part := by
        rw [← resolved, Site.resolved, found]
        rfl
      rw [found] at sound
      rw [Part.binds, Resolve.statement_binds] at exposed
      have declares : s.isDeclaration = true := by
        cases declares : s.isDeclaration with
        | true => rfl
        | false => rw [Stmt.binds_of_plain sound declares] at exposed; cases exposed
      obtain ⟨i, lt, top⟩ := Site.topLevel_of_within (proper program mem) within outside found declares
      refine ⟨_, rfl, ?_, ⟨program, mem, i, lt, top⟩, if_pos here⟩
      rw [Resolve.statement_isDeclaration, declares]
    | _ =>
      rw [← resolved, Site.resolved, found] at exposed
      cases exposed
  · cases exposed

section

variable {programs : List (List Stmt)} {limit : Option Nat} {n : Nat} {marks : List Mark}

/-- A call adds no name to the globals, and changes them by assignments without a distance only. -/
theorem Watched.call_spares_globals (fits : ∀ mark ∈ marks, mark.Fits programs) {c : Callable}
    {arguments : List Value} (nonempty : 0 < m.environments.size)
    (notes : (call limit n c arguments).Notes g m marks)
    (ended : (call limit n c arguments g m).1.state? = some m') : m.Spares [] (AssignsGlobal marks none) m' := by
  obtain ⟨noted, notes', leaves⟩ := (spares_every limit n).call c arguments g m nonempty
  cases notes.unique notes'
  have spares := (leaves m' ended).undistanced fits
  rwa [Machine.exposed, ite_self] at spares

/-- So does the run of a node, unless it is a declaration at the top level of a program. -/
theorem Watched.node_spares_globals (proper : ∀ program ∈ programs, Stmt.AllProper program) {p : Site}
    {part : Part} (fits : ∀ mark ∈ marks, mark.Fits programs) (reached : (Mark.reached p part m).Fits programs)
    (nonempty : 0 < m.environments.size) (notes : (node limit n p part).Notes g m marks)
    (ended : (node limit n p part g m).1.state? = some m') :
    m.Spares [] (AssignsGlobal marks none) m' ∨
      ∃ stmt, part = .statement stmt ∧ stmt.isDeclaration = true ∧ p.TopLevel programs ∧
        m.Spares stmt.binds (AssignsGlobal marks none) m' := by
  obtain ⟨noted, notes', leaves⟩ := node_spares limit n p part g m nonempty
  cases notes.unique notes'
  have spares := (leaves m' ended).undistanced fits
  cases exposed : m.exposed part.binds with
  | nil =>
    rw [exposed] at spares
    exact .inl spares
  | cons x names =>
    obtain ⟨stmt, node, declares, top, same⟩ := reached.exposed_binds proper (exposed ▸ List.mem_cons_self)
    rw [same] at spares
    exact .inr ⟨stmt, node, declares, top, spares⟩

end

/-- Whether a statement is reached that binds the name where it stands. -/
def Mark.binds (x : String) : Mark → Bool
  | reached _ part _ => part.binds.contains x
  | _ => false

def Mark.isBlock : Mark → Bool
  | reached _ (.statement (.block _)) _ => true
  | _ => false

theorem Mark.of_isBlock {mark : Mark} (h : mark.isBlock = true) :
    ∃ p body m, mark = .reached p (.statement (.block body)) m := by
  unfold isBlock at h
  split at h
  · exact ⟨_, _, _, rfl⟩
  · cases h

/-! Sessions -/

namespace Session

variable {s : Session} {ran : List (List Stmt)}

/-- The source is not executed, or it is one program, whose statements are run on the machine as it is. -/
def Executes (programs : List (List Stmt)) (fuel : Nat) (s : Session) (g : Log)
    (r : Option (Status × Session) × Log) : Prop :=
  (r.2 = g ∧ ∀ status s', r.1 = some (status, s') → s'.machine = s.machine) ∨
    ∃ program ∈ programs,
      let run := Watched.executeProgram (some maxCallDepth) fuel (Site.root program)
        (Resolution.ofProgram program).1 g s.machine
      r.2 = run.2 ∧ ∀ status s', r.1 = some (status, s') → run.1.state? = some s'.machine

theorem watchExecute_executes (fuel : Nat) {programs : List (List Stmt)} {program : List Stmt}
    (mem : (Resolution.ofProgram program).2.errors.isEmpty → program ∈ programs) (s : Session) (g : Log) :
    Executes programs fuel s g (s.watchExecute fuel program g) := by
  unfold watchExecute
  dsimp only [report]
  split
  · rename_i accepted
    right
    have log := Watched.log_interpret (some maxCallDepth) fuel (Site.root program)
      (Resolution.ofProgram program).1 g s.machine
    have state := Run.state?_interpret (some maxCallDepth) fuel (Resolution.ofProgram program).1 s.machine
    rw [← Watched.erases_interpret (some maxCallDepth) fuel (Site.root program) _ g,
      ← Watched.erases_executeProgram (some maxCallDepth) fuel (Site.root program) _ g] at state
    refine ⟨program, mem accepted, ?_⟩
    dsimp only
    rw [← log, ← state]
    rcases Watched.interpret (some maxCallDepth) fuel (Site.root program) (Resolution.ofProgram program).1 g
      s.machine with ⟨_ | _ | _, _⟩
    · exact ⟨rfl, fun _ _ same => by cases same; rfl⟩
    · exact ⟨rfl, fun _ _ same => by cases same; rfl⟩
    · exact ⟨rfl, nofun⟩
  · exact .inl ⟨rfl, fun _ _ same => by cases same; rfl⟩

theorem Input.watch_executes (fuel : Nat) (input : Input) (s : Session) (g : Log) :
    Executes input.programs fuel s g (input.watch fuel s g) := by
  have finished : Executes input.programs fuel s g (s.watchFinish fuel input.scan input.parsed g) := by
    unfold watchFinish
    cases parsed : input.parsed with
    | error errors => exact .inl ⟨rfl, fun _ _ same => by cases same; rfl⟩
    | ok program =>
      dsimp only
      split
      · rename_i clean
        exact watchExecute_executes fuel (fun accepted => mem_programs parsed clean accepted) (s.report _) g
      · exact .inl ⟨rfl, fun _ _ same => by cases same; rfl⟩
  cases input with
  | program source => exact finished
  | line text =>
    unfold watch
    dsimp only
    split
    · exact .inl ⟨rfl, fun _ _ same => by cases same; rfl⟩
    · exact finished

/-- There are no implicit globals. Whenever the run reaches a node, of the program or of a function that is left
from an earlier one, that node is run from there on, to an end if the run ends. And at whatever depth a node is
run from where it was reached, and however this ends, the globals have the names that they had and no others, and
another value only where an assignment without a distance was run in the meantime; unless the node is a
declaration that stands at the top level of a program, which may add the names that it declares, and nothing
else. A call alone adds no name to the globals either, and changes them by such assignments only. From one
program to the next the globals lose no name, and all that is new or changed goes back to a declaration at the
top level or to such an assignment. -/
theorem no_implicit_globals (h : History s g ran) (fuel : Nat) (input : Input) :
    let programs := input.programs ++ ran
    (input.watch fuel s g).1 = input.run fuel s ∧
    ∃ new, (input.watch fuel s g).2.marks = new ++ g.marks ∧
      (∀ later p part m earlier, new = later ++ .reached p part m :: earlier →
        (∃ n g₁ own others, g₁.marks = earlier ++ g.marks ∧ later = others ++ own ∧
          (Watched.node (some maxCallDepth) n p part).Notes g₁ m (own ++ [.reached p part m]) ∧
          ((input.watch fuel s g).1.isSome → (Watched.node (some maxCallDepth) n p part g₁ m).1.state?.isSome)) ∧
        ∀ n g₁ noted, (Watched.node (some maxCallDepth) n p part).Notes g₁ m noted → noted ⊆ new →
          ∀ m', (Watched.node (some maxCallDepth) n p part g₁ m).1.state? = some m' →
            m.Spares [] (AssignsGlobal noted none) m' ∨
              ∃ stmt, part = .statement stmt ∧ stmt.isDeclaration = true ∧ p.TopLevel programs ∧
                m.Spares stmt.binds (AssignsGlobal noted none) m') ∧
      (∀ n c arguments g₁ m noted, 0 < m.environments.size →
        (Watched.call (some maxCallDepth) n c arguments).Notes g₁ m noted → noted ⊆ new →
          ∀ m', (Watched.call (some maxCallDepth) n c arguments g₁ m).1.state? = some m' →
            m.Spares [] (AssignsGlobal noted none) m') ∧
      ∀ status s', (input.watch fuel s g).1 = some (status, s') →
        ∃ names, s.machine.Spares names (AssignsGlobal new none) s'.machine ∧
          ∀ x ∈ names, ∃ p stmt m, .reached p (.statement stmt) m ∈ new ∧
            stmt.isDeclaration = true ∧ p.TopLevel programs ∧ x ∈ stmt.binds := by
  intro programs
  have fits := h.fits fuel input
  have proper : ∀ program ∈ programs, Stmt.AllProper program := fun program mem => (h.sound input program mem).1
  obtain ⟨⟨⟨_, order⟩, current⟩, -⟩ := h.settled
  have among {new : List Mark} (marks : (input.watch fuel s g).2.marks = new ++ g.marks) {noted : List Mark}
      (within : noted ⊆ new) : ∀ mark ∈ noted, mark.Fits programs :=
    fun mark mem => fits mark (marks ▸ List.mem_append_left _ (within mem))
  refine ⟨input.watch_eq fuel s g, ?_⟩
  rcases input.watch_executes fuel s g with ⟨log, still⟩ | ⟨program, mem, log, ends⟩
  -- Nothing was run, so nothing was noted and nothing changed.
  · have marks : (input.watch fuel s g).2.marks = [] ++ g.marks := by rw [log]; rfl
    refine ⟨[], marks, fun later p part m earlier nothing => ?_, fun n c arguments g₁ m noted nonempty notes within
      m' ended => Watched.call_spares_globals (among marks within) nonempty notes ended, fun status s' ended => ?_⟩
    · simp at nothing
    · exact ⟨[], .of_same fun x => by rw [still status s' ended], fun _ none => absurd none List.not_mem_nil⟩
  · obtain ⟨new, noted, leaves⟩ := Watched.executeProgram_spares (some maxCallDepth) fuel
      (Site.root program) (Resolution.ofProgram program).1 g s.machine order.nonempty
    obtain ⟨new', noted', -, visits⟩ := Watched.visits_executeProgram (some maxCallDepth) fuel
      (Site.root program) (Resolution.ofProgram program).1 g s.machine
    cases noted.unique noted'
    have marks : (input.watch fuel s g).2.marks = new ++ g.marks := (congrArg Log.marks log).trans noted
    have fits := among marks (List.Subset.refl new)
    refine ⟨new, marks, fun later p part m earlier whole => ?_, fun n c arguments g₁ m noted nonempty notes within
      m' ended => Watched.call_spares_globals (among marks within) nonempty notes ended, fun status s' ended => ?_⟩
    · obtain ⟨size, n, g₁, own, others, before, rest, notes, runs⟩ := visits later p part m earlier whole
      refine ⟨⟨n, g₁, own, others, before, rest, notes, fun ended => runs ?_⟩,
        fun n g₁ noted notes within m' ended => ?_⟩
      · obtain ⟨⟨status, s'⟩, ended⟩ := Option.isSome_iff_exists.mp ended
        exact Option.isSome_of_eq_some (ends status s' ended)
      -- Where the node was reached the globals are there, and what it notes fits the programs.
      · have reached : .reached p part m ∈ new := whole ▸ List.mem_append_right _ List.mem_cons_self
        exact Watched.node_spares_globals proper (among marks within) (fits _ reached)
          (Nat.lt_of_lt_of_le order.nonempty size) notes ended
    · obtain ⟨names, left, bound⟩ := leaves s'.machine (ends status s' ended)
      have spares := left.undistanced fits
      rw [Machine.exposed, if_pos current] at spares
      refine ⟨names, spares, fun x mem => ?_⟩
      obtain ⟨q, stmt, m₁, reached, here, binds⟩ := bound x mem
      -- A name that was added is bound by a statement that ran in the globals; such a statement stands at the
      -- top level.
      have exposed : x ∈ m₁.exposed (Part.statement stmt).binds := by
        rw [Machine.exposed, if_pos (here.trans current)]
        exact binds
      obtain ⟨_, same, declares, top, -⟩ := (fits _ reached).exposed_binds proper exposed
      cases same
      exact ⟨q, stmt, m₁, reached, declares, top, binds⟩

/-- A function that an earlier program made is called in a block, and assigns a global; the block runs to its end
and leaves no variable behind. -/
theorem no_implicit_globals_assigned : ∃ s g ran new, History s g ran ∧
    ((Input.line "{var b=f();}").watch 30 s g).2.marks = new ++ g.marks ∧ AssignsGlobal new none "a" ∧
    ∃ n p body g₁ m m', .reached p (.statement (.block body)) m ∈ new ∧
      (Watched.node (some maxCallDepth) n p (.statement (.block body)) g₁ m).1.state? = some m' ∧
      m.Spares [] (AssignsGlobal new none) m' := by
  let make : Input := .program "var a;fun f(){a=true;}"
  let start := Session.initial .unlimited .unlimited fun _ => 0
  let made := make.watch 30 start Log.empty
  let truth (s : Session) : Bool := (s.machine.global? "a").any Value.truthy
  have ends : made.1.any (fun r => !truth r.2 &&
      let last := (Input.line "{var b=f();}").watch 30 r.2 made.2
      let new := last.2.marks.take (last.2.marks.length - made.2.marks.length)
      last.1.any (fun r' => truth r'.2) && !new.any (Mark.binds "a") && new.any Mark.isBlock) = true := by
    decide +kernel
  obtain ⟨⟨status, s⟩, ended, runs⟩ := (Option.any_eq_true _ _).mp ends
  have history : History s made.2 (make.programs ++ []) :=
    .step 30 make (.initial .unlimited .unlimited fun _ => 0) (Prod.ext ended rfl)
  obtain ⟨-, new, marks, nodes, -, whole⟩ := no_implicit_globals history 30 (.line "{var b=f();}")
  simp only [Bool.and_eq_true, Bool.not_eq_true', marks, List.length_append, Nat.add_sub_cancel,
    List.take_left'] at runs
  obtain ⟨before, ⟨after, others⟩, block⟩ := runs
  obtain ⟨⟨status', s'⟩, ended', after⟩ := (Option.any_eq_true _ _).mp after
  refine ⟨s, made.2, _, new, history, marks, ?_, ?_⟩
  · obtain ⟨names, spares, bound⟩ := whole status' s' ended'
    have changed : s'.machine.global? "a" ≠ s.machine.global? "a" := fun same => by
      have : truth s' = truth s := congrArg (Option.any Value.truthy) same
      rw [before, after] at this
      cases this
    refine (spares.values "a" changed).resolve_left fun mem => ?_
    obtain ⟨p, stmt, m, reached, -, -, binds⟩ := bound "a" mem
    have declared : new.any (Mark.binds "a") = true :=
      List.any_eq_true.mpr ⟨_, reached, List.contains_iff_mem.mpr binds⟩
    exact absurd (others.symm.trans declared) nofun
  · obtain ⟨mark, reached, isBlock⟩ := List.any_eq_true.mp block
    obtain ⟨p, body, m, rfl⟩ := Mark.of_isBlock isBlock
    obtain ⟨later, earlier, split⟩ := List.append_of_mem reached
    obtain ⟨⟨n, g₁, own, rest, -, later, notes, ran⟩, leaves⟩ := nodes later p _ m earlier split
    obtain ⟨m', stops⟩ := Option.isSome_iff_exists.mp (ran (Option.isSome_of_eq_some ended'))
    have within : own ++ [.reached p (.statement (.block body)) m] ⊆ new := by
      intro mark mem
      rw [split, later]
      simp only [List.mem_append, List.mem_cons, List.not_mem_nil, or_false] at mem ⊢
      exact mem.imp .inr .inl
    refine ⟨n, p, body, g₁, m, m', reached, stops, ?_⟩
    rcases leaves n g₁ _ notes within m' stops with spares | ⟨stmt, same, declares, -⟩
    · exact spares.imp (List.Subset.refl _) fun _ => .more within
    · cases same
      cases declares

end Session

end LoxLang
