import LoxLang.Proofs.Running.Lockstep
import LoxLang.Proofs.Running.Sound
import LoxLang.Session
/-!
Sessions that are watched. Programs and prompt lines run one after the other on one machine, and
the log goes on from each to the next; functions that were made in one of them run in later ones.

What is proved: whenever the run reaches a node, of the program or of a function that is left from
an earlier one, the environments mirror the scopes that the walk had open there
(`environments_mirror_scopes`); and a name that the walk gave a distance is bound where it leads,
unless it occurs in its own initializer (`resolved_name_bound`).
-/
namespace LoxLang

namespace Session

/-- Resolves and executes statements, and notes what it comes by. -/
def watchExecute (fuel : Nat) (program : List Stmt) (s : Session) (g : Log) :
    Option (Status × Session) × Log :=
  let (resolved, found) := Resolution.ofProgram program
  let s := s.report (found.warnings.map Warning.text)
  if found.errors.isEmpty then
    match Watched.interpret (some maxCallDepth) fuel (Site.root program) resolved g s.machine with
    | (.ok _ machine, g) => (some (.ok, { s with machine }), g)
    | (.fail e machine, g) => (some (.runtimeError, { s with machine }.report [e.text]), g)
    | (.starved, g) => (none, g)
  else (some (.staticError, s.report (found.errors.map ScopeError.text)), g)

/-- Reports what is wrong with a source, or executes its statements and notes what that comes by. -/
def watchFinish (fuel : Nat) (scan : Scan) (parsed : Except (List SyntaxError) (List Stmt))
    (s : Session) (g : Log) : Option (Status × Session) × Log :=
  let s := s.report (scan.errors.map LexError.text)
  match parsed with
  | .error errors => (some (.staticError, s.report (errors.map SyntaxError.text)), g)
  | .ok program =>
    if scan.errors.isEmpty then s.watchExecute fuel program g else (some (.staticError, s), g)

/-- What a session is given. -/
inductive Input where
  | program (source : String)
  | line (text : String)

namespace Input

def run (fuel : Nat) : Input → Session → Option (Status × Session)
  | program source => Session.run fuel source
  | line text => runPromptLine fuel text

def scan : Input → Scan
  | program source => Scan.ofSource source
  | line text => Scan.ofSource text

def parsed : Input → Except (List SyntaxError) (List Stmt)
  | program source => Stmt.programOfTokens (Scan.ofSource source).tokens
  | line text => promptStatements (Scan.ofSource text).tokens

/-- The programs of a source that are executed: one, if the source is without faults. -/
def programs (input : Input) : List (List Stmt) :=
  input.parsed.toOption.toList.filter fun tree =>
    input.scan.errors.isEmpty && (Resolution.ofProgram tree).2.errors.isEmpty

/-- Runs a program or a prompt line and notes what it comes by. -/
def watch (fuel : Nat) (input : Input) (s : Session) (g : Log) :
    Option (Status × Session) × Log :=
  match input with
  | program _ => s.watchFinish fuel input.scan input.parsed g
  | line text =>
    if Text.allBlank text then (some (.ok, s), g) else s.watchFinish fuel input.scan input.parsed g

end Input

/-- The sessions there are, each with the log so far and with the programs that ran, the latest
first. Between two of them the output is free to be taken away. -/
inductive History : Session → Log → List (List Stmt) → Prop
  | initial (out reports : Sink) (clock : Nat → Float) :
    History (Session.initial out reports clock) Log.empty []
  | step {s s' : Session} {g g' : Log} {ran : List (List Stmt)} {status : Status} (fuel : Nat)
    (input : Input) : History s g ran → input.watch fuel s g = (some (status, s'), g') →
      History s' g' (input.programs ++ ran)
  | drained {s : Session} {g : Log} {ran : List (List Stmt)} (out reports : Sink) :
    History s g ran → History ⟨{ s.machine with out }, reports⟩ g ran

/-! Watching a session changes nothing -/

theorem watchExecute_eq (fuel : Nat) (program : List Stmt) (s : Session) (g : Log) :
    (s.watchExecute fuel program g).1 = s.execute fuel program := by
  unfold watchExecute execute
  dsimp only
  split
  · rw [← Watched.erases_interpret (some maxCallDepth) fuel (Site.root program) _ g]
    split <;> rename_i eq <;> rw [eq]
  · rfl

theorem watchFinish_eq (fuel : Nat) (scan : Scan)
    (parsed : Except (List SyntaxError) (List Stmt)) (s : Session) (g : Log) :
    (s.watchFinish fuel scan parsed g).1 = s.finish fuel scan parsed := by
  unfold watchFinish finish
  cases parsed with
  | error errors => rfl
  | ok program =>
    dsimp only
    split
    · exact watchExecute_eq fuel program _ g
    · rfl

theorem Input.watch_eq (fuel : Nat) (input : Input) (s : Session) (g : Log) :
    (input.watch fuel s g).1 = input.run fuel s := by
  cases input with
  | program source => exact watchFinish_eq fuel _ _ s g
  | line text =>
    show (if Text.allBlank text then _ else _ : Option (Status × Session) × Log).1 =
      if Text.allBlank text then _ else _
    split
    · rfl
    · exact watchFinish_eq fuel _ _ s g

end Session

/-! Programs in order -/

section

variable {ran : List (List Stmt)} {w : World} {limit : Option Nat} {n : Nat}

theorem ready_global {p : Site} (sound : p.Sound ran) (outline : p.before.outline = [])
    (closing : p.closing = []) (receiver : p.place.receiver = .none)
    (current : w.machine.current = Machine.globals) : Ready ran w p :=
  ⟨sound, by rw [outline, closing]; exact current,
    fun object => by rw [receiver] at object; cases object⟩

theorem executeProgram_safe (all : SafeAll ran limit n) : ∀ {ss : List Stmt} {before : Resolution}
    {w : World}, InOrder ran w → Site.Sound ran ⟨.statements ss, ⟨.program, .none⟩, before, []⟩ →
      before.outline = [] → w.machine.current = Machine.globals →
        Safe ran w
          (Watched.executeProgram limit n ⟨.statements ss, ⟨.program, .none⟩, before, []⟩
            (Resolve.statements ⟨.program, .none⟩ ss before).1)
          fun _ _ => True
  | [], _, _, order, _, _, _ => .pure order trivial
  | s :: ss, before, w, order, sound, outline, current => by
    have proper := sound.proper
    have first := sound.child 0 proper.1
    have rest := sound.child 1 proper.2
    have grows := Resolve.statement_grows ⟨.program, .none⟩ s before
    have still : (Resolve.statement ⟨.program, .none⟩ s before).2.outline = [] := by
      have length := grows.length
      rw [outline] at length
      exact List.eq_nil_of_length_eq_zero length
    refine (all.execute order (ready_global first outline rfl rfl current)).bind
      fun _ w₁ order₁ follows₁ _ => ?_
    exact executeProgram_safe all order₁ rest still (follows₁.current.trans current)

theorem interpret_safe (all : SafeAll ran limit n) {program : List Stmt} (order : InOrder ran w)
    (sound : (Site.root program).Sound ran) (current : w.machine.current = Machine.globals) :
    Safe ran w
      (Watched.interpret limit n (Site.root program) (Resolution.ofProgram program).1)
      fun _ _ => True := by
  have safe := executeProgram_safe all order sound rfl current
  -- However the statements end, flushing comes behind them and leaves the world as it is.
  have flushed {g : Log} {m : Machine} {scopes : Nat → Option Locals}
      (order : InOrder ran ⟨g, m, scopes⟩) : Safe ran ⟨g, m, scopes⟩ (Watched.lift Run.flush)
        fun _ _ => True := .still order .flush fun _ _ _ _ => trivial
  unfold Safe Watched.lift at *
  unfold Watched.interpret
  cases eq : Watched.executeProgram limit n (Site.root program) (Resolution.ofProgram program).1
    w.log w.machine with
  | mk outcome g =>
    have safe := eq ▸ safe
    cases outcome with
    | ok _ m =>
      obtain ⟨scopes, order, follows, _⟩ := safe
      have after := flushed order
      dsimp only at after ⊢
      cases flush : Run.flush m with
      | ok _ m' =>
        obtain ⟨scopes', order', follows', _⟩ := flush ▸ after
        exact ⟨scopes', order', follows.trans follows', trivial⟩
      | fail e m' =>
        obtain ⟨scopes', order', follows'⟩ := flush ▸ after
        exact ⟨scopes', order', follows.trans follows'⟩
      | starved => exact order.marks
    | fail e m =>
      obtain ⟨scopes, order, follows⟩ := safe
      have after := flushed order
      dsimp only at after ⊢
      cases flush : Run.flush m with
      | ok _ m' =>
        obtain ⟨scopes', order', follows', _⟩ := flush ▸ after
        exact ⟨scopes', order', follows.trans follows'⟩
      | fail e m' =>
        obtain ⟨scopes', order', follows'⟩ := flush ▸ after
        exact ⟨scopes', order', follows.trans follows'⟩
      | starved => exact order.marks
    | starved => exact safe

end

/-! Sessions in order -/

namespace Session

variable {ran : List (List Stmt)} {s : Session} {g : Log}

/-- Between two programs a session is in order, and its machine is back at the globals. -/
def Settled (ran : List (List Stmt)) (s : Session) (g : Log) : Prop :=
  (∃ scopes, InOrder ran ⟨g, s.machine, scopes⟩) ∧ s.machine.current = Machine.globals

/-- What was watched fits, and leaves a session in order if it ended. -/
def Watches (ran : List (List Stmt)) (r : Option (Status × Session) × Log) : Prop :=
  (∀ mark ∈ r.2.marks, mark.Fits ran) ∧
    ∀ status s', r.1 = some (status, s') → Settled ran s' r.2

theorem settled_initial (out reports : Sink) (clock : Nat → Float) :
    Settled [] (Session.initial out reports clock) Log.empty := by
  refine ⟨⟨fun _ => none, ?_⟩, rfl⟩
  refine ⟨Nat.zero_lt_one, fun e x v found => ?_, fun i x v found => ?_, fun _ _ => rfl,
    fun e c known => ?_, rfl, fun mark mem => ?_⟩
  · obtain ⟨n, rfl⟩ := Machine.native_of_initial found
    trivial
  · cases found
  · cases known
  · cases mem

theorem Settled.sound (h : Settled ran s g) : s.machine.Sound := by
  obtain ⟨⟨_, order⟩, current⟩ := h
  exact order.sound (show s.machine.current < _ from current ▸ order.nonempty)

theorem Settled.reported (h : Settled ran s g) (texts : List String) :
    Settled ran (s.report texts) g := h

theorem watches_still (h : Settled ran s g) {status : Status} {s' : Session}
    (machine : s'.machine = s.machine) : Watches ran (some (status, s'), g) := by
  obtain ⟨⟨scopes, order⟩, current⟩ := h
  refine ⟨order.marks, fun _ _ eq => ?_⟩
  cases eq
  unfold Settled
  rw [machine]
  exact ⟨⟨scopes, order⟩, current⟩

theorem watchExecute_watches (accepted : ∀ program ∈ ran, (Resolution.ofProgram program).2.errors = [])
    (h : Settled ran s g) (fuel : Nat) {program : List Stmt} (proper : Stmt.AllProper program)
    (mem : (Resolution.ofProgram program).2.errors.isEmpty → program ∈ ran) :
    Watches ran (s.watchExecute fuel program g) := by
  unfold watchExecute
  dsimp only
  split
  · rename_i accepted'
    obtain ⟨⟨scopes, order⟩, current⟩ := h
    have sound : (Site.root program).Sound ran := by
      refine ⟨⟨program, mem accepted', .root⟩, proper, fun x found => ?_⟩
      have length := (Resolve.statements_grows ⟨.program, .none⟩ program .empty).length
      have outline : (Site.root program).after.outline = [] := List.eq_nil_of_length_eq_zero length
      rw [Resolution.top, outline] at found
      cases found
    have safe := interpret_safe (safeAll accepted (some maxCallDepth) fuel) order sound current
    unfold Safe at safe
    dsimp only [report] at safe ⊢
    split at safe
    · rename_i m g' eq
      rw [eq]
      obtain ⟨scopes', order', follows, _⟩ := safe
      refine ⟨order'.marks, fun _ _ same => ?_⟩
      cases same
      exact ⟨⟨scopes', order'⟩, follows.current.trans current⟩
    · rename_i e m g' eq
      rw [eq]
      obtain ⟨scopes', order', follows⟩ := safe
      refine ⟨order'.marks, fun _ _ same => ?_⟩
      cases same
      exact ⟨⟨scopes', order'⟩, follows.current.trans current⟩
    · rename_i g' eq
      rw [eq]
      exact ⟨safe, fun _ _ same => by cases same⟩
  · exact watches_still h rfl

theorem watchFinish_watches
    (accepted : ∀ program ∈ ran, (Resolution.ofProgram program).2.errors = [])
    (h : Settled ran s g) (fuel : Nat) (scan : Scan) (parsed : Except (List SyntaxError) (List Stmt))
    (proper : ∀ program, parsed = .ok program → Stmt.AllProper program)
    (mem : ∀ program, parsed = .ok program → scan.errors.isEmpty →
      (Resolution.ofProgram program).2.errors.isEmpty → program ∈ ran) :
    Watches ran (s.watchFinish fuel scan parsed g) := by
  unfold watchFinish
  cases parsed with
  | error errors => exact watches_still h rfl
  | ok program =>
    dsimp only
    split
    · rename_i clean
      exact watchExecute_watches accepted (h.reported _) fuel (proper program rfl)
        (mem program rfl clean)
    · exact watches_still h rfl

theorem Settled.more {ran' : List (List Stmt)} (more : ran ⊆ ran') (h : Settled ran s g) :
    Settled ran' s g := by
  obtain ⟨⟨scopes, order⟩, current⟩ := h
  exact ⟨⟨scopes, order.more more⟩, current⟩

theorem Input.mem_programs {input : Input} {tree : List Stmt} (parsed : input.parsed = .ok tree)
    (scanned : input.scan.errors.isEmpty)
    (accepted : (Resolution.ofProgram tree).2.errors.isEmpty) : tree ∈ input.programs := by
  rw [programs, parsed, scanned]
  simp [Except.toOption, accepted]

theorem Input.accepted_of_mem {input : Input} {tree : List Stmt} (h : tree ∈ input.programs) :
    (Resolution.ofProgram tree).2.errors = [] := by
  have h := (List.mem_filter.mp h).2
  rw [Bool.and_eq_true, List.isEmpty_iff, List.isEmpty_iff] at h
  exact h.2

theorem Input.proper_of_parsed {input : Input} {tree : List Stmt} (h : input.parsed = .ok tree) :
    Stmt.AllProper tree := by
  cases input with
  | program source => exact proper_of_programOfTokens (fun _ => genuine_of_mem_scan) h
  | line text => exact proper_of_promptStatements (fun _ => genuine_of_mem_scan) h

theorem Input.watches (accepted : ∀ program ∈ ran, (Resolution.ofProgram program).2.errors = [])
    (h : Settled ran s g) (fuel : Nat) (input : Input) :
    Watches (input.programs ++ ran) (input.watch fuel s g) := by
  have settled := h.more (List.subset_append_right input.programs ran)
  have accepted' : ∀ program ∈ input.programs ++ ran,
      (Resolution.ofProgram program).2.errors = [] := by
    intro program mem
    rcases List.mem_append.mp mem with new | old
    · exact accepted_of_mem new
    · exact accepted program old
  have finished := watchFinish_watches accepted' settled fuel input.scan input.parsed
    (fun _ => proper_of_parsed)
    fun _ parsed clean ok => List.mem_append_left _ (mem_programs parsed clean ok)
  cases input with
  | program source => exact finished
  | line text =>
    unfold watch
    dsimp only
    split
    · exact watches_still settled rfl
    · exact finished

/-- Whatever was run, a session is in order. -/
theorem History.settled (h : History s g ran) :
    Settled ran s g ∧ ∀ program ∈ ran, (Resolution.ofProgram program).2.errors = [] := by
  induction h with
  | initial out reports clock =>
    exact ⟨settled_initial out reports clock, fun _ mem => nomatch mem⟩
  | @step s s' g g' ran status fuel input _ ended ih =>
    obtain ⟨settled, accepted⟩ := ih
    refine ⟨?_, fun program mem => ?_⟩
    · have watches := (input.watches accepted settled fuel).2 status s'
      rw [ended] at watches
      exact watches rfl
    · rcases List.mem_append.mp mem with new | old
      · exact Input.accepted_of_mem new
      · exact accepted program old
  | drained out reports _ ih =>
    obtain ⟨⟨⟨scopes, order⟩, current⟩, accepted⟩ := ih
    obtain ⟨order', _⟩ := order.congr ⟨_, { (World.machine _) with out }, scopes⟩ rfl rfl
      Nat.le.refl rfl rfl order.marks
    exact ⟨⟨⟨scopes, order'⟩, current⟩, accepted⟩

/-- Everything a watched session comes by fits. -/
theorem History.fits (h : History s g ran) (fuel : Nat) (input : Input) :
    ∀ mark ∈ (input.watch fuel s g).2.marks, mark.Fits (input.programs ++ ran) :=
  (input.watches h.settled.2 h.settled.1 fuel).1

/-- Whenever the run reaches a node, it is one the walk came by in one of the programs so far, and
from the current environment outward there is one environment for each scope that was open there,
which binds only names of that scope; then come the globals, and then nothing. So a distance that
the walk gave to a name leads to an environment. Watching the run does not change it. -/
theorem environments_mirror_scopes (h : History s g ran) (fuel : Nat) (input : Input) :
    (input.watch fuel s g).1 = input.run fuel s ∧
      (∀ p part m, .reached p part m ∈ (input.watch fuel s g).2.marks →
        (∃ program ∈ input.programs ++ ran, Site.Within program p) ∧ p.resolved = part ∧
          Matches p m) ∧
      ∀ p name d m, .accessed p name (some d) m ∈ (input.watch fuel s g).2.marks →
        (m.environments.ancestor? m.current d).isSome := by
  refine ⟨input.watch_eq fuel s g, fun p part m mem => h.fits fuel input _ mem,
    fun p name d m mem => ?_⟩
  obtain ⟨_, _, _, _, _, leads⟩ := h.fits fuel input _ mem
  exact (leads d rfl).1

/-- The body of a block is reached in an environment of its own. -/
theorem environments_mirror_scopes_block :
    ∃ p part m, .reached p part m ∈ ((Input.program "{var a;a;}").watch 20
        (Session.initial .unlimited .unlimited fun _ => 0) Log.empty).2.marks ∧
      p.before.scopes.length = 1 ∧ p.resolved = part ∧ Matches p m := by
  have some_inner : ((Input.program "{var a;a;}").watch 20
      (Session.initial .unlimited .unlimited fun _ => 0) Log.empty).2.marks.any
        (Mark.isInside 1) = true := by decide +kernel
  obtain ⟨mark, mem, inside⟩ := List.any_eq_true.mp some_inner
  cases mark with
  | reached p part m =>
    have start := History.initial .unlimited .unlimited fun _ => 0
    obtain ⟨_, resolved, mirrors⟩ :=
      (environments_mirror_scopes start 20 (.program "{var a;a;}")).2.1 p part m mem
    exact ⟨p, part, m, mem, of_decide_eq_true inside, resolved, mirrors⟩
  | accessed => cases inside

/-- A name that the walk gave a distance is bound in the environment it leads to when it is read or
assigned, so that neither fails, unless it occurs in the initializer of the variable it stands
for, as what is assigned or in a lambda. -/
theorem resolved_name_bound (h : History s g ran) (fuel : Nat) (input : Input) {p : Site}
    {name : Token} {d : Nat} {m : Machine}
    (mem : .accessed p name (some d) m ∈ (input.watch fuel s g).2.marks) :
    ∃ program ∈ input.programs ++ ran, Site.Within program p ∧ p.Names name (some d) ∧
      (((∃ v, Run.lookUp name (some d) m = .ok v m) ∧
          ∀ v, ∃ m', Run.assign name (some d) v m = .ok () m') ∨
        p.InOwnInitializer program name.lexeme d) := by
  obtain ⟨program, ran, within, names, _, leads⟩ := h.fits fuel input _ mem
  exact ⟨program, ran, within, names, (leads d rfl).2⟩

/-- A parameter is bound when a function that an earlier program made reads it. -/
theorem resolved_name_bound_kept : ∃ s g p name m,
    .accessed p name (some 1) m ∈ ((Input.line "f()").watch 30 s g).2.marks ∧
      (Bound m name 1 ∨ ∃ program, p.InOwnInitializer program name.lexeme 1) := by
  let make : Input := .program "fun k(x){return lambda()x;} var f=k(nil);"
  let start := Session.initial .unlimited .unlimited fun _ => 0
  let made := make.watch 30 start Log.empty
  have ends : made.1.any (fun r => ((Input.line "f()").watch 30 r.2 made.2).2.marks.any
      (Mark.isAccess 1)) = true := by decide +kernel
  obtain ⟨⟨status, s⟩, ended, kept⟩ := (Option.any_eq_true _ _).mp ends
  have history : History s made.2 (make.programs ++ []) :=
    .step 30 make (.initial .unlimited .unlimited fun _ => 0) (Prod.ext ended rfl)
  obtain ⟨mark, mem, accessed⟩ := List.any_eq_true.mp kept
  cases mark with
  | reached => cases accessed
  | accessed p name depth m =>
    obtain rfl : depth = some 1 := of_decide_eq_true accessed
    obtain ⟨program, _, _, _, bound⟩ := resolved_name_bound history 30 (.line "f()") mem
    exact ⟨s, made.2, p, name, m, mem, bound.imp id fun own => ⟨program, own⟩⟩

end Session

end LoxLang
