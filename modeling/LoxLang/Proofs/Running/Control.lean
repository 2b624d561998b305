import LoxLang.Proofs.Running.Building
import LoxLang.Proofs.Running.Sessions
/-!
Control comes back. The control state of a machine says where statements run and how many calls are
under way. Blocks and calls change it while they run, and a failure may leave them at any point.

What is proved: whatever runs, and however it ends, the machine is then in the environment it started
in, the very same one, and has as many calls under way (`Run.restoresAll`); so between two steps of a
session statements run among the globals and no call is under way (`Session.control_restored`).

`Run.Restores` is closed under the ways runs are put together. Only `within` and `asCall` change the
control state, and each of them undoes its own change on every way out.
-/
namespace LoxLang

variable {α β : Type} {limit : Option Nat} {n : Nat}

/-- Where statements run, and how many calls are under way. -/
structure Control where
  current : Nat
  callDepth : Nat
  deriving DecidableEq, Repr

/-- The control state of a machine. -/
def Machine.control (m : Machine) : Control := ⟨m.current, m.callDepth⟩

/-- The state a run ends in, with a value or with a failure. -/
def Outcome.state? : Outcome α → Option Machine
  | .ok _ m => some m
  | .fail _ m => some m
  | .starved => none

namespace Run

/-! Ends of runs that are put together -/

section

variable {r : Run α} {next : α → Run β} {m m' : Machine}

/-- A run of two parts that ended: the first part failed, or both ended. -/
theorem ended_bind (ended : ((r >>= next) m).state? = some m') :
    (∃ f, r m = .fail f m') ∨ ∃ a m₁, r m = .ok a m₁ ∧ (next a m₁).state? = some m' := by
  rw [bind_apply] at ended
  cases eq : r m with
  | ok a m₁ =>
    rw [eq] at ended
    exact .inr ⟨a, m₁, rfl, ended⟩
  | fail f m₁ =>
    rw [eq] at ended
    cases ended
    exact .inl ⟨f, rfl⟩
  | starved =>
    rw [eq] at ended
    cases ended

theorem state?_within (e : Nat) (r : Run α) (m : Machine) : (within e r m).state? =
    (r { m with current := e }).state?.map fun b => { b with current := m.current } := by
  unfold within
  dsimp only
  cases r { m with current := e } <;> rfl

/-- What runs in another environment and ends is back where it began. -/
theorem ended_within {e : Nat} (ended : (within e r m).state? = some m') :
    ∃ m₁, (r { m with current := e }).state? = some m₁ ∧ m' = { m₁ with current := m.current } := by
  rw [state?_within, Option.map_eq_some_iff] at ended
  obtain ⟨m₁, inside, rfl⟩ := ended
  exact ⟨m₁, inside, rfl⟩

/-- A call too many is refused before anything changes; any other is no longer counted when it has ended. -/
theorem ended_asCall {paren : Token} (ended : (asCall limit paren r m).state? = some m') :
    m' = m ∨ ∃ m₁, (r { m with callDepth := m.callDepth + 1 }).state? = some m₁ ∧
      m' = { m₁ with callDepth := m₁.callDepth - 1 } := by
  unfold asCall at ended
  split at ended
  · exact .inl (Option.some.inj ended).symm
  · refine .inr ?_
    cases eq : r { m with callDepth := m.callDepth + 1 } with
    | ok a m₁ =>
      rw [eq] at ended
      exact ⟨m₁, rfl, (Option.some.inj ended).symm⟩
    | fail e m₁ =>
      rw [eq] at ended
      exact ⟨m₁, rfl, (Option.some.inj ended).symm⟩
    | starved =>
      rw [eq] at ended
      cases ended

end

/-- However the run ends, the control state is what it was. -/
def Restores (r : Run α) : Prop :=
  ∀ m m' : Machine, (r m).state? = some m' → m'.control = m.control

namespace Restores

variable {r : Run α} {next : α → Run β}

theorem of_step (h : ∀ m, ∃ m', (r m).state? = some m' ∧ m'.control = m.control) :
    Restores r := by
  intro m m' ended
  obtain ⟨m₁, ended', same⟩ := h m
  rw [ended'] at ended
  cases ended
  exact same

theorem pure (a : α) : Restores (pure a : Run α) := .of_step fun m => ⟨m, rfl, rfl⟩

theorem starved : Restores (Run.starved : Run α) := fun _ _ ended => nomatch ended

theorem bind (h : Restores r) (h' : ∀ a, Restores (next a)) : Restores (r >>= next) := by
  intro m m' ended
  rcases ended_bind ended with ⟨f, failed⟩ | ⟨a, m₁, first, ended⟩
  · exact h m m' (by rw [failed]; rfl)
  · exact (h' a m₁ m' ended).trans (h m m₁ (by rw [first]; rfl))

theorem within (environment : Nat) (h : Restores r) : Restores (within environment r) := by
  intro m m' ended
  obtain ⟨m₁, inside, rfl⟩ := ended_within ended
  exact congrArg (Control.mk m.current) (congrArg Control.callDepth (h _ m₁ inside))

theorem asCall (paren : Token) (h : Restores r) : Restores (asCall limit paren r) := by
  intro m m' ended
  rcases ended_asCall ended with rfl | ⟨m₁, inside, rfl⟩
  · rfl
  · obtain ⟨current, callDepth⟩ := Control.mk.inj (h _ m₁ inside)
    exact Control.mk.injEq .. ▸ ⟨current, by dsimp only at callDepth ⊢; omega⟩

end Restores

/-! Steps -/

theorem fault_restores (token : Token) (f : RuntimeFault) : Restores (fault token f : Run α) :=
  .of_step fun m => ⟨m, rfl, rfl⟩

theorem lift_restores (token : Token) (r : Except RuntimeFault α) : Restores (lift token r) := by
  cases r with
  | ok a => exact .pure a
  | error f => exact fault_restores token f

theorem newId_restores : Restores newId := .of_step fun _ => ⟨_, rfl, rfl⟩

theorem newEnvironment_restores (outer : Nat) (bindings : Bindings Value) :
    Restores (newEnvironment outer bindings) := .of_step fun _ => ⟨_, rfl, rfl⟩

theorem newInstance_restores : Restores newInstance := .of_step fun _ => ⟨_, rfl, rfl⟩

theorem current_restores : Restores current := .of_step fun m => ⟨m, rfl, rfl⟩

theorem define_restores (name : String) (v : Value) : Restores (define name v) :=
  .of_step fun _ => ⟨_, rfl, rfl⟩

theorem lookUp_restores (name : Token) (depth : Option Nat) : Restores (lookUp name depth) := by
  refine .of_step fun m => ?_
  unfold lookUp
  dsimp only
  split
  · exact ⟨m, rfl, rfl⟩
  · exact ⟨m, rfl, rfl⟩

theorem assign_restores (name : Token) (depth : Option Nat) (v : Value) :
    Restores (assign name depth v) := by
  refine .of_step fun m => ?_
  unfold assign
  dsimp only
  split
  · exact ⟨_, rfl, rfl⟩
  · exact ⟨m, rfl, rfl⟩

theorem receiver_restores (environment : Nat) : Restores (receiver environment) :=
  .of_step fun m => ⟨m, rfl, rfl⟩

theorem field?_restores (id : Nat) (name : String) : Restores (field? id name) :=
  .of_step fun m => ⟨m, rfl, rfl⟩

theorem setField_restores (id : Nat) (name : String) (v : Value) :
    Restores (setField id name v) := .of_step fun _ => ⟨_, rfl, rfl⟩

theorem writeLine_restores (text : String) : Restores (writeLine text) := by
  refine .of_step fun m => ?_
  unfold writeLine
  split
  · exact ⟨_, rfl, rfl⟩
  · exact ⟨_, rfl, rfl⟩

theorem flush_restores : Restores flush := by
  refine .of_step fun m => ?_
  unfold flush
  split
  · exact ⟨m, rfl, rfl⟩
  · exact ⟨m, rfl, rfl⟩

theorem readClock_restores : Restores readClock := .of_step fun _ => ⟨_, rfl, rfl⟩

theorem restores_builds : Builds fun r => Restores r where
  pure := .pure
  bind := .bind
  within := .within
  newId := newId_restores
  current := current_restores
  newEnvironment := newEnvironment_restores
  field? := field?_restores
  writeLine := writeLine_restores
  readClock := readClock_restores

/-! Expressions, statements and calls -/

/-- What is proved of all runs of one depth. -/
structure RestoresAll (limit : Option Nat) (n : Nat) : Prop where
  evaluate : ∀ e, Restores (evaluate limit n e)
  evaluateAll : ∀ es, Restores (evaluateAll limit n es)
  execute : ∀ s, Restores (execute limit n s)
  executeAll : ∀ ss, Restores (executeAll limit n ss)
  declareAll : ∀ ds, Restores (declareAll limit n ds)
  call : ∀ c vs, Restores (call limit n c vs)

theorem evaluate_restores (ih : RestoresAll limit n) (e : Expr) :
    Restores (evaluate limit (n + 1) e) := by
  cases e with
  | literal value => exact .pure _
  | group inner => exact ih.evaluate inner
  | unary op right =>
    apply (ih.evaluate right).bind
    intro v
    exact lift_restores _ _
  | binary left op right =>
    apply (ih.evaluate left).bind
    intro v
    apply (ih.evaluate right).bind
    intro w
    exact lift_restores _ _
  | logical left op right =>
    apply (ih.evaluate left).bind
    intro v
    split
    · exact .pure v
    · exact ih.evaluate right
  | ternary condition whenTrue whenFalse =>
    apply (ih.evaluate condition).bind
    intro v
    split
    · exact ih.evaluate whenTrue
    · exact ih.evaluate whenFalse
  | «variable» name depth => exact lookUp_restores _ _
  | «this» keyword depth => exact lookUp_restores _ _
  | assign name value depth =>
    apply (ih.evaluate value).bind
    intro v
    apply (assign_restores name depth v).bind
    intro _
    exact .pure v
  | call callee paren arguments =>
    apply (ih.evaluate callee).bind
    intro v
    apply (ih.evaluateAll arguments).bind
    intro vs
    cases v with
    | callable c =>
      dsimp only
      split
      · exact (ih.call c vs).asCall paren
      · exact fault_restores _ _
    | _ => exact fault_restores _ _
  | property object name =>
    apply (ih.evaluate object).bind
    intro v
    exact restores_builds.member v (fault_restores _ _) (fault_restores _ _)
  | setProperty object name value =>
    apply (ih.evaluate object).bind
    intro v
    cases v with
    | object i c =>
      apply (ih.evaluate value).bind
      intro w
      apply (setField_restores i name.lexeme w).bind
      intro _
      exact .pure w
    | _ => exact fault_restores _ _
  | lambda code =>
    apply (restores_builds.newClosure code false).bind
    intro f
    exact .pure _

theorem evaluateAll_restores (ih : RestoresAll limit n) (es : List Expr) :
    Restores (evaluateAll limit (n + 1) es) := by
  cases es with
  | nil => exact .pure _
  | cons e es =>
    apply (ih.evaluate e).bind
    intro v
    apply (ih.evaluateAll es).bind
    intro vs
    exact .pure _

theorem execute_restores (ih : RestoresAll limit n) (s : Stmt) :
    Restores (execute limit (n + 1) s) := by
  cases s with
  | expression value =>
    apply (ih.evaluate value).bind
    intro v
    exact .pure _
  | print value =>
    apply (ih.evaluate value).bind
    intro v
    apply (writeLine_restores v.text).bind
    intro _
    exact .pure _
  | declare d => exact ih.declareAll [d]
  | declareAll ds => exact ih.declareAll ds
  | block body =>
    apply current_restores.bind
    intro here
    apply (newEnvironment_restores here []).bind
    intro scope
    exact (ih.executeAll body).within scope
  | conditional condition whenTrue whenFalse =>
    apply (ih.evaluate condition).bind
    intro v
    split
    · exact ih.execute whenTrue
    · cases whenFalse with
      | none => exact .pure _
      | some whenFalse => exact ih.execute whenFalse
  | loop condition body =>
    apply (ih.evaluate condition).bind
    intro v
    split
    · apply (ih.execute body).bind
      intro flow
      cases flow with
      | normal => exact ih.execute (.loop condition body)
      | returned v => exact .pure _
    · exact .pure _
  | declareFunction code =>
    apply (restores_builds.newClosure code false).bind
    intro f
    apply (define_restores _ _).bind
    intro _
    exact .pure _
  | returns keyword value =>
    cases value with
    | none => exact .pure _
    | some value =>
      apply (ih.evaluate value).bind
      intro v
      exact .pure _
  | declareClass name methods statics =>
    apply (restores_builds.newClass _ methods statics).bind
    intro c
    apply (define_restores _ _).bind
    intro _
    exact .pure _

theorem executeAll_restores (ih : RestoresAll limit n) (ss : List Stmt) :
    Restores (executeAll limit (n + 1) ss) := by
  cases ss with
  | nil => exact .pure _
  | cons s ss =>
    apply (ih.execute s).bind
    intro flow
    cases flow with
    | normal => exact ih.executeAll ss
    | returned v => exact .pure _

theorem declareAll_restores (ih : RestoresAll limit n) (ds : List Declarator) :
    Restores (declareAll limit (n + 1) ds) := by
  cases ds with
  | nil => exact .pure _
  | cons d ds =>
    obtain ⟨name, initial⟩ := d
    have others : ∀ v, Restores (define name.lexeme v >>= fun _ => declareAll limit n ds) := by
      intro v
      apply (define_restores name.lexeme v).bind
      intro _
      exact ih.declareAll ds
    cases initial with
    | none => exact (Restores.pure _).bind others
    | some e => exact (ih.evaluate e).bind others

theorem call_restores (ih : RestoresAll limit n) (c : Callable) (vs : List Value) :
    Restores (call limit (n + 1) c vs) := by
  cases c with
  | function f =>
    apply (newEnvironment_restores _ _).bind
    intro scope
    apply ((ih.executeAll f.code.body).within scope).bind
    intro flow
    split
    · exact receiver_restores _
    · exact .pure _
  | native native => exact restores_builds.callNative native vs
  | ofClass c =>
    apply newInstance_restores.bind
    intro i
    cases c.method? Class.initializerName with
    | none => exact .pure _
    | some f =>
      apply (restores_builds.bindThis f _).bind
      intro bound
      apply (ih.call (.function bound) vs).bind
      intro v
      exact .pure _

/-- Whatever runs restores the control state. -/
theorem restoresAll (limit : Option Nat) : ∀ n, RestoresAll limit n
  | 0 => ⟨fun _ => .starved, fun _ => .starved, fun _ => .starved, fun _ => .starved,
      fun _ => .starved, fun _ _ => .starved⟩
  | n + 1 =>
    have ih := restoresAll limit n
    ⟨evaluate_restores ih, evaluateAll_restores ih, execute_restores ih, executeAll_restores ih,
      declareAll_restores ih, call_restores ih⟩

theorem executeProgram_restores (limit : Option Nat) (n : Nat) (program : List Stmt) :
    Restores (executeProgram limit n program) := by
  induction program with
  | nil => exact .pure ()
  | cons s ss ih =>
    apply ((restoresAll limit n).execute s).bind
    intro flow
    exact ih

/-- The flush at the end changes nothing either, and it may replace the failure by its own. -/
theorem interpret_restores (limit : Option Nat) (n : Nat) (program : List Stmt) :
    Restores (interpret limit n program) := by
  intro m m' ended
  have before := executeProgram_restores limit n program m
  unfold interpret at ended
  cases eq : executeProgram limit n program m with
  | ok _ m₁ =>
    rw [eq] at ended before
    exact (flush_restores m₁ m' ended).trans (before m₁ rfl)
  | fail e m₁ =>
    rw [eq] at ended before
    have after := flush_restores m₁
    dsimp only at ended
    cases flushed : flush m₁ with
    | ok _ m₂ =>
      rw [flushed] at ended after
      cases ended
      exact (after m' rfl).trans (before m₁ rfl)
    | fail e' m₂ =>
      rw [flushed] at ended after
      exact (after m' ended).trans (before m₁ rfl)
    | starved =>
      rw [flushed] at ended
      cases ended
  | starved =>
    rw [eq] at ended
    cases ended

end Run

/-! Sessions -/

namespace Session

variable {s s' : Session} {g : Log} {ran : List (List Stmt)} {status : Status} {fuel : Nat}

theorem execute_restores {program : List Stmt}
    (ended : s.execute fuel program = some (status, s')) :
    s'.machine.control = s.machine.control := by
  unfold execute at ended
  dsimp only [report] at ended
  have restores := Run.interpret_restores (some maxCallDepth) fuel
    (Resolution.ofProgram program).1 s.machine
  split at ended
  · split at ended
    · rename_i m eq
      rw [eq] at restores
      cases ended
      exact restores m rfl
    · rename_i e m eq
      rw [eq] at restores
      cases ended
      exact restores m rfl
    · cases ended
  · cases ended
    rfl

theorem finish_restores {scan : Scan} {parsed : Except (List SyntaxError) (List Stmt)}
    (ended : s.finish fuel scan parsed = some (status, s')) :
    s'.machine.control = s.machine.control := by
  unfold finish at ended
  cases parsed with
  | error errors =>
    cases ended
    rfl
  | ok program =>
    dsimp only at ended
    split at ended
    · have restored := execute_restores ended
      exact restored
    · cases ended
      rfl

theorem Input.run_restores {input : Input} (ended : input.run fuel s = some (status, s')) :
    s'.machine.control = s.machine.control := by
  cases input with
  | program source => exact finish_restores ended
  | line text =>
    unfold run runPromptLine at ended
    dsimp only at ended
    split at ended
    · cases ended
      rfl
    · exact finish_restores ended

/-- Between two steps statements run among the globals, and no call is under way. -/
theorem History.control (h : History s g ran) : s.machine.control = ⟨Machine.globals, 0⟩ := by
  induction h with
  | initial out reports clock => rfl
  | @step s s' g g' ran status fuel input _ ended ih =>
    have unwatched := input.watch_eq fuel s g
    rw [ended] at unwatched
    exact (Input.run_restores unwatched.symm).trans ih
  | drained out reports _ ih => exact ih

/-- The control state is restored by whatever runs, on whatever machine and however it ends: by
expressions, statements, lists of them, the body of a block or function in its own scope, programs,
and callables called with or without the limit on calls. So after every step of a session, failed
or not, statements run among the globals and no call is under way. -/
theorem control_restored :
    (∀ (limit : Option Nat) (n : Nat),
      (∀ e, (Run.evaluate limit n e).Restores) ∧
      (∀ es, (Run.evaluateAll limit n es).Restores) ∧
      (∀ s, (Run.execute limit n s).Restores) ∧
      (∀ scope ss, (Run.within scope (Run.executeAll limit n ss)).Restores) ∧
      (∀ program, (Run.interpret limit n program).Restores) ∧
      (∀ c vs, (Run.call limit n c vs).Restores) ∧
      ∀ paren c vs, (Run.asCall limit paren (Run.call limit n c vs)).Restores) ∧
    (∀ (s : Session) (g : Log) (ran : List (List Stmt)), History s g ran →
      ∀ (fuel : Nat) (input : Input) (status : Status) (s' : Session),
        input.run fuel s = some (status, s') →
          s'.machine.current = Machine.globals ∧ s'.machine.callDepth = 0) := by
  constructor
  · intro limit n
    have all := Run.restoresAll limit n
    exact ⟨all.evaluate, all.evaluateAll, all.execute, fun scope ss => (all.executeAll ss).within scope,
      Run.interpret_restores limit n, all.call, fun paren c vs => (all.call c vs).asCall paren⟩
  · intro s g ran history fuel input status s' ended
    have control := (Input.run_restores ended).trans history.control
    exact Control.mk.inj control

/-- A name is not found inside a block, inside a function, inside a call: the step fails, and leaves
the machine among the globals with no call under way. -/
theorem control_restored_failing :
    let start := Session.initial .unlimited .unlimited fun _ => 0
    ∃ s', (Input.program "fun f(a) { { return b; } } f(f);").run 30 start =
        some (.runtimeError, s') ∧
      s'.machine.current = Machine.globals ∧ s'.machine.callDepth = 0 := by
  intro start
  have fails : ((Input.program "fun f(a) { { return b; } } f(f);").run 30 start).any
      (fun r => r.1 = .runtimeError) = true := by decide +kernel
  obtain ⟨⟨status, s'⟩, ended, failed⟩ := (Option.any_eq_true _ _).mp fails
  obtain rfl : status = .runtimeError := of_decide_eq_true failed
  have restored := control_restored.2 start Log.empty [] (.initial .unlimited .unlimited fun _ => 0)
    30 _ _ s' ended
  exact ⟨s', ended, restored⟩

end Session

end LoxLang
