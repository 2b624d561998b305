import LoxLang.Proofs.Running.Abreast
import LoxLang.Proofs.Running.Control
/-!
Runs that tell what they come by. A traced run does what the run does; it is told which calls are under way,
and tells of every step it takes the state in front of it and the state behind it, with the calls that are
under way then. What calls are under way is said by the expressions alone: those of the call expressions whose
callee is executing. The counter of the machine has no part in it.

What holds of steps, and is kept by the ways in which runs are put together, holds of every run
(`Traced.every`). It may compare a run traced under one limit and under another one.

What is proved: tracing changes nothing (`Traced.erases_interpret`).
-/
namespace LoxLang

variable {α β : Type}

/-- A state that is left is one that was left inside, changed on the way back. -/
theorem Outcome.of_state?_leave {back : Machine → Machine} {o : Outcome α} {m' : Machine}
    (ended : (o.leave back).state? = some m') : ∃ m, o.state? = some m ∧ back m = m' := by
  cases o with
  | ok a m => exact ⟨m, rfl, Option.some.inj ended⟩
  | fail e m => exact ⟨m, rfl, Option.some.inj ended⟩
  | starved => cases ended

/-! Steps -/

/-- One sink was the other one before more text was written to it. -/
def Sink.Grows (s s' : Sink) : Prop := s'.flushFails = s.flushFails ∧ ∃ more, s'.text = s.text ++ more

namespace Sink.Grows

variable {s s' s'' : Sink}

theorem refl (s : Sink) : s.Grows s := ⟨rfl, "", by simp⟩

theorem trans (h : s.Grows s') (h' : s'.Grows s'') : s.Grows s'' := by
  obtain ⟨flushes, more, text⟩ := h
  obtain ⟨flushes', more', text'⟩ := h'
  exact ⟨flushes'.trans flushes, more ++ more', by rw [text', text, String.append_assoc]⟩

theorem write (s : Sink) (text : String) : s.Grows (s.write text).2 := by
  unfold Sink.write
  split
  · exact ⟨rfl, text, rfl⟩
  · exact ⟨rfl, _, rfl⟩

end Sink.Grows

namespace Run

def Writes (r : Run α) : Prop := ∀ m m', (r m).state? = some m' → m.out.Grows m'.out

/-- A step: a run in which no call is made. -/
structure Step (r : Run α) : Prop where
  restores : Restores r
  writes : Writes r

namespace Writes

variable {r : Run α} {next : α → Run β}

theorem of_same (h : ∀ m m', (r m).state? = some m' → m'.out = m.out) : Writes r := by
  intro m m' ended
  rw [h m m' ended]
  exact .refl _

theorem pure (a : α) : Writes (pure a : Run α) := .of_same fun _ _ ended => by cases ended; rfl

theorem bind (h : Writes r) (h' : ∀ a, Writes (next a)) : Writes (r >>= next) := by
  intro m m' ended
  rcases ended_bind ended with ⟨f, failed⟩ | ⟨a, m₁, first, ended⟩
  · exact h m m' (by rw [failed]; rfl)
  · exact (h m m₁ (by rw [first]; rfl)).trans (h' a m₁ m' ended)

theorem within (environment : Nat) (h : Writes r) : Writes (within environment r) := by
  intro m m' ended
  obtain ⟨m₁, inside, rfl⟩ := ended_within ended
  have written := h _ m₁ inside
  exact written

end Writes

namespace Step

variable {r : Run α} {next : α → Run β}

theorem pure (a : α) : Step (pure a : Run α) := ⟨.pure a, .pure a⟩

theorem starved : Step (Run.starved : Run α) := ⟨.starved, fun _ _ ended => nomatch ended⟩

theorem bind (h : Step r) (h' : ∀ a, Step (next a)) : Step (r >>= next) :=
  ⟨h.restores.bind fun a => (h' a).restores, h.writes.bind fun a => (h' a).writes⟩

theorem within (environment : Nat) (h : Step r) : Step (within environment r) :=
  ⟨h.restores.within environment, h.writes.within environment⟩

end Step

theorem fault_step (token : Token) (f : RuntimeFault) : Step (fault token f : Run α) :=
  ⟨fault_restores token f, .of_same fun _ _ ended => by cases ended; rfl⟩

theorem lift_step (token : Token) (r : Except RuntimeFault α) : Step (lift token r) := by
  cases r with
  | ok a => exact .pure a
  | error f => exact fault_step token f

theorem newId_step : Step newId := ⟨newId_restores, .of_same fun _ _ ended => by cases ended; rfl⟩

theorem newEnvironment_step (outer : Nat) (bindings : Bindings Value) :
    Step (newEnvironment outer bindings) :=
  ⟨newEnvironment_restores outer bindings, .of_same fun _ _ ended => by cases ended; rfl⟩

theorem newInstance_step : Step newInstance :=
  ⟨newInstance_restores, .of_same fun _ _ ended => by cases ended; rfl⟩

theorem current_step : Step current := ⟨current_restores, .of_same fun _ _ ended => by cases ended; rfl⟩

theorem define_step (name : String) (v : Value) : Step (define name v) :=
  ⟨define_restores name v, .of_same fun _ _ ended => by cases ended; rfl⟩

theorem lookUp_step (name : Token) (depth : Option Nat) : Step (lookUp name depth) := by
  refine ⟨lookUp_restores name depth, .of_same fun m m' ended => ?_⟩
  rw [lookUp_apply] at ended
  cases found : m.named? name.lexeme depth with
  | none =>
    rw [found] at ended
    cases ended
    rfl
  | some v =>
    rw [found] at ended
    cases ended
    rfl

theorem assign_step (name : Token) (depth : Option Nat) (v : Value) : Step (assign name depth v) := by
  refine ⟨assign_restores name depth v, .of_same fun m m' ended => ?_⟩
  rw [assign_apply] at ended
  cases found : m.holding? name.lexeme depth with
  | none =>
    rw [found] at ended
    cases ended
    rfl
  | some e =>
    rw [found] at ended
    cases ended
    rfl

theorem receiver_step (environment : Nat) : Step (receiver environment) :=
  ⟨receiver_restores environment, .of_same fun _ _ ended => by cases ended; rfl⟩

theorem field?_step (id : Nat) (name : String) : Step (field? id name) :=
  ⟨field?_restores id name, .of_same fun _ _ ended => by cases ended; rfl⟩

theorem setField_step (id : Nat) (name : String) (v : Value) : Step (setField id name v) :=
  ⟨setField_restores id name v, .of_same fun _ _ ended => by cases ended; rfl⟩

theorem readClock_step : Step readClock :=
  ⟨readClock_restores, .of_same fun _ _ ended => by cases ended; rfl⟩

theorem writeLine_step (text : String) : Step (writeLine text) := by
  refine ⟨writeLine_restores text, fun m m' ended => ?_⟩
  have written := Sink.Grows.write m.out (text ++ "\n")
  unfold writeLine Sink.writeLine at ended
  split at ended
  · rename_i eq
    rw [eq] at written
    cases ended
    exact written
  · rename_i eq
    rw [eq] at written
    cases ended
    exact written

theorem step_builds : Builds fun r => Step r where
  pure := .pure
  bind := .bind
  within := .within
  newId := newId_step
  current := current_step
  newEnvironment := newEnvironment_step
  field? := field?_step
  writeLine := writeLine_step
  readClock := readClock_step

end Run

/-! Traced runs -/

/-- A moment of a run: the calls that are under way, by their closing parentheses and the latest first, and
the state. -/
structure Moment where
  calls : List Token
  state : Machine

/-- A traced run. It is told the calls that are under way, and tells the moments it comes by in order. -/
def Traced (α : Type) : Type := List Token → Machine → Outcome α × List Moment

namespace Traced

/-- A step, the moment in front of it and the moment behind it. -/
def step (r : Run α) : Traced α := fun calls m =>
  (r m, ⟨calls, m⟩ :: (r m).state?.toList.map (Moment.mk calls))

protected def bind (w : Traced α) (next : α → Traced β) : Traced β := fun calls m =>
  match w calls m with
  | (.ok a m, moments) => ((next a calls m).1, moments ++ (next a calls m).2)
  | (.fail e m, moments) => (.fail e m, moments)
  | (.starved, moments) => (.starved, moments)

instance : Monad Traced where
  pure a := fun _ m => (.ok a m, [])
  bind := Traced.bind

def within (environment : Nat) (w : Traced α) : Traced α := fun calls m =>
  let inside := w calls { m with current := environment }
  (inside.1.leave fun m' => { m' with current := m.current }, inside.2)

/-- Runs as one more call under way, if the limit allows it: the moment in front of the call, the moments
of the call, and the moment behind it. -/
def asCall (limit : Option Nat) (paren : Token) (w : Traced α) : Traced α := fun calls m =>
  if limit.any (· ≤ m.callDepth) then (.fail (.runtime ⟨.stackOverflow, paren⟩) m, [⟨calls, m⟩])
  else
    let inside := w (paren :: calls) { m with callDepth := m.callDepth + 1 }
    let back := inside.1.leave fun m' => { m' with callDepth := m'.callDepth - 1 }
    (back, ⟨calls, m⟩ :: (inside.2 ++ back.state?.toList.map (Moment.mk calls)))

section

variable (limit : Option Nat)

mutual

def evaluate : Nat → Expr → Traced Value
  | 0, _ => step Run.starved
  | n + 1, e => do
    match e with
    | .literal value => pure value.toValue
    | .group inner => evaluate n inner
    | .unary op right =>
      let right ← evaluate n right
      step (Run.lift op (right.unary? op.kind))
    | .binary left op right =>
      let left ← evaluate n left
      let right ← evaluate n right
      step (Run.lift op (left.binary? op.kind right))
    | .logical left op right =>
      let left ← evaluate n left
      if left.truthy == op.isKeyword .or then pure left else evaluate n right
    | .ternary condition whenTrue whenFalse =>
      let condition ← evaluate n condition
      if condition.truthy then evaluate n whenTrue else evaluate n whenFalse
    | .variable name depth => step (Run.lookUp name depth)
    | .this keyword depth => step (Run.lookUp keyword depth)
    | .assign name value depth =>
      let value ← evaluate n value
      step (Run.assign name depth value)
      pure value
    | .call callee paren arguments =>
      let callee ← evaluate n callee
      let arguments ← evaluateAll n arguments
      match callee with
      | .callable c =>
        if arguments.length = c.arity then asCall limit paren (call n c arguments)
        else step (Run.fault paren (.arity c.arity arguments.length))
      | _ => step (Run.fault paren .notCallable)
    | .property object name =>
      let object ← evaluate n object
      step (Run.member object name)
    | .setProperty object name value =>
      match ← evaluate n object with
      | .object id _ =>
        let value ← evaluate n value
        step (Run.setField id name.lexeme value)
        pure value
      | _ => step (Run.fault name .noFields)
    | .lambda code =>
      let f ← step (Run.newClosure code false)
      pure (.callable (.function f))

def evaluateAll : Nat → List Expr → Traced (List Value)
  | 0, _ => step Run.starved
  | _ + 1, [] => pure []
  | n + 1, e :: es => do
    let v ← evaluate n e
    let vs ← evaluateAll n es
    pure (v :: vs)

def execute : Nat → Stmt → Traced Flow
  | 0, _ => step Run.starved
  | n + 1, s => do
    match s with
    | .expression value =>
      let _ ← evaluate n value
      pure .normal
    | .print value =>
      let value ← evaluate n value
      step (Run.writeLine value.text)
      pure .normal
    | .declare d => declareAll n [d]
    | .declareAll ds => declareAll n ds
    | .block body =>
      let outer ← step Run.current
      let scope ← step (Run.newEnvironment outer [])
      within scope (executeAll n body)
    | .conditional condition whenTrue whenFalse =>
      let condition ← evaluate n condition
      if condition.truthy then execute n whenTrue
      else match whenFalse with
        | some s => execute n s
        | none => pure .normal
    | .loop condition body =>
      let again ← evaluate n condition
      if again.truthy then
        match ← execute n body with
        | .normal => execute n s
        | .returned v => pure (.returned v)
      else pure .normal
    | .declareFunction code =>
      let f ← step (Run.newClosure code false)
      step (Run.define code.name.lexeme (.callable (.function f)))
      pure .normal
    | .returns _ none => pure (.returned .nil)
    | .returns _ (some value) =>
      let value ← evaluate n value
      pure (.returned value)
    | .declareClass name methods statics =>
      let c ← step (Run.newClass name.lexeme methods statics)
      step (Run.define name.lexeme (.callable (.ofClass c)))
      pure .normal

/-- Runs statements in order, up to the first that returns. -/
def executeAll : Nat → List Stmt → Traced Flow
  | 0, _ => step Run.starved
  | _ + 1, [] => pure .normal
  | n + 1, s :: ss => do
    match ← execute n s with
    | .normal => executeAll n ss
    | .returned v => pure (.returned v)

def declareAll : Nat → List Declarator → Traced Flow
  | 0, _ => step Run.starved
  | _ + 1, [] => pure .normal
  | n + 1, d :: ds => do
    let v ← match d.initial with
      | some e => evaluate n e
      | none => pure .nil
    step (Run.define d.name.lexeme v)
    declareAll n ds

def call : Nat → Callable → List Value → Traced Value
  | 0, _, _ => step Run.starved
  | n + 1, c, arguments => do
    match c with
    | .function f =>
      let scope ← step (Run.newEnvironment f.scope (Run.bindParams f.code.params arguments))
      let flow ← within scope (executeAll n f.code.body)
      if f.initializer then step (Run.receiver f.scope) else pure flow.value
    | .native native => step (Run.callNative native arguments)
    | .ofClass c =>
      let id ← step Run.newInstance
      match c.method? Class.initializerName with
      | some f =>
        let f ← step (Run.bindThis f (.object id c))
        let _ ← call n (.function f) arguments
        pure (.object id c)
      | none => pure (.object id c)

end

def executeProgram (n : Nat) : List Stmt → Traced Unit
  | [] => pure ()
  | s :: ss => do
    let _ ← execute limit n s
    executeProgram n ss

def interpret (n : Nat) (program : List Stmt) : Traced Unit := fun calls m =>
  match executeProgram limit n program calls m with
  | (.ok _ m, moments) => (Run.flush m, moments)
  | (.fail e m, moments) =>
    match Run.flush m with
    | .ok _ m => (.fail e m, moments)
    | other => (other, moments)
  | (.starved, moments) => (.starved, moments)

end

/-! What holds of every run -/

/-- What is said of a run, and of the run traced under two limits, is kept by the ways in which runs are put
together. -/
structure Compositional (limit limit' : Option Nat)
    (P : {α : Type} → Run α → Traced α → Traced α → Prop) : Prop where
  pure {α : Type} (a : α) : P (pure a : Run α) (pure a) (pure a)
  step {α : Type} {r : Run α} : r.Step → P r (step r) (step r)
  bind {α β : Type} {r : Run α} {w w' : Traced α} {next : α → Run β} {later later' : α → Traced β} :
    P r w w' → (∀ a, P (next a) (later a) (later' a)) → P (r >>= next) (w >>= later) (w' >>= later')
  within {α : Type} {r : Run α} {w w' : Traced α} (environment : Nat) :
    P r w w' → P (Run.within environment r) (within environment w) (within environment w')
  asCall {α : Type} {r : Run α} {w w' : Traced α} (paren : Token) :
    P r w w' → P (Run.asCall limit paren r) (asCall limit paren w) (asCall limit' paren w')

structure Every (limit limit' : Option Nat) (P : {α : Type} → Run α → Traced α → Traced α → Prop)
    (n : Nat) : Prop where
  evaluate (e : Expr) : P (Run.evaluate limit n e) (evaluate limit n e) (evaluate limit' n e)
  evaluateAll (es : List Expr) :
    P (Run.evaluateAll limit n es) (evaluateAll limit n es) (evaluateAll limit' n es)
  execute (s : Stmt) : P (Run.execute limit n s) (execute limit n s) (execute limit' n s)
  executeAll (ss : List Stmt) :
    P (Run.executeAll limit n ss) (executeAll limit n ss) (executeAll limit' n ss)
  declareAll (ds : List Declarator) :
    P (Run.declareAll limit n ds) (declareAll limit n ds) (declareAll limit' n ds)
  call (c : Callable) (arguments : List Value) :
    P (Run.call limit n c arguments) (call limit n c arguments) (call limit' n c arguments)

section

variable {limit limit' : Option Nat} {P : {α : Type} → Run α → Traced α → Traced α → Prop} {n : Nat}

theorem evaluate_every (good : Compositional limit limit' P) (h : Every limit limit' P n) (e : Expr) :
    P (Run.evaluate limit (n + 1) e) (evaluate limit (n + 1) e) (evaluate limit' (n + 1) e) := by
  cases e with
  | literal value => exact good.pure _
  | group inner => exact h.evaluate inner
  | unary op right => exact good.bind (h.evaluate right) fun _ => good.step (Run.lift_step _ _)
  | binary left op right =>
    exact good.bind (h.evaluate left) fun _ => good.bind (h.evaluate right) fun _ =>
      good.step (Run.lift_step _ _)
  | logical left op right =>
    refine good.bind (h.evaluate left) fun left => ?_
    split
    · exact good.pure _
    · exact h.evaluate right
  | ternary condition whenTrue whenFalse =>
    refine good.bind (h.evaluate condition) fun condition => ?_
    split
    · exact h.evaluate whenTrue
    · exact h.evaluate whenFalse
  | «variable» name depth => exact good.step (Run.lookUp_step _ _)
  | «this» keyword depth => exact good.step (Run.lookUp_step _ _)
  | assign name value depth =>
    exact good.bind (h.evaluate value) fun value =>
      good.bind (good.step (Run.assign_step name depth value)) fun _ => good.pure _
  | call callee paren arguments =>
    refine good.bind (h.evaluate callee) fun callee => good.bind (h.evaluateAll arguments) fun values => ?_
    cases callee with
    | callable c =>
      dsimp only
      split
      · exact good.asCall paren (h.call c values)
      · exact good.step (Run.fault_step _ _)
    | _ => exact good.step (Run.fault_step _ _)
  | property object name =>
    exact good.bind (h.evaluate object) fun object =>
      good.step (Run.step_builds.member object (Run.fault_step _ _) (Run.fault_step _ _))
  | setProperty object name value =>
    refine good.bind (h.evaluate object) fun object => ?_
    cases object with
    | object id c =>
      exact good.bind (h.evaluate value) fun value =>
        good.bind (good.step (Run.setField_step id name.lexeme value)) fun _ => good.pure _
    | _ => exact good.step (Run.fault_step _ _)
  | lambda code => exact good.bind (good.step (Run.step_builds.newClosure code false)) fun _ => good.pure _

theorem evaluateAll_every (good : Compositional limit limit' P) (h : Every limit limit' P n)
    (es : List Expr) : P (Run.evaluateAll limit (n + 1) es) (evaluateAll limit (n + 1) es)
      (evaluateAll limit' (n + 1) es) := by
  cases es with
  | nil => exact good.pure _
  | cons e es =>
    exact good.bind (h.evaluate e) fun _ => good.bind (h.evaluateAll es) fun _ => good.pure _

theorem execute_every (good : Compositional limit limit' P) (h : Every limit limit' P n) (s : Stmt) :
    P (Run.execute limit (n + 1) s) (execute limit (n + 1) s) (execute limit' (n + 1) s) := by
  cases s with
  | expression value => exact good.bind (h.evaluate value) fun _ => good.pure _
  | print value =>
    exact good.bind (h.evaluate value) fun value =>
      good.bind (good.step (Run.writeLine_step value.text)) fun _ => good.pure _
  | declare d => exact h.declareAll [d]
  | declareAll ds => exact h.declareAll ds
  | block body =>
    exact good.bind (good.step Run.current_step) fun outer =>
      good.bind (good.step (Run.newEnvironment_step outer [])) fun scope =>
        good.within scope (h.executeAll body)
  | conditional condition whenTrue whenFalse =>
    refine good.bind (h.evaluate condition) fun condition => ?_
    split
    · exact h.execute whenTrue
    · cases whenFalse with
      | none => exact good.pure _
      | some s => exact h.execute s
  | loop condition body =>
    -- Going round again is one more run of the same statement, at one depth less.
    refine good.bind (h.evaluate condition) fun again => ?_
    split
    · refine good.bind (h.execute body) fun flow => ?_
      cases flow with
      | normal => exact h.execute (.loop condition body)
      | returned v => exact good.pure _
    · exact good.pure _
  | declareFunction code =>
    exact good.bind (good.step (Run.step_builds.newClosure code false)) fun _ =>
      good.bind (good.step (Run.define_step _ _)) fun _ => good.pure _
  | returns keyword value =>
    cases value with
    | none => exact good.pure _
    | some value => exact good.bind (h.evaluate value) fun _ => good.pure _
  | declareClass name methods statics =>
    exact good.bind (good.step (Run.step_builds.newClass _ methods statics)) fun _ =>
      good.bind (good.step (Run.define_step _ _)) fun _ => good.pure _

theorem executeAll_every (good : Compositional limit limit' P) (h : Every limit limit' P n)
    (ss : List Stmt) : P (Run.executeAll limit (n + 1) ss) (executeAll limit (n + 1) ss)
      (executeAll limit' (n + 1) ss) := by
  cases ss with
  | nil => exact good.pure _
  | cons s ss =>
    refine good.bind (h.execute s) fun flow => ?_
    cases flow with
    | normal => exact h.executeAll ss
    | returned v => exact good.pure _

theorem declareAll_every (good : Compositional limit limit' P) (h : Every limit limit' P n)
    (ds : List Declarator) : P (Run.declareAll limit (n + 1) ds) (declareAll limit (n + 1) ds)
      (declareAll limit' (n + 1) ds) := by
  cases ds with
  | nil => exact good.pure _
  | cons d ds =>
    obtain ⟨name, initial⟩ := d
    cases initial with
    | none =>
      exact good.bind (good.pure _) fun _ => good.bind (good.step (Run.define_step _ _)) fun _ =>
        h.declareAll ds
    | some e =>
      exact good.bind (h.evaluate e) fun _ => good.bind (good.step (Run.define_step _ _)) fun _ =>
        h.declareAll ds

theorem call_every (good : Compositional limit limit' P) (h : Every limit limit' P n) (c : Callable)
    (arguments : List Value) : P (Run.call limit (n + 1) c arguments) (call limit (n + 1) c arguments)
      (call limit' (n + 1) c arguments) := by
  cases c with
  | function f =>
    refine good.bind (good.step (Run.newEnvironment_step _ _)) fun scope =>
      good.bind (good.within scope (h.executeAll f.code.body)) fun flow => ?_
    split
    · exact good.step (Run.receiver_step _)
    · exact good.pure _
  | native native => exact good.step (Run.step_builds.callNative native arguments)
  | ofClass c =>
    refine good.bind (good.step Run.newInstance_step) fun id => ?_
    cases c.method? Class.initializerName with
    | none => exact good.pure _
    | some f =>
      exact good.bind (good.step (Run.step_builds.bindThis f _)) fun bound =>
        good.bind (h.call (.function bound) arguments) fun _ => good.pure _

/-- What the ways of putting runs together keep holds of every run. -/
theorem every (good : Compositional limit limit' P) : ∀ n, Every limit limit' P n
  | 0 => by constructor <;> intros <;> exact good.step .starved
  | n + 1 =>
    have h := every good n
    ⟨evaluate_every good h, evaluateAll_every good h, execute_every good h, executeAll_every good h,
      declareAll_every good h, call_every good h⟩

theorem executeProgram_every (good : Compositional limit limit' P) (n : Nat) (program : List Stmt) :
    P (Run.executeProgram limit n program) (executeProgram limit n program)
      (executeProgram limit' n program) := by
  induction program with
  | nil => exact good.pure ()
  | cons s ss ih => exact good.bind ((every good n).execute s) fun _ => ih

end

/-! Tracing changes nothing -/

section

variable {limit : Option Nat}

def Erases (r : Run α) (w : Traced α) : Prop := ∀ calls m, (w calls m).1 = r m

namespace Erases

variable {r : Run α} {w : Traced α}

theorem bind {next : α → Run β} {later : α → Traced β} (h : Erases r w)
    (h' : ∀ a, Erases (next a) (later a)) : Erases (r >>= next) (w >>= later) := by
  intro calls m
  show (Traced.bind w later calls m).1 = Run.bind r next m
  unfold Traced.bind Run.bind
  rw [← h calls m]
  rcases w calls m with ⟨_ | _ | _, moments⟩
  · exact h' _ calls _
  · rfl
  · rfl

theorem within (environment : Nat) (h : Erases r w) :
    Erases (Run.within environment r) (within environment w) := by
  intro calls m
  unfold Traced.within Run.within
  rw [← h calls { m with current := environment }]
  rcases w calls { m with current := environment } with ⟨_ | _ | _, moments⟩ <;> rfl

theorem asCall (paren : Token) (h : Erases r w) :
    Erases (Run.asCall limit paren r) (asCall limit paren w) := by
  intro calls m
  unfold Traced.asCall Run.asCall
  split
  · rfl
  · rw [← h (paren :: calls) { m with callDepth := m.callDepth + 1 }]
    rcases w (paren :: calls) { m with callDepth := m.callDepth + 1 } with ⟨_ | _ | _, moments⟩ <;> rfl

theorem compositional : Compositional limit limit fun r w _ => Erases r w where
  pure _ _ _ := rfl
  step _ _ _ := rfl
  bind := bind
  within := within
  asCall := asCall

end Erases

theorem erases_interpret (limit : Option Nat) (n : Nat) (program : List Stmt) :
    Erases (Run.interpret limit n program) (interpret limit n program) := by
  intro calls m
  unfold interpret Run.interpret
  rw [← executeProgram_every Erases.compositional n program calls m]
  rcases executeProgram limit n program calls m with ⟨_ | _ | _, moments⟩
  · rfl
  · dsimp only
    cases Run.flush _ <;> rfl
  · rfl

end

end Traced

end LoxLang
