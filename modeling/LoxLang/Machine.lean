import LoxLang.Environment
import LoxLang.Output
import LoxLang.Value
/-!
The state of a running program, and runs as functions on it. A run gives a value or fails, and
leaves a state in both cases; `starved` is the answer of a run that used up the depth it was
given. Readings of the clock are part of the state.
-/
namespace LoxLang

/-- The state of a running program. -/
structure Machine where
  environments : Forest Value
  /-- The fields of every instance, by number. -/
  instances : Array (Bindings Value)
  /-- The number of the next function or class. -/
  nextId : Nat
  /-- The environment that statements run in. -/
  current : Nat
  /-- The calls that are under way. -/
  callDepth : Nat
  out : Sink
  /-- What the clock shows when it is read for the n-th time. -/
  clock : Nat → Float
  /-- How often the clock was read. -/
  readings : Nat

namespace Machine

def globals : Nat := 0

def natives : Bindings Value :=
  [Native.clock, Native.print].map fun n => (n.name, .callable (.native n))

/-- Only the native functions are bound. -/
def initial (out : Sink) (clock : Nat → Float) : Machine where
  environments := Forest.empty.push none natives
  instances := #[]
  nextId := 0
  current := globals
  callDepth := 0
  out := out
  clock := clock
  readings := 0

def global? (m : Machine) (name : String) : Option Value :=
  m.environments.findHere? globals name

def defineGlobal (m : Machine) (name : String) (v : Value) : Machine :=
  { m with environments := m.environments.define globals name v }

def fields (m : Machine) (id : Nat) : Bindings Value := m.instances.getD id []

/-- What was written, and the machine with its output emptied of it. -/
def drain (m : Machine) : String × Machine :=
  let (text, out) := m.out.drain
  (text, { m with out := out })

end Machine

/-- What a run comes to. -/
inductive Outcome (α : Type) where
  | ok (value : α) (state : Machine)
  | fail (failure : Failure) (state : Machine)
  | starved

def Run (α : Type) : Type := Machine → Outcome α

namespace Run

@[always_inline, inline]
protected def pure {α : Type} (a : α) : Run α := fun m => .ok a m

@[always_inline, inline]
protected def bind {α β : Type} (r : Run α) (f : α → Run β) : Run β := fun m =>
  match r m with
  | .ok a m => f a m
  | .fail e m => .fail e m
  | .starved => .starved

@[always_inline]
instance : Monad Run where
  pure := Run.pure
  bind := Run.bind

@[simp] theorem pure_apply {α : Type} (a : α) (m : Machine) : (pure a : Run α) m = .ok a m := rfl

theorem bind_apply {α β : Type} (r : Run α) (f : α → Run β) (m : Machine) :
    (r >>= f) m =
      match r m with
      | .ok a m => f a m
      | .fail e m => .fail e m
      | .starved => .starved := rfl

instance : LawfulMonad Run :=
  LawfulMonad.mk' Run
    (by intro α r; funext m; show Run.bind r Run.pure m = r m; unfold Run.bind; cases r m <;> rfl)
    (by intros; rfl)
    (by
      intro α β γ r f g; funext m
      show Run.bind (Run.bind r f) g m = Run.bind r (fun a => Run.bind (f a) g) m
      unfold Run.bind; cases r m <;> rfl)

/-- The run that has no depth left. -/
def starved {α : Type} : Run α := fun _ => .starved

def fault {α : Type} (token : Token) (f : RuntimeFault) : Run α := fun m =>
  .fail (.runtime ⟨f, token⟩) m

/-- The value of an operation that can fail at a token. -/
@[inline] def lift {α : Type} (token : Token) (r : Except RuntimeFault α) : Run α := fun m =>
  match r with
  | .ok a => .ok a m
  | .error f => .fail (.runtime ⟨f, token⟩) m

/-- A new number for a function or class. -/
def newId : Run Nat := fun m => .ok m.nextId { m with nextId := m.nextId + 1 }

def newEnvironment (outer : Nat) (bindings : Bindings Value) : Run Nat := fun m =>
  .ok m.environments.size
    { m with environments := m.environments.push (some outer) bindings }

def newInstance : Run Nat := fun m =>
  .ok m.instances.size { m with instances := m.instances.push [] }

/-- The environment that statements run in. -/
def current : Run Nat := fun m => .ok m.current m

/-- Runs in another environment and comes back, whatever the outcome. -/
@[inline] def within {α : Type} (environment : Nat) (r : Run α) : Run α := fun m =>
  let outer := m.current
  match r { m with current := environment } with
  | .ok a m => .ok a { m with current := outer }
  | .fail e m => .fail e { m with current := outer }
  | .starved => .starved

/-- Runs as one more call under way, if the limit allows it. -/
@[inline] def asCall {α : Type} (limit : Option Nat) (paren : Token) (r : Run α) : Run α :=
  fun m =>
  if limit.any (· ≤ m.callDepth) then .fail (.runtime ⟨.stackOverflow, paren⟩) m
  else
    match r { m with callDepth := m.callDepth + 1 } with
    | .ok a m => .ok a { m with callDepth := m.callDepth - 1 }
    | .fail e m => .fail e { m with callDepth := m.callDepth - 1 }
    | .starved => .starved

def define (name : String) (v : Value) : Run Unit := fun m =>
  .ok () { m with environments := m.environments.define m.current name v }

/-- The value of a name: in the environment at its distance, or else among the globals. -/
def lookUp (name : Token) (depth : Option Nat) : Run Value := fun m =>
  let found := match depth with
    | some d => m.environments.findAt? m.current d name.lexeme
    | none => m.environments.find? Machine.globals name.lexeme
  match found with
  | some v => .ok v m
  | none => .fail (.runtime ⟨.undefinedVariable, name⟩) m

/-- Gives a name that is bound another value. -/
def assign (name : Token) (depth : Option Nat) (v : Value) : Run Unit := fun m =>
  let holder := match depth with
    | some d => m.environments.holderAt? m.current d name.lexeme
    | none => m.environments.holder? Machine.globals name.lexeme
  match holder with
  | some h => .ok () { m with environments := m.environments.define h name.lexeme v }
  | none => .fail (.runtime ⟨.undefinedVariable, name⟩) m

/-- What `this` is bound to in an environment. -/
def receiver (environment : Nat) : Run Value := fun m =>
  .ok ((m.environments.findHere? environment "this").getD .nil) m

def field? (id : Nat) (name : String) : Run (Option Value) := fun m =>
  .ok ((m.fields id).find? name) m

/-- Gives a field of an instance a value; there need not be such a field yet. -/
def setField (id : Nat) (name : String) (v : Value) : Run Unit := fun m =>
  .ok () { m with instances := m.instances.modify id (·.put name v) }

/-- Writes a text on a line of its own. -/
def writeLine (text : String) : Run Unit := fun m =>
  match m.out.writeLine text with
  | (.ok _, out) => .ok () { m with out := out }
  | (.error f, out) => .fail (.output f) { m with out := out }

def flush : Run Unit := fun m =>
  match m.out.flush with
  | .ok _ => .ok () m
  | .error f => .fail (.output f) m

def readClock : Run Float := fun m =>
  .ok (m.clock m.readings) { m with readings := m.readings + 1 }

end Run

end LoxLang
