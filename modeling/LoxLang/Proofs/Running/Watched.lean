import LoxLang.Evaluation
import LoxLang.Proofs.Resolution.Site
/-!
Runs that are watched. A watched run does what the run does and keeps a log beside the machine: it
marks every node it reaches and every name it looks up or assigns, with the site of the walk over
the names that this occurrence has, and it notes for every function that is made the site of its
code, so that the site is known again whenever the function is called.

What is proved: watching changes nothing (`erases_evaluate` and its siblings).
-/
namespace LoxLang

/-- What a run comes by. -/
inductive Mark where
  /-- The evaluator reaches a node. -/
  | reached (site : Site) (part : Part) (state : Machine)
  /-- A name is about to be looked up or assigned. -/
  | accessed (site : Site) (name : Token) (depth : Option Nat) (state : Machine)

namespace Mark

/-- Whether a node is reached that stands in so many scopes. -/
def isInside (n : Nat) : Mark → Bool
  | reached site _ _ => decide (site.before.scopes.length = n)
  | _ => false

/-- Whether a name of this distance is looked up or assigned. -/
def isAccess (d : Nat) : Mark → Bool
  | accessed _ _ depth _ => decide (depth = some d)
  | _ => false

end Mark

/-- What is noted of a run. -/
structure Log where
  /-- What the run came by, the latest first. -/
  marks : List Mark
  /-- The sites of the code of the functions, by the number of the function. -/
  origins : Nat → Option Site

def Log.empty : Log := ⟨[], fun _ => none⟩

def Watched (α : Type) : Type := Log → Machine → Outcome α × Log

namespace Watched

variable {α β : Type}

def lift (r : Run α) : Watched α := fun g m => (r m, g)

protected def bind (r : Watched α) (next : α → Watched β) : Watched β := fun g m =>
  match r g m with
  | (.ok a m, g) => next a g m
  | (.fail e m, g) => (.fail e m, g)
  | (.starved, g) => (.starved, g)

instance : Monad Watched where
  pure a := lift (Run.pure a)
  bind := Watched.bind

theorem lift_bind (r : Run α) (next : α → Run β) :
    lift (r >>= next) = lift r >>= fun a => lift (next a) := by
  funext g m
  show (Run.bind r next m, g) = Watched.bind (lift r) (fun a => lift (next a)) g m
  unfold Run.bind Watched.bind lift
  cases r m <;> rfl

def reach (p : Site) (part : Part) : Watched Unit := fun g m =>
  (.ok () m, { g with marks := .reached p part m :: g.marks })

/-- Notes that a name is about to be looked up or assigned. -/
def access (p : Site) (name : Token) (depth : Option Nat) : Watched Unit := fun g m =>
  (.ok () m, { g with marks := .accessed p name depth m :: g.marks })

/-- Notes the site of the code of a function. -/
def noteOrigin (id : Nat) (p : Option Site) : Watched Unit := fun g m =>
  (.ok () m, { g with origins := fun i => if i = id then p else g.origins i })

def originOf (id : Nat) : Watched (Option Site) := fun g m => (.ok (g.origins id) m, g)

def within (environment : Nat) (r : Watched α) : Watched α := fun g m =>
  let outer := m.current
  match r g { m with current := environment } with
  | (.ok a m, g) => (.ok a { m with current := outer }, g)
  | (.fail e m, g) => (.fail e { m with current := outer }, g)
  | (.starved, g) => (.starved, g)

/-- Runs as one more call under way, if the limit allows it. -/
def asCall (limit : Option Nat) (paren : Token) (r : Watched α) : Watched α := fun g m =>
  if limit.any (· ≤ m.callDepth) then (.fail (.runtime ⟨.stackOverflow, paren⟩) m, g)
  else
    match r g { m with callDepth := m.callDepth + 1 } with
    | (.ok a m, g) => (.ok a { m with callDepth := m.callDepth - 1 }, g)
    | (.fail e m, g) => (.fail e { m with callDepth := m.callDepth - 1 }, g)
    | (.starved, g) => (.starved, g)

/-- A function made from the code at a site. -/
def newClosure (p : Site) (code : Function) (initializer : Bool) : Watched Closure := do
  let f ← lift (Run.newClosure code initializer)
  noteOrigin f.id p
  pure f

/-- A method that knows its instance; its code is where it was. -/
def bindThis (f : Closure) (v : Value) : Watched Closure := do
  let p ← originOf f.id
  let f ← lift (Run.bindThis f v)
  noteOrigin f.id p
  pure f

def newClosures (initializer : String → Bool) : Site → List Function → Watched (List Closure)
  | _, [] => pure []
  | p, code :: rest => do
    let f ← newClosure (p.child 0) code (initializer code.name.lexeme)
    let fs ← newClosures initializer (p.child 1) rest
    pure (f :: fs)

def newClass (p : Site) (name : String) (methods statics : List Function) : Watched Class := do
  let methods ← newClosures (· == Class.initializerName) (p.child 0) methods
  let outer ← lift Run.current
  let scope ← lift (Run.newEnvironment outer [])
  let statics ← within scope (newClosures (fun _ => false) (p.child 1) statics)
  let id ← lift Run.newId
  pure ⟨id, name, methods, statics⟩

def property (id : Nat) (c : Class) (name : Token) : Watched Value := do
  match ← lift (Run.field? id name.lexeme) with
  | some v => pure v
  | none =>
    match c.method? name.lexeme, c.static? name.lexeme with
    | some f, _ =>
      let f ← bindThis f (.object id c)
      pure (.callable (.function f))
    | none, some f => pure (.callable (.function f))
    | none, none => lift (Run.fault name .undefinedProperty)

def member (v : Value) (name : Token) : Watched Value :=
  match v with
  | .object id c => property id c name
  | .callable (.ofClass c) =>
    match c.static? name.lexeme with
    | some f => pure (.callable (.function f))
    | none => lift (Run.fault name .undefinedProperty)
  | _ => lift (Run.fault name .noProperties)

section

variable (limit : Option Nat)

mutual

/-- The value of an expression that stands at a site. -/
def evaluate : Nat → Site → Expr → Watched Value
  | 0, _, _ => lift Run.starved
  | n + 1, p, e => do
    reach p (.expression e)
    match e with
    | .literal value => pure value.toValue
    | .group inner => evaluate n (p.child 0) inner
    | .unary op right =>
      let right ← evaluate n (p.child 0) right
      lift (Run.lift op (right.unary? op.kind))
    | .binary left op right =>
      let left ← evaluate n (p.child 0) left
      let right ← evaluate n (p.child 1) right
      lift (Run.lift op (left.binary? op.kind right))
    | .logical left op right =>
      let left ← evaluate n (p.child 0) left
      if left.truthy == op.isKeyword .or then pure left else evaluate n (p.child 1) right
    | .ternary condition whenTrue whenFalse =>
      let condition ← evaluate n (p.child 0) condition
      if condition.truthy then evaluate n (p.child 1) whenTrue
      else evaluate n (p.child 2) whenFalse
    | .variable name depth =>
      access p name depth
      lift (Run.lookUp name depth)
    | .this keyword depth =>
      access p keyword depth
      lift (Run.lookUp keyword depth)
    | .assign name value depth =>
      let value ← evaluate n (p.child 0) value
      access p name depth
      lift (Run.assign name depth value)
      pure value
    | .call callee paren arguments =>
      let callee ← evaluate n (p.child 0) callee
      let arguments ← evaluateAll n (p.child 1) arguments
      match callee with
      | .callable c =>
        if arguments.length = c.arity then asCall limit paren (call n c arguments)
        else lift (Run.fault paren (.arity c.arity arguments.length))
      | _ => lift (Run.fault paren .notCallable)
    | .property object name =>
      let object ← evaluate n (p.child 0) object
      member object name
    | .setProperty object name value =>
      match ← evaluate n (p.child 0) object with
      | .object id _ =>
        let value ← evaluate n (p.child 1) value
        lift (Run.setField id name.lexeme value)
        pure value
      | _ => lift (Run.fault name .noFields)
    | .lambda code =>
      let f ← newClosure (p.child 0) code false
      pure (.callable (.function f))

/-- The values of expressions that stand at a site. -/
def evaluateAll : Nat → Site → List Expr → Watched (List Value)
  | 0, _, _ => lift Run.starved
  | _ + 1, _, [] => pure []
  | n + 1, p, e :: es => do
    let v ← evaluate n (p.child 0) e
    let vs ← evaluateAll n (p.child 1) es
    pure (v :: vs)

def execute : Nat → Site → Stmt → Watched Flow
  | 0, _, _ => lift Run.starved
  | n + 1, p, s => do
    reach p (.statement s)
    match s with
    | .expression value =>
      let _ ← evaluate n (p.child 0) value
      pure .normal
    | .print value =>
      let value ← evaluate n (p.child 0) value
      lift (Run.writeLine value.text)
      pure .normal
    | .declare d => declareAll n (p.child 0) [d]
    | .declareAll ds => declareAll n (p.child 0) ds
    | .block body =>
      let outer ← lift Run.current
      let scope ← lift (Run.newEnvironment outer [])
      within scope (executeAll n (p.child 0) body)
    | .conditional condition whenTrue whenFalse =>
      let condition ← evaluate n (p.child 0) condition
      if condition.truthy then execute n (p.child 1) whenTrue
      else match whenFalse with
        | some s => execute n (p.child 2) s
        | none => pure .normal
    | .loop condition body =>
      let again ← evaluate n (p.child 0) condition
      if again.truthy then
        match ← execute n (p.child 1) body with
        | .normal => execute n p s
        | .returned v => pure (.returned v)
      else pure .normal
    | .declareFunction code =>
      let f ← newClosure (p.child 0) code false
      lift (Run.define code.name.lexeme (.callable (.function f)))
      pure .normal
    | .returns _ none => pure (.returned .nil)
    | .returns _ (some value) =>
      let value ← evaluate n (p.child 0) value
      pure (.returned value)
    | .declareClass name methods statics =>
      let c ← newClass p name.lexeme methods statics
      lift (Run.define name.lexeme (.callable (.ofClass c)))
      pure .normal

/-- Runs statements that stand at a site, up to the first that returns. -/
def executeAll : Nat → Site → List Stmt → Watched Flow
  | 0, _, _ => lift Run.starved
  | _ + 1, _, [] => pure .normal
  | n + 1, p, s :: ss => do
    match ← execute n (p.child 0) s with
    | .normal => executeAll n (p.child 1) ss
    | .returned v => pure (.returned v)

def declareAll : Nat → Site → List Declarator → Watched Flow
  | 0, _, _ => lift Run.starved
  | _ + 1, _, [] => pure .normal
  | n + 1, p, d :: ds => do
    let v ← match d.initial with
      | some e => evaluate n (p.child 0) e
      | none => pure .nil
    lift (Run.define d.name.lexeme v)
    declareAll n (p.child 1) ds

/-- Calls a callable; the site of its body is looked up. -/
def call : Nat → Callable → List Value → Watched Value
  | 0, _, _ => lift Run.starved
  | n + 1, c, arguments => do
    match c with
    | .function f =>
      let p ← originOf f.id
      let scope ← lift (Run.newEnvironment f.scope (Run.bindParams f.code.params arguments))
      let flow ← within scope (executeAll n ((p.getD default).child 0) f.code.body)
      if f.initializer then lift (Run.receiver f.scope) else pure flow.value
    | .native native => lift (Run.callNative native arguments)
    | .ofClass c =>
      let id ← lift Run.newInstance
      match c.method? Class.initializerName with
      | some f =>
        let f ← bindThis f (.object id c)
        let _ ← call n (.function f) arguments
        pure (.object id c)
      | none => pure (.object id c)

end

/-- Runs the statements of a program that stands at a site. -/
def executeProgram (n : Nat) : Site → List Stmt → Watched Unit
  | _, [] => pure ()
  | p, s :: ss => do
    let _ ← execute limit n (p.child 0) s
    executeProgram n (p.child 1) ss

def interpret (n : Nat) (p : Site) (program : List Stmt) : Watched Unit := fun g m =>
  match executeProgram limit n p program g m with
  | (.ok _ m, g) => (Run.flush m, g)
  | (.fail e m, g) =>
    match Run.flush m with
    | .ok _ m => (.fail e m, g)
    | other => (other, g)
  | (.starved, g) => (.starved, g)

end

/-! Watching changes nothing -/

def Erases (w : Watched α) (r : Run α) : Prop := ∀ g m, (w g m).1 = r m

namespace Erases

theorem lift (r : Run α) : Erases (lift r) r := fun _ _ => rfl

theorem pure (a : α) : Erases (pure a) (pure a) := fun _ _ => rfl

theorem bind {w : Watched α} {r : Run α} {next : α → Watched β} {next' : α → Run β}
    (h : Erases w r) (h' : ∀ a, Erases (next a) (next' a)) : Erases (w >>= next) (r >>= next') := by
  intro g m
  have first := h g m
  show (Watched.bind w next g m).1 = Run.bind r next' m
  unfold Watched.bind Run.bind
  rw [← first]
  split
  · rename_i a m' g' eq
    rw [eq]
    exact h' a g' m'
  · rename_i e m' g' eq
    rw [eq]
  · rename_i g' eq
    rw [eq]

theorem note {w : Watched β} {next : β → Watched α} {r : Run α}
    (h : ∀ g m, ∃ b, (w g m).1 = .ok b m) (h' : ∀ b, Erases (next b) r) : Erases (w >>= next) r := by
  intro g m
  obtain ⟨b, eq⟩ := h g m
  show (Watched.bind w next g m).1 = r m
  unfold Watched.bind
  cases hw : w g m with
  | mk o g' =>
    rw [hw] at eq
    subst eq
    exact h' b g' m

theorem within {w : Watched α} {r : Run α} (h : Erases w r) (environment : Nat) :
    Erases (within environment w) (Run.within environment r) := by
  intro g m
  unfold Watched.within Run.within
  rw [← h g { m with current := environment }]
  split <;> rename_i eq <;> rw [eq]

theorem asCall {w : Watched α} {r : Run α} (h : Erases w r) (limit : Option Nat) (paren : Token) :
    Erases (asCall limit paren w) (Run.asCall limit paren r) := by
  intro g m
  unfold Watched.asCall Run.asCall
  split
  · rfl
  · rw [← h g { m with callDepth := m.callDepth + 1 }]
    split <;> rename_i eq <;> rw [eq]

theorem newClosure (p : Site) (code : Function) (initializer : Bool) :
    Erases (newClosure p code initializer) (Run.newClosure code initializer) := fun _ _ => rfl

theorem bindThis (f : Closure) (v : Value) : Erases (bindThis f v) (Run.bindThis f v) :=
  fun _ _ => rfl

theorem newClosures (initializer : String → Bool) : ∀ (p : Site) (fs : List Function),
    Erases (newClosures initializer p fs) (Run.newClosures initializer fs)
  | _, [] => pure []
  | _, _ :: fs => (newClosure _ _ _).bind fun _ => (newClosures initializer _ fs).bind fun _ => pure _

theorem newClass (p : Site) (name : String) (methods statics : List Function) :
    Erases (newClass p name methods statics) (Run.newClass name methods statics) :=
  (newClosures _ _ _).bind fun _ => (lift _).bind fun _ => (lift _).bind fun _ =>
    ((newClosures _ _ _).within _).bind fun _ => (lift _).bind fun _ => pure _

theorem property (id : Nat) (c : Class) (name : Token) :
    Erases (property id c name) (Run.property id c name) := by
  refine (lift _).bind fun found => ?_
  cases found with
  | some v => exact pure v
  | none =>
    cases c.method? name.lexeme with
    | some f => exact (bindThis f _).bind fun _ => pure _
    | none =>
      cases c.static? name.lexeme with
      | some f => exact pure _
      | none => exact lift _

theorem member (v : Value) (name : Token) : Erases (member v name) (Run.member v name) := by
  match v with
  | .object id c => exact property id c name
  | .callable (.ofClass c) =>
    unfold Watched.member Run.member
    dsimp only
    cases c.static? name.lexeme with
    | some f => exact pure _
    | none => exact lift _
  | .callable (.function f) => exact lift _
  | .callable (.native n) => exact lift _
  | .nil => exact lift _
  | .bool b => exact lift _
  | .number x => exact lift _
  | .string s => exact lift _

end Erases

section

variable (limit : Option Nat)

structure ErasesAll (n : Nat) : Prop where
  evaluate (p : Site) (e : Expr) : Erases (evaluate limit n p e) (Run.evaluate limit n e)
  evaluateAll (p : Site) (es : List Expr) :
    Erases (evaluateAll limit n p es) (Run.evaluateAll limit n es)
  execute (p : Site) (s : Stmt) : Erases (execute limit n p s) (Run.execute limit n s)
  executeAll (p : Site) (ss : List Stmt) :
    Erases (executeAll limit n p ss) (Run.executeAll limit n ss)
  declareAll (p : Site) (ds : List Declarator) :
    Erases (declareAll limit n p ds) (Run.declareAll limit n ds)
  call (c : Callable) (arguments : List Value) :
    Erases (call limit n c arguments) (Run.call limit n c arguments)

variable {limit} {n : Nat}

theorem reach_erases {p : Site} {part : Part} {next : Unit → Watched α} {r : Run α}
    (h : Erases (next ()) r) : Erases (reach p part >>= next) r :=
  .note (fun _ _ => ⟨(), rfl⟩) fun _ => h

theorem access_erases {p : Site} {name : Token} {depth : Option Nat} {next : Unit → Watched α}
    {r : Run α} (h : Erases (next ()) r) : Erases (access p name depth >>= next) r :=
  .note (fun _ _ => ⟨(), rfl⟩) fun _ => h

theorem evaluate_erases (h : ErasesAll limit n) (p : Site) (e : Expr) :
    Erases (evaluate limit (n + 1) p e) (Run.evaluate limit (n + 1) e) := by
  refine reach_erases ?_
  cases e with
  | literal value => exact .pure _
  | group inner => exact h.evaluate _ _
  | unary op right => exact (h.evaluate _ _).bind fun _ => .lift _
  | binary left op right =>
    exact (h.evaluate _ _).bind fun _ => (h.evaluate _ _).bind fun _ => .lift _
  | logical left op right =>
    refine (h.evaluate _ _).bind fun left => ?_
    split
    · exact .pure _
    · exact h.evaluate _ _
  | ternary condition whenTrue whenFalse =>
    refine (h.evaluate _ _).bind fun condition => ?_
    split
    · exact h.evaluate _ _
    · exact h.evaluate _ _
  | «variable» name depth => exact access_erases (.lift _)
  | «this» keyword depth => exact access_erases (.lift _)
  | assign name value depth =>
    exact (h.evaluate _ _).bind fun _ => access_erases ((Erases.lift _).bind fun _ => .pure _)
  | call callee paren arguments =>
    refine (h.evaluate _ _).bind fun callee => (h.evaluateAll _ _).bind fun arguments => ?_
    cases callee with
    | callable c =>
      simp only
      split
      · exact (h.call _ _).asCall _ _
      · exact .lift _
    | _ => exact .lift _
  | property object name => exact (h.evaluate _ _).bind fun _ => .member _ _
  | setProperty object name value =>
    refine (h.evaluate _ _).bind fun object => ?_
    cases object with
    | object id c =>
      exact (h.evaluate _ _).bind fun _ => (Erases.lift _).bind fun _ => .pure _
    | _ => exact .lift _
  | lambda code => exact (Erases.newClosure _ _ _).bind fun _ => .pure _

theorem evaluateAll_erases (h : ErasesAll limit n) (p : Site) (es : List Expr) :
    Erases (evaluateAll limit (n + 1) p es) (Run.evaluateAll limit (n + 1) es) := by
  cases es with
  | nil => exact .pure _
  | cons e es => exact (h.evaluate _ _).bind fun _ => (h.evaluateAll _ _).bind fun _ => .pure _

theorem execute_erases (h : ErasesAll limit n) (p : Site) (s : Stmt) :
    Erases (execute limit (n + 1) p s) (Run.execute limit (n + 1) s) := by
  refine reach_erases ?_
  cases s with
  | expression value => exact (h.evaluate _ _).bind fun _ => .pure _
  | print value => exact (h.evaluate _ _).bind fun _ => (Erases.lift _).bind fun _ => .pure _
  | declare d => exact h.declareAll _ _
  | declareAll ds => exact h.declareAll _ _
  | block body =>
    exact (Erases.lift _).bind fun _ => (Erases.lift _).bind fun _ => (h.executeAll _ _).within _
  | conditional condition whenTrue whenFalse =>
    refine (h.evaluate _ _).bind fun condition => ?_
    split
    · exact h.execute _ _
    · cases whenFalse with
      | some s => exact h.execute _ _
      | none => exact .pure _
  | loop condition body =>
    refine (h.evaluate _ _).bind fun again => ?_
    split
    · refine (h.execute _ _).bind fun flow => ?_
      cases flow with
      | normal => exact h.execute _ _
      | returned v => exact .pure _
    · exact .pure _
  | declareFunction code =>
    exact (Erases.newClosure _ _ _).bind fun _ => (Erases.lift _).bind fun _ => .pure _
  | returns keyword value =>
    cases value with
    | none => exact .pure _
    | some value => exact (h.evaluate _ _).bind fun _ => .pure _
  | declareClass name methods statics =>
    exact (Erases.newClass _ _ _ _).bind fun _ => (Erases.lift _).bind fun _ => .pure _

theorem executeAll_erases (h : ErasesAll limit n) (p : Site) (ss : List Stmt) :
    Erases (executeAll limit (n + 1) p ss) (Run.executeAll limit (n + 1) ss) := by
  cases ss with
  | nil => exact .pure _
  | cons s ss =>
    refine (h.execute _ _).bind fun flow => ?_
    cases flow with
    | normal => exact h.executeAll _ _
    | returned v => exact .pure _

theorem declareAll_erases (h : ErasesAll limit n) (p : Site) (ds : List Declarator) :
    Erases (declareAll limit (n + 1) p ds) (Run.declareAll limit (n + 1) ds) := by
  cases ds with
  | nil => exact .pure _
  | cons d ds =>
    obtain ⟨name, initial⟩ := d
    cases initial with
    | none => exact (Erases.pure _).bind fun _ => (Erases.lift _).bind fun _ => h.declareAll _ _
    | some e => exact (h.evaluate _ _).bind fun _ => (Erases.lift _).bind fun _ => h.declareAll _ _

theorem call_erases (h : ErasesAll limit n) (c : Callable) (arguments : List Value) :
    Erases (call limit (n + 1) c arguments) (Run.call limit (n + 1) c arguments) := by
  cases c with
  | function f =>
    refine .note (fun _ _ => ⟨_, rfl⟩) fun p => (Erases.lift _).bind fun scope => ?_
    refine ((h.executeAll _ _).within _).bind fun flow => ?_
    split
    · exact .lift _
    · exact .pure _
  | native native => exact .lift _
  | ofClass c =>
    refine (Erases.lift _).bind fun id => ?_
    cases c.method? Class.initializerName with
    | some f =>
      exact (Erases.bindThis _ _).bind fun _ => (h.call _ _).bind fun _ => .pure _
    | none => exact .pure _

/-- Watching changes nothing, at any depth. -/
theorem erasesAll (limit : Option Nat) : ∀ n, ErasesAll limit n
  | 0 => ⟨fun _ _ => .lift _, fun _ _ => .lift _, fun _ _ => .lift _, fun _ _ => .lift _,
      fun _ _ => .lift _, fun _ _ => .lift _⟩
  | n + 1 =>
    have h := erasesAll limit n
    ⟨evaluate_erases h, evaluateAll_erases h, execute_erases h, executeAll_erases h,
      declareAll_erases h, call_erases h⟩

theorem erases_executeProgram (limit : Option Nat) (n : Nat) : ∀ (p : Site) (ss : List Stmt),
    Erases (executeProgram limit n p ss) (Run.executeProgram limit n ss)
  | _, [] => .pure _
  | _, s :: ss =>
    ((erasesAll limit n).execute _ s).bind fun _ => erases_executeProgram limit n _ ss

theorem erases_interpret (limit : Option Nat) (n : Nat) (p : Site) (program : List Stmt) :
    Erases (interpret limit n p program) (Run.interpret limit n program) := by
  intro g m
  unfold interpret Run.interpret
  rw [← erases_executeProgram limit n p program g m]
  split
  · rename_i eq
    rw [eq]
  · rename_i m _ eq
    rw [eq]
    dsimp only
    cases Run.flush m <;> rfl
  · rename_i eq
    rw [eq]

end

end Watched

end LoxLang
