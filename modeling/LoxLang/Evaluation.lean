import LoxLang.Machine
import LoxLang.Value.Operators
/-!
Running programs. Expressions have values, statements end normally or return, and calls run the
body of a function in a new environment inside the one the function was made in. Everything is
done from left to right and stops at the first failure. The functions here recurse on a depth
that a run uses up; with enough of it the answer does not depend on it. `limit` is the greatest
number of calls under way at one time, if there is one.
-/
namespace LoxLang

/-- How a statement ends. -/
inductive Flow where
  | normal
  | returned (v : Value)

namespace Flow

/-- The value of a call whose body ended so. -/
def value : Flow → Value
  | normal => .nil
  | returned v => v

end Flow

/-- The calls that may be under way at one time. -/
def maxCallDepth : Nat := 255

namespace Run

/-- A function with a number of its own that sees the current environment. -/
def newClosure (code : Function) (initializer : Bool) : Run Closure := do
  let id ← newId
  let scope ← current
  pure ⟨id, code, scope, initializer⟩

/-- A method that knows its instance: one more environment around its body binds `this`. -/
def bindThis (f : Closure) (v : Value) : Run Closure := do
  let scope ← newEnvironment f.scope [("this", v)]
  let id ← newId
  pure { f with id, scope }

/-- Functions in order; those of certain names are made as initializers. -/
def newClosures (initializer : String → Bool) : List Function → Run (List Closure)
  | [] => pure []
  | code :: rest => do
    let f ← newClosure code (initializer code.name.lexeme)
    let fs ← newClosures initializer rest
    pure (f :: fs)

/-- Makes a class, the initializer among its methods if there is one. Its own methods see one more environment,
which has no `this`, and none of them is an initializer. -/
def newClass (name : String) (methods statics : List Function) : Run Class := do
  let methods ← newClosures (· == Class.initializerName) methods
  let scope ← newEnvironment (← current) []
  let statics ← within scope (newClosures (fun _ => false) statics)
  let id ← newId
  pure ⟨id, name, methods, statics⟩

/-- A property of an instance: a field, or else a method that knows the instance, or else a method
of its class. -/
def property (id : Nat) (c : Class) (name : Token) : Run Value := do
  match ← field? id name.lexeme with
  | some v => pure v
  | none =>
    match c.method? name.lexeme, c.static? name.lexeme with
    | some f, _ =>
      let f ← bindThis f (.object id c)
      pure (.callable (.function f))
    | none, some f => pure (.callable (.function f))
    | none, none => fault name .undefinedProperty

/-- What stands behind a point after a value. -/
def member (v : Value) (name : Token) : Run Value :=
  match v with
  | .object id c => property id c name
  | .callable (.ofClass c) =>
    match c.static? name.lexeme with
    | some f => pure (.callable (.function f))
    | none => fault name .undefinedProperty
  | _ => fault name .noProperties

def printAll : List Value → Run Unit
  | [] => pure ()
  | v :: vs => do
    writeLine v.text
    printAll vs

def callNative (n : Native) (arguments : List Value) : Run Value :=
  match n with
  | .clock => do
    let x ← readClock
    pure (.number x)
  | .print => do
    printAll arguments
    pure .nil

/-- Parameters with the arguments they stand for. The later of two parameters of one name counts;
what has no counterpart is left out. -/
def bindParams (params : List Token) (arguments : List Value) : Bindings Value :=
  (params.zip arguments).foldl (fun bs (p, v) => bs.put p.lexeme v) []

section

variable (limit : Option Nat)

mutual

def evaluate : Nat → Expr → Run Value
  | 0, _ => starved
  | n + 1, e => do
    match e with
    | .literal value => pure value.toValue
    | .group inner => evaluate n inner
    | .unary op right =>
      let right ← evaluate n right
      lift op (right.unary? op.kind)
    | .binary left op right =>
      let left ← evaluate n left
      let right ← evaluate n right
      lift op (left.binary? op.kind right)
    | .logical left op right =>
      let left ← evaluate n left
      if left.truthy == op.isKeyword .or then pure left else evaluate n right
    | .ternary condition whenTrue whenFalse =>
      let condition ← evaluate n condition
      if condition.truthy then evaluate n whenTrue else evaluate n whenFalse
    | .variable name depth => lookUp name depth
    | .this keyword depth => lookUp keyword depth
    | .assign name value depth =>
      let value ← evaluate n value
      assign name depth value
      pure value
    | .call callee paren arguments =>
      let callee ← evaluate n callee
      let arguments ← evaluateAll n arguments
      match callee with
      | .callable c =>
        if arguments.length = c.arity then asCall limit paren (call n c arguments)
        else fault paren (.arity c.arity arguments.length)
      | _ => fault paren .notCallable
    | .property object name =>
      let object ← evaluate n object
      member object name
    | .setProperty object name value =>
      match ← evaluate n object with
      | .object id _ =>
        let value ← evaluate n value
        setField id name.lexeme value
        pure value
      | _ => fault name .noFields
    | .lambda code =>
      let f ← newClosure code false
      pure (.callable (.function f))

def evaluateAll : Nat → List Expr → Run (List Value)
  | 0, _ => starved
  | _ + 1, [] => pure []
  | n + 1, e :: es => do
    let v ← evaluate n e
    let vs ← evaluateAll n es
    pure (v :: vs)

def execute : Nat → Stmt → Run Flow
  | 0, _ => starved
  | n + 1, s => do
    match s with
    | .expression value =>
      let _ ← evaluate n value
      pure .normal
    | .print value =>
      let value ← evaluate n value
      writeLine value.text
      pure .normal
    | .declare d => declareAll n [d]
    | .declareAll ds => declareAll n ds
    | .block body =>
      let scope ← newEnvironment (← current) []
      within scope (executeAll n body)
    | .conditional condition whenTrue whenFalse =>
      let condition ← evaluate n condition
      if condition.truthy then execute n whenTrue
      else match whenFalse with
        | some s => execute n s
        | none => pure .normal
    | .loop condition body =>
      let again ← evaluate n condition
      if again.truthy then
        match ← execute n body with
        | .normal => execute n s
        | .returned v => pure (.returned v)
      else pure .normal
    | .declareFunction code =>
      let f ← newClosure code false
      define code.name.lexeme (.callable (.function f))
      pure .normal
    | .returns _ none => pure (.returned .nil)
    | .returns _ (some value) =>
      let value ← evaluate n value
      pure (.returned value)
    | .declareClass name methods statics =>
      let c ← newClass name.lexeme methods statics
      define name.lexeme (.callable (.ofClass c))
      pure .normal

/-- Runs statements in order, up to the first that returns. -/
def executeAll : Nat → List Stmt → Run Flow
  | 0, _ => starved
  | _ + 1, [] => pure .normal
  | n + 1, s :: ss => do
    match ← execute n s with
    | .normal => executeAll n ss
    | .returned v => pure (.returned v)

def declareAll : Nat → List Declarator → Run Flow
  | 0, _ => starved
  | _ + 1, [] => pure .normal
  | n + 1, d :: ds => do
    let v ← match d.initial with
      | some e => evaluate n e
      | none => pure .nil
    define d.name.lexeme v
    declareAll n ds

/-- Calls a callable, whatever the number of arguments. -/
def call : Nat → Callable → List Value → Run Value
  | 0, _, _ => starved
  | n + 1, c, arguments => do
    match c with
    | .function f =>
      let scope ← newEnvironment f.scope (bindParams f.code.params arguments)
      let flow ← within scope (executeAll n f.code.body)
      if f.initializer then receiver f.scope else pure flow.value
    | .native native => callNative native arguments
    | .ofClass c =>
      let id ← newInstance
      match c.method? Class.initializerName with
      | some f =>
        let f ← bindThis f (.object id c)
        let _ ← call n (.function f) arguments
        pure (.object id c)
      | none => pure (.object id c)

end

/-- Runs the statements of a program in order; what one of them returns is dropped. -/
def executeProgram (n : Nat) : List Stmt → Run Unit
  | [] => pure ()
  | s :: ss => do
    let _ ← execute limit n s
    executeProgram n ss

/-- Runs a program and flushes its output, also after a failure. That the output cannot be flushed
counts for more than how the program failed. -/
def interpret (n : Nat) (program : List Stmt) : Run Unit := fun m =>
  match executeProgram limit n program m with
  | .ok _ m => flush m
  | .fail e m =>
    match flush m with
    | .ok _ m => .fail e m
    | other => other
  | .starved => .starved

end

end Run

end LoxLang
