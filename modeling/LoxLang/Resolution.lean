import LoxLang.Diagnostic
import LoxLang.Syntax
/-!
The names of a program and the scopes they belong to. One walk over the statements, with the open
scopes at hand, gives every name its distance to the scope that binds it, finds the names and
statements that are out of place, and notes the variables that are never read. Scopes are blocks,
functions (parameters and body together) and classes, which bind `this`; what is declared outside
of all scopes is global and not kept track of.
-/
namespace LoxLang

/-- The innermost body around a statement. -/
inductive Body where
  | program | function | initializer | method | static
  deriving DecidableEq, Repr

/-- What `this` is at some place: nothing outside of classes, the instance in methods, and out of
place in methods that belong to the class. -/
inductive Receiver where
  | none | object | static
  deriving DecidableEq, Repr

structure Surroundings where
  body : Body
  receiver : Receiver
  deriving DecidableEq, Repr

structure Local where
  name : String
  line : Nat
  /-- Its declaration is complete. -/
  defined : Bool
  used : Bool
  /-- It is reported if nothing reads it. -/
  tracked : Bool
  deriving DecidableEq, Repr

/-- The names of an open scope in the order of their declarations. -/
abbrev Locals := List Local

/-- The open scopes, the innermost first, and what was found so far. -/
structure Resolution where
  scopes : List Locals
  errors : List ScopeError
  warnings : List Warning

namespace Locals

def binds (name : String) (ls : Locals) : Bool := ls.any fun l => l.name == name

/-- What is known of a name in a scope. -/
def named? (name : String) (ls : Locals) : Option Local := ls.find? fun l => l.name == name

def update (name : String) (f : Local → Local) (ls : Locals) : Locals :=
  ls.map fun l => if l.name == name then f l else l

/-- The names of a scope that were declared for nothing. -/
def unused (ls : Locals) : List Warning :=
  (ls.filter fun l => l.tracked && !l.used).map fun l => ⟨l.name, l.line⟩

end Locals

abbrev Resolve (α : Type) := StateM Resolution α

namespace Resolve

def report (fault : ScopeFault) (token : Token) : Resolve Unit :=
  modify fun r => { r with errors := r.errors ++ [⟨fault, token⟩] }

/-- Opens a scope that binds some names from the start. -/
def openScope (locals : Locals) : Resolve Unit :=
  modify fun r => { r with scopes := locals :: r.scopes }

/-- Closes the innermost scope and notes what was declared in it for nothing. -/
def closeScope : Resolve Unit :=
  modify fun r =>
    match r.scopes with
    | [] => r
    | s :: outer => { r with scopes := outer, warnings := r.warnings ++ s.unused }

/-- Binds a name in the innermost scope. It is complete only when it is defined. -/
def declare (name : Token) (tracked : Bool) : Resolve Unit :=
  modify fun r =>
    match r.scopes with
    | [] => r
    | s :: outer =>
      if s.binds name.lexeme then
        { r with
          scopes := s.update name.lexeme (fun l => { l with defined := false }) :: outer
          errors := r.errors ++ [⟨.redeclared, name⟩] }
      else
        { r with scopes := (s ++ [⟨name.lexeme, name.line, false, false, tracked⟩]) :: outer }

/-- Completes the declaration of a name in the innermost scope. -/
def define (name : Token) : Resolve Unit :=
  modify fun r =>
    match r.scopes with
    | [] => r
    | s :: outer =>
      { r with scopes := s.update name.lexeme (fun l => { l with defined := true }) :: outer }

/-- Reports a name that is read before its declaration in the innermost scope is complete. -/
def checkDefined (name : Token) : Resolve Unit := do
  match (← get).scopes with
  | [] => pure ()
  | s :: _ =>
    match s.named? name.lexeme with
    | some l => if !l.defined then report .ownInitializer name
    | none => pure ()

/-- The distance to the nearest scope that binds a name. -/
def distance? (name : String) (scopes : List Locals) : Option Nat :=
  scopes.findIdx? (Locals.binds name)

/-- The distance of a name that is written or called for without being read. -/
def locate (name : Token) : Resolve (Option Nat) := do
  pure (distance? name.lexeme (← get).scopes)

/-- The distance of a name that is read, which counts as its use. -/
def locateRead (name : Token) : Resolve (Option Nat) := do
  let depth ← locate name
  if let some d := depth then
    modify fun r =>
      { r with
        scopes := r.scopes.modify d (Locals.update name.lexeme fun l => { l with used := true }) }
  pure depth

/-- Reports `return` where nothing can be returned from. -/
def checkReturn (body : Body) (keyword : Token) : Resolve Unit :=
  if body = .program then report .returnOutsideFunction keyword else pure ()

/-- Reports a `return` with a value in an initializer. -/
def checkReturnValue (body : Body) (keyword : Token) : Resolve Unit :=
  if body = .initializer then report .returnFromInitializer keyword else pure ()

def declareParams : List Token → Resolve Unit
  | [] => pure ()
  | p :: ps => do
    declare p false
    define p
    declareParams ps

def methodBody (name : Token) : Body := if name.lexeme == "init" then .initializer else .method

mutual

/-- Resolves an expression. What is assigned is resolved before its target. -/
def expression (place : Surroundings) : Expr → Resolve Expr
  | .literal value => pure (.literal value)
  | .group inner => do
    let inner ← expression place inner
    pure (.group inner)
  | .unary op right => do
    let right ← expression place right
    pure (.unary op right)
  | .binary left op right => do
    let left ← expression place left
    let right ← expression place right
    pure (.binary left op right)
  | .logical left op right => do
    let left ← expression place left
    let right ← expression place right
    pure (.logical left op right)
  | .ternary condition whenTrue whenFalse => do
    let condition ← expression place condition
    let whenTrue ← expression place whenTrue
    let whenFalse ← expression place whenFalse
    pure (.ternary condition whenTrue whenFalse)
  | .variable name _ => do
    checkDefined name
    let depth ← locateRead name
    pure (.variable name depth)
  | .this keyword depth =>
    match place.receiver with
    | .none => do
      report .thisOutsideClass keyword
      pure (.this keyword depth)
    | .static => do
      report .thisInStatic keyword
      pure (.this keyword depth)
    | .object => do
      let depth ← locate keyword
      pure (.this keyword depth)
  | .assign name value _ => do
    let value ← expression place value
    let depth ← locate name
    pure (.assign name value depth)
  | .call callee paren arguments => do
    let callee ← expression place callee
    let arguments ← expressions place arguments
    pure (.call callee paren arguments)
  | .property object name => do
    let object ← expression place object
    pure (.property object name)
  | .setProperty object name value => do
    let value ← expression place value
    let object ← expression place object
    pure (.setProperty object name value)
  | .lambda code => do
    let code ← function ⟨.function, place.receiver⟩ code
    pure (.lambda code)

def expressions (place : Surroundings) : List Expr → Resolve (List Expr)
  | [] => pure []
  | e :: es => do
    let e ← expression place e
    let es ← expressions place es
    pure (e :: es)

/-- Resolves a statement. A function and a class are bound before their bodies are looked at. -/
def statement (place : Surroundings) : Stmt → Resolve Stmt
  | .expression value => do
    let value ← expression place value
    pure (.expression value)
  | .print value => do
    let value ← expression place value
    pure (.print value)
  | .declare d => do
    let d ← declarator place d
    pure (.declare d)
  | .declareAll ds => do
    let ds ← declarators place ds
    pure (.declareAll ds)
  | .block body => do
    openScope []
    let body ← statements place body
    closeScope
    pure (.block body)
  | .conditional condition whenTrue none => do
    let condition ← expression place condition
    let whenTrue ← statement place whenTrue
    pure (.conditional condition whenTrue none)
  | .conditional condition whenTrue (some whenFalse) => do
    let condition ← expression place condition
    let whenTrue ← statement place whenTrue
    let whenFalse ← statement place whenFalse
    pure (.conditional condition whenTrue (some whenFalse))
  | .loop condition body => do
    let condition ← expression place condition
    let body ← statement place body
    pure (.loop condition body)
  | .declareFunction code => do
    declare code.name false
    define code.name
    let code ← function ⟨.function, place.receiver⟩ code
    pure (.declareFunction code)
  | .returns keyword none => do
    checkReturn place.body keyword
    pure (.returns keyword none)
  | .returns keyword (some value) => do
    checkReturn place.body keyword
    checkReturnValue place.body keyword
    let value ← expression place value
    pure (.returns keyword (some value))
  | .declareClass name ms ss => do
    declare name false
    define name
    openScope [⟨"this", name.line, true, false, false⟩]
    let ms ← methods ms
    let ss ← statics ss
    closeScope
    pure (.declareClass name ms ss)

def statements (place : Surroundings) : List Stmt → Resolve (List Stmt)
  | [] => pure []
  | s :: ss => do
    let s ← statement place s
    let ss ← statements place ss
    pure (s :: ss)

/-- A variable is bound before its first value is looked at, and complete after it. -/
def declarator (place : Surroundings) : Declarator → Resolve Declarator
  | ⟨name, none⟩ => do
    declare name true
    define name
    pure ⟨name, none⟩
  | ⟨name, some initial⟩ => do
    declare name true
    let initial ← expression place initial
    define name
    pure ⟨name, some initial⟩

def declarators (place : Surroundings) : List Declarator → Resolve (List Declarator)
  | [] => pure []
  | d :: ds => do
    let d ← declarator place d
    let ds ← declarators place ds
    pure (d :: ds)

/-- Parameters and body, in a scope of their own. -/
def function (place : Surroundings) : Function → Resolve Function
  | ⟨name, params, body⟩ => do
    openScope []
    declareParams params
    let body ← statements place body
    closeScope
    pure ⟨name, params, body⟩

def methods : List Function → Resolve (List Function)
  | [] => pure []
  | f :: fs => do
    let f ← function ⟨methodBody f.name, .object⟩ f
    let fs ← methods fs
    pure (f :: fs)

/-- Resolves the methods of the class itself. -/
def statics : List Function → Resolve (List Function)
  | [] => pure []
  | f :: fs => do
    let f ← function ⟨.static, .static⟩ f
    let fs ← statics fs
    pure (f :: fs)

end

end Resolve

namespace Resolution

def empty : Resolution := ⟨[], [], []⟩

/-- A program with the distances of its names, and what was found in it. -/
def ofProgram (program : List Stmt) : List Stmt × Resolution :=
  (Resolve.statements ⟨.program, .none⟩ program).run empty

end Resolution

end LoxLang
