import LoxLang.Decimal.Layout
import LoxLang.Syntax
import LoxLang.Text.Quoted
/-!
Values of running programs. Functions and classes are made with a number of their own and
instances are numbered, so that values are compared without looking into them: two of them are
equal only if they are one.
-/
namespace LoxLang

/-- A function together with the environment it was made in. An initializer returns the instance
that its environment binds `this` to. -/
structure Closure where
  id : Nat
  code : Function
  scope : Nat
  initializer : Bool

/-- A class: its instance methods, and the methods of its own. -/
structure Class where
  id : Nat
  name : String
  methods : List Closure
  statics : List Closure

inductive Native where
  | clock
  | print
  deriving DecidableEq, Repr

inductive Callable where
  | function (f : Closure)
  | native (n : Native)
  | ofClass (c : Class)

/-- What expressions come to. -/
inductive Value where
  | nil
  | bool (b : Bool)
  | number (x : Float)
  | string (s : String)
  | callable (c : Callable)
  | object (id : Nat) (of : Class)

namespace Closure

/-- The name of a function; that of one without a name is its keyword. -/
def name (f : Closure) : String := f.code.name.lexeme

def arity (f : Closure) : Nat := f.code.params.length

/-- The function as shown to people who look into a program. -/
def debugText (f : Closure) : String :=
  "LoxFunction \x7b name: " ++ Text.debugString f.name ++ ", arity: " ++ toString f.arity
    ++ ", is_initializer: " ++ (if f.initializer then "true" else "false") ++ " \x7d"

/-- The last of the functions with this name, which hides the earlier ones. -/
def lastNamed? (name : String) (fs : List Closure) : Option Closure :=
  fs.reverse.find? fun f => f.name == name

theorem mem_of_lastNamed? {name : String} {fs : List Closure} {f : Closure}
    (h : lastNamed? name fs = some f) : f ∈ fs :=
  List.mem_reverse.mp (List.mem_of_find?_eq_some h)

end Closure

namespace Class

/-- The instance method of this name. -/
def method? (c : Class) (name : String) : Option Closure := Closure.lastNamed? name c.methods

/-- The method of the class itself that has this name. -/
def static? (c : Class) (name : String) : Option Closure := Closure.lastNamed? name c.statics

/-- The name of the method that prepares new instances. -/
def initializerName : String := "init"

/-- Calling a class takes what its initializer takes. -/
def arity (c : Class) : Nat :=
  match c.method? initializerName with
  | some f => f.arity
  | none => 0

/-- An instance as shown to people who look into a program; its fields are only named. -/
def instanceDebugText (c : Class) (fields : List String) : String :=
  let names := (fields.mergeSort fun a b => decide (a ≤ b)).map Text.debugString
  "LoxInstance \x7b class: " ++ Text.debugString c.name ++ ", fields: ["
    ++ String.intercalate ", " names ++ "] \x7d"

end Class

namespace Native

/-- The name a native function is bound to. -/
def name : Native → String
  | clock => "clock"
  | print => "print"

def arity : Native → Nat
  | clock => 0
  | print => 1

def text (n : Native) : String := "<native fn " ++ n.name ++ ">"

end Native

namespace Callable

/-- The number of arguments a call has to have. -/
def arity : Callable → Nat
  | function f => f.arity
  | native n => n.arity
  | .ofClass c => c.arity

def text : Callable → String
  | function f => "<fn " ++ f.name ++ ">"
  | native n => n.text
  | .ofClass c => c.name

/-- A callable as shown to people who look into a program. -/
def debugText : Callable → String
  | function f => f.debugText
  | native n => n.text
  | .ofClass c => c.name

def same : Callable → Callable → Bool
  | function f, function g => f.id == g.id
  | native m, native n => m == n
  | .ofClass c, .ofClass d => c.id == d.id
  | _, _ => false

end Callable

namespace Value

/-- Programs print whole numbers with all their digits and without a point. -/
def numberLayout : Decimal.Layout :=
  ⟨"NaN", "Infinity", "-Infinity", true, true, "", .up, none⟩

/-- The text of a value, as programs print it. -/
def text : Value → String
  | nil => "nil"
  | bool true => "true"
  | bool false => "false"
  | number x => numberLayout.render x
  | string s => s
  | callable c => c.text
  | .object _ c => c.name ++ " instance"

/-- Only `nil` and `false` count as false. -/
def truthy : Value → Bool
  | nil => false
  | bool b => b
  | _ => true

/-- Equality in programs. A value that is no number differs from itself. -/
def same : Value → Value → Bool
  | nil, nil => true
  | bool a, bool b => a == b
  | number x, number y => x == y
  | string s, string t => s == t
  | callable c, callable d => c.same d
  | .object i _, .object j _ => i == j
  | _, _ => false

end Value

namespace Literal

def toValue : Literal → Value
  | nil => .nil
  | bool b => .bool b
  | number x => .number x
  | string s => .string s

end Literal

end LoxLang
