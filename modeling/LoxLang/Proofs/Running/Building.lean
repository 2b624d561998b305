import LoxLang.Evaluation
/-!
Steps that are put together from others. Functions, classes and properties are made in several steps, and a
native function may write many lines. What is kept when runs are put together, and holds of each of these
steps, holds of the whole: no such property is proved of the whole by itself.
-/
namespace LoxLang

namespace Run

/-- What is said of a run is kept when runs are put together, and holds of the steps that functions, classes
and properties are made with. -/
structure Builds (P : {α : Type} → Run α → Prop) : Prop where
  pure {α : Type} (a : α) : P (pure a : Run α)
  bind {α β : Type} {r : Run α} {next : α → Run β} : P r → (∀ a, P (next a)) → P (r >>= next)
  within {α : Type} {r : Run α} (environment : Nat) : P r → P (within environment r)
  newId : P newId
  current : P current
  newEnvironment (outer : Nat) (bindings : Bindings Value) : P (newEnvironment outer bindings)
  field? (id : Nat) (name : String) : P (field? id name)
  writeLine (text : String) : P (writeLine text)
  readClock : P readClock

namespace Builds

variable {P : {α : Type} → Run α → Prop}

/-! Functions and classes -/

theorem newClosure (h : Builds P) (code : Function) (initializer : Bool) :
    P (newClosure code initializer) :=
  h.bind h.newId fun _ => h.bind h.current fun _ => h.pure _

theorem bindThis (h : Builds P) (f : Closure) (v : Value) : P (bindThis f v) :=
  h.bind (h.newEnvironment _ _) fun _ => h.bind h.newId fun _ => h.pure _

theorem newClosures (h : Builds P) (initializer : String → Bool) (fs : List Function) :
    P (newClosures initializer fs) := by
  induction fs with
  | nil => exact h.pure []
  | cons code fs ih => exact h.bind (h.newClosure code _) fun _ => h.bind ih fun _ => h.pure _

theorem newClass (h : Builds P) (name : String) (methods statics : List Function) :
    P (newClass name methods statics) := by
  refine h.bind (h.newClosures _ methods) fun methods => h.bind h.current fun outer => ?_
  refine h.bind (h.newEnvironment outer []) fun scope => ?_
  exact h.bind (h.within scope (h.newClosures _ statics)) fun statics => h.bind h.newId fun id => h.pure _

/-! Properties -/

theorem property (h : Builds P) (id : Nat) (c : Class) {name : Token}
    (undefined : P (fault name .undefinedProperty : Run Value)) : P (property id c name) := by
  refine h.bind (h.field? id name.lexeme) fun found => ?_
  cases found with
  | some v => exact h.pure v
  | none =>
    dsimp only
    split
    · exact h.bind (h.bindThis _ _) fun _ => h.pure _
    · exact h.pure _
    · exact undefined

theorem member (h : Builds P) (v : Value) {name : Token}
    (undefined : P (fault name .undefinedProperty : Run Value))
    (none : P (fault name .noProperties : Run Value)) : P (member v name) := by
  unfold Run.member
  split
  · exact h.property _ _ undefined
  · split
    · exact h.pure _
    · exact undefined
  · exact none

/-! Native functions -/

theorem printAll (h : Builds P) (vs : List Value) : P (printAll vs) := by
  induction vs with
  | nil => exact h.pure ()
  | cons v vs ih => exact h.bind (h.writeLine v.text) fun _ => ih

theorem callNative (h : Builds P) (native : Native) (arguments : List Value) :
    P (callNative native arguments) := by
  cases native with
  | clock => exact h.bind h.readClock fun _ => h.pure _
  | print => exact h.bind (h.printAll arguments) fun _ => h.pure _

end Builds

end Run

end LoxLang
