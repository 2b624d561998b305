import LoxLang.Machine
import LoxLang.Proofs.Running.Plain
import LoxLang.Proofs.Running.World
import LoxLang.Proofs.Splitting.Relocation
import LoxLang.Value.Operators
/-!
Machines whose tokens stand on other lines. The code of every function of a machine is moved, wherever
the function is held; nothing else is changed, and nothing that a machine does on its own looks at lines:
what is found under a name, what an operator makes of values and what values look like in print.
-/
namespace LoxLang

variable {f g : Nat → Nat}

/-! Values and machines on other lines -/

def Closure.relocate (f : Nat → Nat) (c : Closure) : Closure := { c with code := c.code.relocate f }

def Class.relocate (f : Nat → Nat) (c : Class) : Class :=
  { c with methods := c.methods.map (·.relocate f), statics := c.statics.map (·.relocate f) }

def Callable.relocate (f : Nat → Nat) : Callable → Callable
  | .function c => .function (c.relocate f)
  | .native n => .native n
  | .ofClass c => .ofClass (c.relocate f)

/-- The value with all code that can be called by way of it on other lines. -/
def Value.relocate (f : Nat → Nat) : Value → Value
  | .nil => .nil
  | .bool b => .bool b
  | .number x => .number x
  | .string s => .string s
  | .callable c => .callable (c.relocate f)
  | .object id c => .object id (c.relocate f)

def Bindings.mapValues {α β : Type} (h : α → β) (bs : Bindings α) : Bindings β :=
  bs.map fun (x, a) => (x, h a)

def Forest.mapValues {α β : Type} (h : α → β) (f : Forest α) : Forest β where
  environments := f.environments.map fun env => ⟨env.bindings.mapValues h, env.outer⟩
  outer_lt := by
    intro e inside p link
    rw [Array.size_map] at inside
    rw [Array.getElem_map] at link
    exact f.outer_lt e inside p link

/-- The machine with all its code on other lines. -/
def Machine.relocate (f : Nat → Nat) (m : Machine) : Machine :=
  { m with
    environments := m.environments.mapValues (Value.relocate f)
    instances := m.instances.map (Bindings.mapValues (Value.relocate f)) }

def Failure.relocate (f : Nat → Nat) : Failure → Failure
  | .runtime e => .runtime { e with token := e.token.relocate f }
  | .output fault => .output fault

def Outcome.relocate {α α' : Type} (f : Nat → Nat) (move : α → α') : Outcome α → Outcome α'
  | .ok a m => .ok (move a) (m.relocate f)
  | .fail e m => .fail (e.relocate f) (m.relocate f)
  | .starved => .starved

/-! Bindings and environments -/

namespace Bindings

variable {α β γ : Type} {h : α → β}

theorem mapValues_mapValues (h' : β → γ) (bs : Bindings α) :
    (bs.mapValues h).mapValues h' = bs.mapValues (h' ∘ h) := by
  rw [mapValues, mapValues, List.map_map]
  rfl

theorem find?_mapValues (name : String) (bs : Bindings α) :
    (bs.mapValues h).find? name = (bs.find? name).map h := by
  induction bs with
  | nil => rfl
  | cons b bs ih =>
    simp only [mapValues, List.map_cons, find?] at ih ⊢
    split
    · rfl
    · exact ih

theorem put_mapValues (name : String) (a : α) (bs : Bindings α) :
    (bs.mapValues h).put name (h a) = (bs.put name a).mapValues h := by
  induction bs with
  | nil => rfl
  | cons b bs ih =>
    simp only [mapValues, List.map_cons, put] at ih ⊢
    split
    · rfl
    · rw [List.map_cons, ih]

end Bindings

namespace Forest

variable {α β γ : Type} {h : α → β} {t : Forest α}

theorem eq_of_environments {t' : Forest α} (same : t.environments = t'.environments) : t = t' := by
  cases t
  cases t'
  cases same
  rfl

theorem mapValues_mapValues (h' : β → γ) (t : Forest α) :
    (t.mapValues h).mapValues h' = t.mapValues (h' ∘ h) := by
  apply eq_of_environments
  simp only [mapValues, Array.map_map]
  congr 1
  funext env
  simp only [Function.comp_apply, Bindings.mapValues_mapValues]

@[simp]
theorem size_mapValues (t : Forest α) : (t.mapValues h).size = t.size := by
  simp [size, mapValues]

theorem outer?_mapValues (t : Forest α) (e : Nat) : (t.mapValues h).outer? e = t.outer? e := by
  simp only [outer?, mapValues, Array.size_map, Array.getElem_map]

theorem findHere?_mapValues (t : Forest α) (e : Nat) (name : String) :
    (t.mapValues h).findHere? e name = (t.findHere? e name).map h := by
  simp only [findHere?, mapValues, Array.size_map, Array.getElem_map, Bindings.find?_mapValues]
  split <;> rfl

theorem push_mapValues (t : Forest α) (outer : Option Nat) (bindings : Bindings α) :
    (t.mapValues h).push outer (bindings.mapValues h) = (t.push outer bindings).mapValues h := by
  apply eq_of_environments
  simp [push, mapValues]

theorem define_mapValues (t : Forest α) (e : Nat) (name : String) (a : α) :
    (t.mapValues h).define e name (h a) = (t.define e name a).mapValues h := by
  apply eq_of_environments
  apply Array.ext
  · simp [define, mapValues]
  · intro i lt lt'
    simp only [define, mapValues, Array.getElem_modify, Array.getElem_map]
    split
    · rw [Bindings.put_mapValues]
    · rfl

theorem findAt?_mapValues (t : Forest α) (e d : Nat) (name : String) :
    (t.mapValues h).findAt? e d name = (t.findAt? e d name).map h := by
  rw [findAt?, findAt?, ancestor?_eq (outer?_mapValues t)]
  cases t.ancestor? e d with
  | none => rfl
  | some a => exact findHere?_mapValues t a name

theorem holderAt?_mapValues (t : Forest α) (e d : Nat) (name : String) :
    (t.mapValues h).holderAt? e d name = t.holderAt? e d name := by
  rw [holderAt?, holderAt?, ancestor?_eq (outer?_mapValues t)]
  congr 1
  funext a
  rw [findHere?_mapValues, Option.isSome_map]

end Forest

/-! Functions, classes and values -/

namespace Closure

theorem name_relocate (c : Closure) : (c.relocate f).name = c.name := by
  simp only [name, relocate, Function.name_relocate, Token.lexeme_relocate]

theorem arity_relocate (c : Closure) : (c.relocate f).arity = c.arity := by
  simp only [arity, relocate, Function.params_relocate, List.length_map]

theorem lastNamed?_relocate (x : String) (cs : List Closure) :
    lastNamed? x (cs.map (·.relocate f)) = (lastNamed? x cs).map (·.relocate f) := by
  rw [lastNamed?, lastNamed?, ← List.map_reverse, List.find?_map]
  congr 2
  funext c
  simp only [Function.comp_apply, name_relocate]

end Closure

namespace Class

theorem method?_relocate (c : Class) (x : String) :
    (c.relocate f).method? x = (c.method? x).map (·.relocate f) := Closure.lastNamed?_relocate x _

theorem static?_relocate (c : Class) (x : String) :
    (c.relocate f).static? x = (c.static? x).map (·.relocate f) := Closure.lastNamed?_relocate x _

theorem arity_relocate (c : Class) : (c.relocate f).arity = c.arity := by
  rw [arity, arity, method?_relocate]
  cases c.method? initializerName with
  | none => rfl
  | some m => exact m.arity_relocate

end Class

namespace Callable

theorem arity_relocate : ∀ c : Callable, (c.relocate f).arity = c.arity
  | .function c => c.arity_relocate
  | .native _ => rfl
  | .ofClass c => c.arity_relocate

theorem text_relocate : ∀ c : Callable, (c.relocate f).text = c.text
  | .function c => by simp only [relocate, text, Closure.name_relocate]
  | .native _ => rfl
  | .ofClass _ => rfl

theorem same_relocate (c d : Callable) : (c.relocate f).same (d.relocate f) = c.same d := by
  cases c <;> cases d <;> rfl

end Callable

namespace Value

theorem Plain.relocate {v : Value} (h : v.Plain) : v.relocate f = v := by
  cases h <;> rfl

variable (v w : Value)

@[simp]
theorem truthy_relocate : (v.relocate f).truthy = v.truthy := by
  cases v <;> rfl

theorem text_relocate : (v.relocate f).text = v.text := by
  cases v with
  | callable c => exact c.text_relocate
  | _ => rfl

theorem same_relocate : (v.relocate f).same (w.relocate f) = v.same w := by
  cases v <;> cases w
  case callable.callable c d => exact c.same_relocate d
  all_goals rfl

theorem unary?_relocate (op : Kind) : (v.relocate f).unary? op = v.unary? op := by
  unfold unary?
  rw [truthy_relocate]
  cases v <;> rfl

theorem binary?_relocate (op : Kind) : (v.relocate f).binary? op (w.relocate f) = v.binary? op w := by
  have sum : (v.relocate f).add? (w.relocate f) = v.add? w := by
    cases v with
    | string s =>
      show Except.ok (string (s ++ (w.relocate f).text)) = _
      rw [text_relocate]
      rfl
    | _ => cases w <;> rfl
  unfold binary?
  rw [same_relocate, sum]
  cases v <;> cases w <;> rfl

end Value

/-! Moving twice, and not at all -/

theorem Closure.relocate_relocate (c : Closure) : (c.relocate f).relocate g = c.relocate (g ∘ f) := by
  simp only [relocate, Function.relocate_relocate]

theorem Class.relocate_relocate (c : Class) : (c.relocate f).relocate g = c.relocate (g ∘ f) := by
  simp only [relocate, List.map_map, Function.comp_def, Closure.relocate_relocate]

theorem Value.relocate_relocate (v : Value) : (v.relocate f).relocate g = v.relocate (g ∘ f) := by
  cases v with
  | callable c =>
    cases c with
    | function c => simp only [relocate, Callable.relocate, Closure.relocate_relocate]
    | native n => rfl
    | ofClass c => simp only [relocate, Callable.relocate, Class.relocate_relocate]
  | object id c => simp only [relocate, Class.relocate_relocate]
  | _ => rfl

theorem Machine.relocate_relocate (m : Machine) :
    (m.relocate f).relocate g = m.relocate (g ∘ f) := by
  have values : Value.relocate g ∘ Value.relocate f = Value.relocate (g ∘ f) := by
    funext v
    exact v.relocate_relocate
  have fields : Bindings.mapValues (Value.relocate g) ∘ Bindings.mapValues (Value.relocate f) =
      Bindings.mapValues (Value.relocate (g ∘ f)) := by
    funext bs
    rw [Function.comp_apply, Bindings.mapValues_mapValues, values]
  simp only [relocate, Forest.mapValues_mapValues, values, Array.map_map, fields]

theorem closure_relocate_id (c : Closure) : c.relocate id = c := by
  simp only [Closure.relocate, Function.relocate_id]

theorem class_relocate_id (c : Class) : c.relocate id = c := by
  simp only [Class.relocate, closure_relocate_id, List.map_id']

theorem Value.relocate_id (v : Value) : v.relocate id = v := by
  cases v with
  | callable c =>
    cases c with
    | function c => simp only [relocate, Callable.relocate, closure_relocate_id]
    | native n => rfl
    | ofClass c => simp only [relocate, Callable.relocate, class_relocate_id]
  | object id c => simp only [relocate, class_relocate_id]
  | _ => rfl

theorem Machine.relocate_id (m : Machine) : m.relocate id = m := by
  have values : Value.relocate id = id := by
    funext v
    exact v.relocate_id
  have fields : Bindings.mapValues (id : Value → Value) = id := by
    funext bs
    exact List.map_id bs
  have environments : m.environments.mapValues id = m.environments := by
    apply Forest.eq_of_environments
    simp only [Forest.mapValues, fields, id_eq, Array.map_id']
  simp only [relocate, values, environments, fields, Array.map_id]

/-! What instances hold -/

theorem Machine.fields_relocate (m : Machine) (id : Nat) :
    (m.relocate f).fields id = (m.fields id).mapValues (Value.relocate f) := by
  simp only [Machine.fields, Array.getD_eq_getD_getElem?, relocate, Array.getElem?_map]
  cases m.instances[id]? <;> rfl

end LoxLang
