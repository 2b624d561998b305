import LoxLang.Proofs.Running.Plain
import LoxLang.Proofs.Running.Sound
import Mathlib.Data.List.Forall2
/-!
Values of two runs that look the same. A relation `R` of functions is taken over to classes and values:
`R inner` relates functions that stand in scopes with the marks `inner` once they are called, which for
methods include that of the environment that binds `this`.

What is proved, for relations of functions that have one number, name and count of parameters (`Kin`):
values that are alike have one text and one truth value, and operators make the same of them
(`Value.Alike.text`, `Value.Alike.unary`, `Value.Alike.binary`); they take as many arguments
(`Value.Alike.arity`); and classes have the methods of one name alike (`Class.Alike.method`). Where every
function is related to itself, every value of a sound machine is (`Value.Sound.alike`).
-/
namespace LoxLang

/-- Functions that are told apart by nothing but by what they do. -/
structure Closure.Kin (f f' : Closure) : Prop where
  id : f'.id = f.id
  name : f'.name = f.name
  arity : f'.arity = f.arity

section

variable (R : List Bool → Closure → Closure → Prop)

structure Class.Alike (c c' : Class) : Prop where
  id : c'.id = c.id
  name : c'.name = c.name
  methods : List.Forall₂ (R [false]) c.methods c'.methods
  statics : List.Forall₂ (R []) c.statics c'.statics

/-- Values that hold the same functions. -/
inductive Value.Alike : Value → Value → Prop
  | nil : Value.Alike .nil .nil
  | bool (b : Bool) : Value.Alike (.bool b) (.bool b)
  | number (x : Float) : Value.Alike (.number x) (.number x)
  | string (s : String) : Value.Alike (.string s) (.string s)
  | function {f f' : Closure} : R [] f f' →
    Value.Alike (.callable (.function f)) (.callable (.function f'))
  | native (n : Native) : Value.Alike (.callable (.native n)) (.callable (.native n))
  | ofClass {c c' : Class} : Class.Alike R c c' →
    Value.Alike (.callable (.ofClass c)) (.callable (.ofClass c'))
  | object (id : Nat) {c c' : Class} : Class.Alike R c c' →
    Value.Alike (.object id c) (.object id c')

end

variable {R S : List Bool → Closure → Closure → Prop}

/-! Wider relations -/

theorem relOption_imp {α : Type} {r s : α → α → Prop} (h : ∀ a a', r a a' → s a a')
    {o o' : Option α} (rel : Option.Rel r o o') : Option.Rel s o o' := by
  cases rel with
  | some related => exact .some (h _ _ related)
  | none => exact .none

theorem Class.Alike.imp (h : ∀ inner f f', R inner f f' → S inner f f') {c c' : Class}
    (alike : Class.Alike R c c') : Class.Alike S c c' :=
  ⟨alike.id, alike.name, alike.methods.imp (h _), alike.statics.imp (h _)⟩

theorem Value.Alike.imp (h : ∀ inner f f', R inner f f' → S inner f f') {v v' : Value}
    (alike : Value.Alike R v v') : Value.Alike S v v' := by
  cases alike with
  | nil => exact .nil
  | bool b => exact .bool b
  | number x => exact .number x
  | string s => exact .string s
  | function related => exact .function (h _ _ _ related)
  | native n => exact .native n
  | ofClass alike => exact .ofClass (alike.imp h)
  | object id alike => exact .object id (alike.imp h)

theorem Value.Plain.alike {v : Value} (h : v.Plain) : Value.Alike R v v := by
  cases h with
  | nil => exact .nil
  | bool b => exact .bool b
  | number x => exact .number x
  | string s => exact .string s

theorem bindParams_alike : ∀ (params : List Token) {arguments arguments' : List Value}
    {bindings bindings' : Bindings Value}, List.Forall₂ (Value.Alike R) arguments arguments' →
      (∀ x, Option.Rel (Value.Alike R) (bindings.find? x) (bindings'.find? x)) →
        ∀ x, Option.Rel (Value.Alike R)
          (((params.zip arguments).foldl
            (fun bs (p, v) => Bindings.put p.lexeme v bs) bindings).find? x)
          (((params.zip arguments').foldl
            (fun bs (p, v) => Bindings.put p.lexeme v bs) bindings').find? x)
  | [], _, _, _, _, _, bound, x => bound x
  | _ :: _, [], _, _, _, .nil, bound, x => bound x
  | token :: rest, v :: vs, _, _, _, .cons value values, bound, x => by
    refine bindParams_alike rest values (fun z => ?_) x
    rw [Bindings.find?_put, Bindings.find?_put]
    split
    · exact .some value
    · exact bound z

theorem Value.Alike.truthy {v v' : Value} (h : Value.Alike R v v') : v'.truthy = v.truthy := by
  cases h <;> rfl

theorem Value.Alike.unary {v v' : Value} (op : Kind) (h : Value.Alike R v v') :
    v'.unary? op = v.unary? op := by
  cases h <;> rfl

/-! Relations of functions that look the same -/

section

variable (kin : ∀ inner f f', R inner f f' → Closure.Kin f f')

include kin

theorem lastNamed_alike {inner : List Bool} (x : String) {fs fs' : List Closure}
    (h : List.Forall₂ (R inner) fs fs') :
    Option.Rel (R inner) (Closure.lastNamed? x fs) (Closure.lastNamed? x fs') := by
  have reversed := List.rel_reverse h
  unfold Closure.lastNamed?
  generalize fs.reverse = gs, fs'.reverse = gs' at reversed
  induction reversed with
  | nil => exact .none
  | cons related _ ih =>
    rw [List.find?_cons, List.find?_cons, (kin _ _ _ related).name]
    split
    · exact .some related
    · exact ih

namespace Class.Alike

variable {c c' : Class}

theorem method (h : Class.Alike R c c') (x : String) :
    Option.Rel (R [false]) (c.method? x) (c'.method? x) := lastNamed_alike kin x h.methods

theorem static (h : Class.Alike R c c') (x : String) :
    Option.Rel (R []) (c.static? x) (c'.static? x) := lastNamed_alike kin x h.statics

theorem arity (h : Class.Alike R c c') : c'.arity = c.arity := by
  have found := h.method kin Class.initializerName
  unfold Class.arity
  generalize c.method? Class.initializerName = o, c'.method? Class.initializerName = o' at found
  cases found with
  | some related => exact (kin _ _ _ related).arity
  | none => rfl

end Class.Alike

namespace Value.Alike

variable {v v' u u' : Value}

theorem arity {c c' : Callable} (h : Value.Alike R (.callable c) (.callable c')) :
    c'.arity = c.arity := by
  cases h with
  | function related => exact (kin _ _ _ related).arity
  | native n => rfl
  | ofClass alike => exact alike.arity kin

theorem text (h : Value.Alike R v v') : v'.text = v.text := by
  cases h with
  | function related => exact congrArg (fun name => "<fn " ++ name ++ ">") (kin _ _ _ related).name
  | ofClass alike => exact alike.name
  | object id alike => exact congrArg (· ++ " instance") alike.name
  | _ => rfl

theorem same (h : Value.Alike R v v') (h' : Value.Alike R u u') : v'.same u' = v.same u := by
  cases h with
  | function related =>
    cases h' with
    | function related' =>
      simp only [Value.same, Callable.same, (kin _ _ _ related).id, (kin _ _ _ related').id]
    | _ => rfl
  | ofClass alike =>
    cases h' with
    | ofClass alike' => simp only [Value.same, Callable.same, alike.id, alike'.id]
    | _ => rfl
  | _ => cases h' <;> rfl

theorem add (h : Value.Alike R v v') (h' : Value.Alike R u u') : v'.add? u' = v.add? u := by
  cases h with
  | string s =>
    show Except.ok (Value.string (s ++ u'.text)) = Except.ok (Value.string (s ++ u.text))
    rw [h'.text kin]
  | number x => cases h' <;> rfl
  | _ => rfl

theorem binary (op : Kind) (h : Value.Alike R v v') (h' : Value.Alike R u u') :
    v'.binary? op u' = v.binary? op u := by
  have sameValue := h.same kin h'
  have sum := h.add kin h'
  unfold Value.binary?
  rw [sameValue, sum]
  split
  · rfl
  · rfl
  · rfl
  · cases h with
    | number x => cases h' <;> rfl
    | _ => rfl

end Value.Alike

end

/-! Values beside themselves -/

section

variable {m : Machine}

variable (self : ∀ inner f, (∀ b ∈ inner, b = false) → f.scope < m.environments.size → R inner f f)

include self

theorem Class.Sound.alike {c : Class} (h : c.Sound m) : Class.Alike R c c := by
  refine ⟨rfl, rfl, List.forall₂_same.mpr fun f mem => ?_, List.forall₂_same.mpr fun f mem => ?_⟩
  · exact self _ f (List.forall_mem_singleton.mpr rfl) (h.methods f mem)
  · exact self _ f (fun _ mem => nomatch mem) (h.statics f mem)

/-- Values in which functions see environments that are there are like themselves. -/
theorem Value.Sound.alike {v : Value} (h : v.Sound m) : Value.Alike R v v := by
  cases v with
  | nil => exact .nil
  | bool b => exact .bool b
  | number x => exact .number x
  | string s => exact .string s
  | callable c =>
    cases c with
    | function f => exact .function (self _ f (fun _ mem => nomatch mem) h)
    | native n => exact .native n
    | ofClass c => exact .ofClass (Class.Sound.alike self h)
  | object id c => exact .object id (Class.Sound.alike self h)

theorem option_alike_self {o : Option Value} (sound : ∀ v, o = some v → v.Sound m) :
    Option.Rel (Value.Alike R) o o := by
  cases o with
  | none => exact .none
  | some v => exact .some (Value.Sound.alike self (sound v rfl))

end

end LoxLang
