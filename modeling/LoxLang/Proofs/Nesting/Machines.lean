import LoxLang.Proofs.Nesting.Blocks
import LoxLang.Proofs.Renaming.Pairs
import LoxLang.Proofs.Running.Abreast
/-!
A run of a program and one of the program with the blocks. A block around a single statement has an
environment of its own, so the environments of the second machine are those of the first one under
other numbers, and more that bind nothing. Functions are made of code that is the same but for the
blocks, where the marks of its scopes are those of the environments the function sees.

What is proved:
  1. what two machines have in common only grows (`Nesting.Grows`), and values stay the same as it
     does (`Value.Nested.mono`);
  2. `Concur`, which says that two runs from such machines come to the same end, is closed under the
     ways runs are put together.
-/
namespace LoxLang

open Nesting (shift)

/-- Two machines, and the numbers that the environments of the left one have in the right one. -/
structure Nesting where
  left : Machine
  right : Machine
  place : Nat → Nat

namespace Nesting

/-- Outward from `e` and `e'` there are the same environments, in the right machine with those of
marked scopes in between. -/
structure Sees (p : Nesting) (e e' : Nat) (marks : List Bool) : Prop where
  left : e < p.left.environments.size
  right : e' < p.right.environments.size
  ancestor : ∀ i, p.right.environments.ancestor? e' (shift marks i) =
    (p.left.environments.ancestor? e i).map p.place

/-- Where two machines run, there are the same environments outward. -/
abbrev Stands (p : Nesting) (marks : List Bool) : Prop := p.Sees p.left.current p.right.current marks

/-- What there is in two machines is still there. -/
structure Grows (p p' : Nesting) : Prop where
  left : p.left.environments.size ≤ p'.left.environments.size
  right : p.right.environments.size ≤ p'.right.environments.size
  outer : ∀ e < p.left.environments.size,
    p'.left.environments.outer? e = p.left.environments.outer? e
  outer' : ∀ e < p.right.environments.size,
    p'.right.environments.outer? e = p.right.environments.outer? e
  place : ∀ e < p.left.environments.size, p'.place e = p.place e

/-- A later state of two machines, back in the environments they were in. -/
structure Follows (p p' : Nesting) : Prop where
  grows : p.Grows p'
  left : p'.left.current = p.left.current
  right : p'.right.current = p.right.current

end Nesting

section

variable (p : Nesting)

/-- Functions whose code stands in the same scopes: `inner` are the marks of the scopes that are still
to be entered before the code is. What an initializer returns is bound in the environment it sees,
which is no marked one. -/
structure Closure.Nested (inner : List Bool) (f f' : Closure) : Prop where
  id : f'.id = f.id
  initializer : f'.initializer = f.initializer
  code : ∃ marks, p.Sees f.scope f'.scope marks ∧ Function.Nested (inner ++ marks) f.code f'.code ∧
    (f.initializer = true → marks.headD false = false)

structure Class.Nested (c c' : Class) : Prop where
  id : c'.id = c.id
  name : c'.name = c.name
  methods : List.Forall₂ (Closure.Nested p [false]) c.methods c'.methods
  statics : List.Forall₂ (Closure.Nested p []) c.statics c'.statics

/-- Values that no program can tell apart. -/
inductive Value.Nested : Value → Value → Prop
  | nil : Value.Nested .nil .nil
  | bool (b : Bool) : Value.Nested (.bool b) (.bool b)
  | number (x : Float) : Value.Nested (.number x) (.number x)
  | string (s : String) : Value.Nested (.string s) (.string s)
  | function {f f' : Closure} : Closure.Nested p [] f f' →
    Value.Nested (.callable (.function f)) (.callable (.function f'))
  | native (n : Native) : Value.Nested (.callable (.native n)) (.callable (.native n))
  | ofClass {c c' : Class} : Class.Nested p c c' →
    Value.Nested (.callable (.ofClass c)) (.callable (.ofClass c'))
  | object (id : Nat) {c c' : Class} : Class.Nested p c c' →
    Value.Nested (.object id c) (.object id c')

/-- The machines hold the same, but for the environments of marked scopes. -/
structure Nesting.Like : Prop where
  nonempty : 0 < p.left.environments.size
  globals : p.place Machine.globals = Machine.globals
  inside : ∀ e < p.left.environments.size, p.place e < p.right.environments.size
  apart : ∀ e < p.left.environments.size, ∀ e' < p.left.environments.size,
    p.place e = p.place e' → e = e'
  bound : ∀ e < p.left.environments.size, ∀ x, Option.Rel (Value.Nested p)
    (p.left.environments.findHere? e x) (p.right.environments.findHere? (p.place e) x)
  instances : p.right.instances.size = p.left.instances.size
  fields : ∀ i x, Option.Rel (Value.Nested p) ((p.left.fields i).find? x)
    ((p.right.fields i).find? x)
  nextId : p.right.nextId = p.left.nextId
  callDepth : p.right.callDepth = p.left.callDepth
  out : p.right.out = p.left.out
  clock : p.right.clock = p.left.clock
  readings : p.right.readings = p.left.readings

end

/-- Both runs have values of which something is known, or both fail in the same way, or one of them
uses up its depth. -/
inductive Nesting.Ends {α α' : Type} (t : Pace) (p : Nesting) (Q : α → α' → Nesting → Prop) :
    Outcome α → Outcome α' → Prop
  | ok {a : α} {a' : α'} (p' : Nesting) : p'.Like → p.Follows p' → Q a a' p' →
    Nesting.Ends t p Q (.ok a p'.left) (.ok a' p'.right)
  | fail (e : Failure) (p' : Nesting) : p'.Like → p.Follows p' →
    Nesting.Ends t p Q (.fail e p'.left) (.fail e p'.right)
  | starved : Nesting.Ends t p Q .starved .starved
  | early {o' : Outcome α'} : t.first → Nesting.Ends t p Q .starved o'
  | late {o : Outcome α} : t.second → Nesting.Ends t p Q o .starved

/-- Two runs that come to the same end. -/
def Concur {α α' : Type} (t : Pace) (p : Nesting) (r : Run α) (r' : Run α')
    (Q : α → α' → Nesting → Prop) : Prop := p.Ends t Q (r p.left) (r' p.right)

variable {t : Pace} {p p' p'' : Nesting} {marks : List Bool}

/-! What stays -/

namespace Nesting

theorem Grows.refl (p : Nesting) : p.Grows p :=
  ⟨Nat.le_refl _, Nat.le_refl _, fun _ _ => rfl, fun _ _ => rfl, fun _ _ => rfl⟩

theorem Grows.trans (h : p.Grows p') (h' : p'.Grows p'') : p.Grows p'' where
  left := Nat.le_trans h.left h'.left
  right := Nat.le_trans h.right h'.right
  outer e lt := (h'.outer e (Nat.lt_of_lt_of_le lt h.left)).trans (h.outer e lt)
  outer' e lt := (h'.outer' e (Nat.lt_of_lt_of_le lt h.right)).trans (h.outer' e lt)
  place e lt := (h'.place e (Nat.lt_of_lt_of_le lt h.left)).trans (h.place e lt)

theorem Follows.refl (p : Nesting) : p.Follows p := ⟨.refl p, rfl, rfl⟩

theorem Follows.trans (h : p.Follows p') (h' : p'.Follows p'') : p.Follows p'' :=
  ⟨h.grows.trans h'.grows, h'.left.trans h.left, h'.right.trans h.right⟩

theorem Sees.mono {e e' : Nat} (h : p.Sees e e' marks) (grows : p.Grows p') :
    p'.Sees e e' marks := by
  obtain ⟨left, right, ancestor⟩ := h
  refine ⟨Nat.lt_of_lt_of_le left grows.left, Nat.lt_of_lt_of_le right grows.right, fun i => ?_⟩
  rw [Forest.ancestor?_congr grows.outer i left, Forest.ancestor?_congr grows.outer' _ right,
    ancestor i]
  cases found : p.left.environments.ancestor? e i with
  | none => rfl
  | some a => exact congrArg some (grows.place a (Pair.ancestor_lt left found)).symm

/-- What is seen where two machines run is seen later, back in it. -/
theorem Sees.follow (h : p.Stands marks) (follows : p.Follows p') : p'.Stands marks := by
  unfold Stands
  rw [follows.left, follows.right]
  exact h.mono follows.grows

/-- Where the innermost scope is not marked, its environment is one of both machines. -/
theorem Sees.place {e e' : Nat} (h : p.Sees e e' marks) (unmarked : marks.headD false = false) :
    e' = p.place e := by
  have here := h.ancestor 0
  cases marks with
  | nil => exact Option.some.inj here
  | cons mark rest =>
    cases mark with
    | false => exact Option.some.inj here
    | true => cases unmarked

end Nesting

theorem Closure.Nested.mono {inner : List Bool} {f f' : Closure} (h : Closure.Nested p inner f f')
    (grows : p.Grows p') : Closure.Nested p' inner f f' := by
  obtain ⟨id, initializer, marks, sees, code, receives⟩ := h
  exact ⟨id, initializer, marks, sees.mono grows, code, receives⟩

theorem Class.Nested.mono {c c' : Class} (h : Class.Nested p c c') (grows : p.Grows p') :
    Class.Nested p' c c' :=
  ⟨h.id, h.name, h.methods.imp fun _ _ nested => nested.mono grows,
    h.statics.imp fun _ _ nested => nested.mono grows⟩

theorem Value.Nested.mono {v v' : Value} (h : Value.Nested p v v') (grows : p.Grows p') :
    Value.Nested p' v v' := by
  cases h with
  | nil => exact .nil
  | bool b => exact .bool b
  | number x => exact .number x
  | string s => exact .string s
  | function nested => exact .function (nested.mono grows)
  | native n => exact .native n
  | ofClass nested => exact .ofClass (nested.mono grows)
  | object id nested => exact .object id (nested.mono grows)

theorem values_mono {vs vs' : List Value} (h : List.Forall₂ (Value.Nested p) vs vs')
    (grows : p.Grows p') : List.Forall₂ (Value.Nested p') vs vs' :=
  h.imp fun _ _ nested => nested.mono grows

theorem option_mono {o o' : Option Value} (h : Option.Rel (Value.Nested p) o o')
    (grows : p.Grows p') : Option.Rel (Value.Nested p') o o' := by
  cases h with
  | some nested => exact .some (nested.mono grows)
  | none => exact .none

theorem Nesting.Like.congr (like : p.Like) (m m' : Machine)
    (environments : m.environments = p.left.environments)
    (environments' : m'.environments = p.right.environments)
    (instances : m.instances = p.left.instances) (instances' : m'.instances = p.right.instances)
    (nextId : m'.nextId = m.nextId) (callDepth : m'.callDepth = m.callDepth) (out : m'.out = m.out)
    (clock : m'.clock = m.clock) (readings : m'.readings = m.readings) :
    Nesting.Like ⟨m, m', p.place⟩ ∧ p.Grows ⟨m, m', p.place⟩ := by
  have grows : p.Grows ⟨m, m', p.place⟩ :=
    ⟨Nat.le_of_eq (by rw [environments]), Nat.le_of_eq (by rw [environments']),
      fun e _ => by rw [environments], fun e _ => by rw [environments'], fun _ _ => rfl⟩
  refine ⟨⟨?_, like.globals, ?_, ?_, ?_, ?_, fun i x => ?_, nextId, callDepth, out, clock, readings⟩,
    grows⟩
  · rw [environments]
    exact like.nonempty
  · rw [environments, environments']
    exact like.inside
  · rw [environments]
    exact like.apart
  · rw [environments, environments']
    exact fun e lt x => option_mono (like.bound e lt x) grows
  · rw [instances, instances', like.instances]
  · have fields := option_mono (like.fields i x) grows
    rw [Machine.fields, Machine.fields, ← instances, ← instances'] at fields
    exact fields

theorem Nesting.Like.withInstances (like : p.Like) (instances instances' : Array (Bindings Value))
    (size : instances'.size = instances.size)
    (fields : ∀ i x, Option.Rel (Value.Nested p) ((instances.getD i []).find? x)
      ((instances'.getD i []).find? x)) :
    Nesting.Like ⟨{ p.left with instances }, { p.right with instances := instances' }, p.place⟩ ∧
      p.Follows ⟨{ p.left with instances }, { p.right with instances := instances' }, p.place⟩ := by
  have grows : p.Grows ⟨{ p.left with instances }, { p.right with instances := instances' },
      p.place⟩ :=
    ⟨Nat.le_refl _, Nat.le_refl _, fun _ _ => rfl, fun _ _ => rfl, fun _ _ => rfl⟩
  exact ⟨⟨like.nonempty, like.globals, like.inside, like.apart,
    fun e lt x => option_mono (like.bound e lt x) grows, size,
    fun i x => option_mono (fields i x) grows, like.nextId, like.callDepth, like.out, like.clock,
    like.readings⟩, grows, rfl, rfl⟩

/-! Ways to put runs together -/

section

variable {α α' β β' : Type} {Q : α → α' → Nesting → Prop}

theorem Nesting.Ends.after {o : Outcome α} {o' : Outcome α'} (follows : p.Follows p')
    (h : p'.Ends t Q o o') : p.Ends t Q o o' := by
  cases h with
  | ok p₁ like follows' q => exact .ok p₁ like (follows.trans follows') q
  | fail e p₁ like follows' => exact .fail e p₁ like (follows.trans follows')
  | starved => exact .starved
  | early may => exact .early may
  | late may => exact .late may

namespace Concur

theorem weaken {t' : Pace} {r : Run α} {r' : Run α'} {Q' : α → α' → Nesting → Prop}
    (h : Concur t p r r' Q) (first : t.first → t'.first) (second : t.second → t'.second)
    (h' : ∀ a a' p', p'.Like → p.Follows p' → Q a a' p' → Q' a a' p') : Concur t' p r r' Q' := by
  unfold Concur at *
  generalize r p.left = o, r' p.right = o' at h
  cases h with
  | ok p₁ like follows q => exact .ok p₁ like follows (h' _ _ p₁ like follows q)
  | fail e p₁ like follows => exact .fail e p₁ like follows
  | starved => exact .starved
  | early may => exact .early (first may)
  | late may => exact .late (second may)

theorem pure {a : α} {a' : α'} (like : p.Like) (q : Q a a' p) :
    Concur t p (pure a) (pure a') Q := .ok p like (.refl p) q

theorem fail {e : Failure} {r : Run α} {r' : Run α'} (like : p.Like)
    (h : r p.left = .fail e p.left) (h' : r' p.right = .fail e p.right) : Concur t p r r' Q := by
  unfold Concur
  rw [h, h']
  exact .fail e p like (.refl p)

theorem step {r : Run α} {r' : Run α'} {a : α} {a' : α'} (p' : Nesting)
    (h : r p.left = .ok a p'.left) (h' : r' p.right = .ok a' p'.right) (like : p'.Like)
    (follows : p.Follows p') (q : Q a a' p') : Concur t p r r' Q := by
  unfold Concur
  rw [h, h']
  exact .ok p' like follows q

theorem bind {r : Run α} {r' : Run α'} {next : α → Run β} {next' : α' → Run β'}
    {Q' : β → β' → Nesting → Prop} (h : Concur t p r r' Q)
    (h' : ∀ a a' p', p'.Like → p.Follows p' → Q a a' p' →
      Concur t p' (next a) (next' a') Q') : Concur t p (r >>= next) (r' >>= next') Q' := by
  unfold Concur at *
  rw [Run.bind_apply, Run.bind_apply]
  generalize r p.left = o, r' p.right = o' at h
  cases h with
  | ok p₁ like follows q => exact (h' _ _ p₁ like follows q).after follows
  | fail e p₁ like follows => exact .fail e p₁ like follows
  | starved => exact .starved
  | early may => exact .early may
  | late may => exact .late may

/-- Two runs between a change of their states and the way back from it; what is known at their end has
to outlast the way back. -/
theorem entered {r : Run α} {r' : Run α'} {back back' : Machine → Machine} (grows : p.Grows p')
    (h : Concur t p' r r' fun a a' p₂ => ∀ p₃, p₂.Grows p₃ → p.Follows p₃ → Q a a' p₃)
    (left : ∀ p₁ : Nesting, p₁.Like → p'.Follows p₁ →
      Nesting.Like ⟨back p₁.left, back' p₁.right, p₁.place⟩ ∧
        p₁.Grows ⟨back p₁.left, back' p₁.right, p₁.place⟩ ∧
          (back p₁.left).current = p.left.current ∧ (back' p₁.right).current = p.right.current) :
    p.Ends t Q ((r p'.left).leave back) ((r' p'.right).leave back') := by
  unfold Concur at h
  generalize r p'.left = o, r' p'.right = o' at h
  cases h with
  | ok p₁ ended follows q =>
    obtain ⟨outside, grows', current, current'⟩ := left p₁ ended follows
    have follows : p.Follows _ :=
      ⟨(grows.trans follows.grows).trans grows', current, current'⟩
    exact .ok _ outside follows (q _ grows' follows)
  | fail e p₁ ended follows =>
    obtain ⟨outside, grows', current, current'⟩ := left p₁ ended follows
    exact .fail e _ outside ⟨(grows.trans follows.grows).trans grows', current, current'⟩
  | starved => exact .starved
  | early may => exact .early may
  | late may => exact .late may

theorem within {e e' : Nat} {r : Run α} {r' : Run α'} (like : p.Like) (sees : p.Sees e e' marks)
    (h : ∀ p', p'.Like → p'.Stands marks →
      Concur t p' r r' fun a a' p₂ => ∀ p₃, p₂.Grows p₃ → p.Follows p₃ → Q a a' p₃) :
    Concur t p (Run.within e r) (Run.within e' r') Q := by
  obtain ⟨inside, grows⟩ := like.congr { p.left with current := e } { p.right with current := e' }
    rfl rfl rfl rfl like.nextId like.callDepth like.out like.clock like.readings
  refine entered grows (h _ inside (sees.mono grows)) fun p₁ ended _ => ?_
  obtain ⟨outside, grows'⟩ := ended.congr { p₁.left with current := p.left.current }
    { p₁.right with current := p.right.current }
    rfl rfl rfl rfl ended.nextId ended.callDepth ended.out ended.clock ended.readings
  exact ⟨outside, grows', rfl, rfl⟩

theorem asCall {limit : Option Nat} (paren : Token) {r : Run α} {r' : Run α'} (like : p.Like)
    (h : ∀ p', p'.Like → p.Follows p' →
      Concur t p' r r' fun a a' p₂ => ∀ p₃, p₂.Grows p₃ → p.Follows p₃ → Q a a' p₃) :
    Concur t p (Run.asCall limit paren r) (Run.asCall limit paren r') Q := by
  have depth : p.right.callDepth + 1 = p.left.callDepth + 1 := by rw [like.callDepth]
  obtain ⟨inside, grows⟩ := like.congr { p.left with callDepth := p.left.callDepth + 1 }
    { p.right with callDepth := p.right.callDepth + 1 }
    rfl rfl rfl rfl like.nextId depth like.out like.clock like.readings
  have same : limit.any (· ≤ p.right.callDepth) = limit.any (· ≤ p.left.callDepth) := by
    rw [like.callDepth]
  unfold Concur Run.asCall
  by_cases full : limit.any (· ≤ p.left.callDepth) = true
  · rw [if_pos full, if_pos (same.trans full)]
    exact .fail _ p like (.refl p)
  rw [if_neg full, if_neg (same ▸ full)]
  refine entered grows (h _ inside ⟨grows, rfl, rfl⟩) fun p₁ ended follows => ?_
  obtain ⟨outside, grows'⟩ := ended.congr
    { p₁.left with callDepth := p₁.left.callDepth - 1 }
    { p₁.right with callDepth := p₁.right.callDepth - 1 }
    rfl rfl rfl rfl ended.nextId (by rw [ended.callDepth]) ended.out ended.clock ended.readings
  exact ⟨outside, grows', follows.left, follows.right⟩

end Concur

end

end LoxLang
