import LoxLang.Proofs.Nesting.Machines
/-!
What is done to the environments of two machines. A new environment gets a number in each of them; a
block around a statement makes one in the right machine only. Names are found by their distances, so
the environments of marked scopes are passed over and never bind anything.

What is proved: the machines stay alike when an environment is added to both (`Nesting.Like.push`) or
to the right one (`Nesting.Like.pushRight`) and when a name is bound in both (`Nesting.Like.define`);
names are found, bound and given other values alike (`Concur.lookUp`, `Concur.define`,
`Concur.assign`), and a block around a statement is entered and left in the right run only
(`Concur.enclose`).
-/
namespace LoxLang

open Nesting (shift)

namespace Nesting

variable {p : Nesting} {marks : List Bool} {outer outer' : Nat} {bindings bindings' : Bindings Value}

/-! New environments -/

def push (p : Nesting) (outer outer' : Nat) (bindings bindings' : Bindings Value) : Nesting where
  left := { p.left with environments := p.left.environments.push (some outer) bindings }
  right := { p.right with environments := p.right.environments.push (some outer') bindings' }
  place e := if e = p.left.environments.size then p.right.environments.size else p.place e

theorem grows_push : p.Grows (p.push outer outer' bindings bindings') where
  left := Nat.le_of_lt (by simp [push])
  right := Nat.le_of_lt (by simp [push])
  outer _ lt := Forest.outer?_push_of_lt lt _ _
  outer' _ lt := Forest.outer?_push_of_lt lt _ _
  place _ lt := if_neg (Nat.ne_of_lt lt)

theorem Sees.push (sees : p.Sees outer outer' marks) :
    (p.push outer outer' bindings bindings').Sees p.left.environments.size
      p.right.environments.size (false :: marks) := by
  have grows : p.Grows (p.push outer outer' bindings bindings') := grows_push
  have later := sees.mono grows
  refine ⟨by simp [Nesting.push], by simp [Nesting.push], fun i => ?_⟩
  cases i with
  | zero => exact congrArg some (if_pos rfl).symm
  | succ i =>
    have link : (p.push outer outer' bindings bindings').left.environments.outer?
        p.left.environments.size = some outer := Forest.outer?_push_size _ sees.left _
    have link' : (p.push outer outer' bindings bindings').right.environments.outer?
        p.right.environments.size = some outer' := Forest.outer?_push_size _ sees.right _
    rw [shift, Forest.ancestor?, Forest.ancestor?, link, link']
    exact later.ancestor i

theorem Like.push (like : p.Like)
    (found : ∀ x, Option.Rel (Value.Nested p) (bindings.find? x) (bindings'.find? x)) :
    (p.push outer outer' bindings bindings').Like := by
  have grows : p.Grows (p.push outer outer' bindings bindings') := grows_push
  have new : (p.push outer outer' bindings bindings').place p.left.environments.size =
      p.right.environments.size := if_pos rfl
  -- An environment is the new one, or it was there before.
  have split {e : Nat} (lt : e < (p.push outer outer' bindings bindings').left.environments.size) :
      e = p.left.environments.size ∨ e < p.left.environments.size := by
    simp only [Nesting.push, Forest.size_push] at lt
    omega
  refine ⟨Nat.lt_of_lt_of_le like.nonempty grows.left,
    (grows.place _ like.nonempty).trans like.globals, fun e lt => ?_, fun e lt e' lt' same => ?_,
    fun e lt x => ?_, like.instances, fun i x => option_mono (like.fields i x) grows, like.nextId,
    like.callDepth, like.out, like.clock, like.readings⟩
  · rcases split lt with rfl | old
    · rw [new]
      simp [Nesting.push]
    · rw [grows.place e old]
      exact Nat.lt_of_lt_of_le (like.inside e old) grows.right
  · rcases split lt with rfl | old <;> rcases split lt' with rfl | old'
    · rfl
    · rw [new, grows.place e' old'] at same
      exact absurd (like.inside e' old') (same ▸ Nat.lt_irrefl _)
    · rw [new, grows.place e old] at same
      exact absurd (like.inside e old) (same ▸ Nat.lt_irrefl _)
    · rw [grows.place e old, grows.place e' old'] at same
      exact like.apart e old e' old' same
  · refine option_mono ?_ grows
    show Option.Rel _ ((p.left.environments.push (some outer) bindings).findHere? e x)
      ((p.right.environments.push (some outer') bindings').findHere? _ x)
    rcases split lt with rfl | old
    · rw [new, Forest.findHere?_push_size, Forest.findHere?_push_size]
      exact found x
    · rw [grows.place e old, Forest.findHere?_push_of_lt old,
        Forest.findHere?_push_of_lt (like.inside e old)]
      exact like.bound e old x

/-- One more environment in the right machine, which runs in it. -/
def pushRight (p : Nesting) : Nesting :=
  { p with
    right := { p.right with
      environments := p.right.environments.push (some p.right.current) []
      current := p.right.environments.size } }

theorem grows_pushRight : p.Grows p.pushRight where
  left := Nat.le_refl _
  right := Nat.le_of_lt (by simp [pushRight])
  outer _ _ := rfl
  outer' _ lt := Forest.outer?_push_of_lt lt _ _
  place _ _ := rfl

/-- The right machine has one more scope around it, which is marked. -/
theorem Sees.pushRight (stands : p.Stands marks) : p.pushRight.Stands (true :: marks) := by
  have later := stands.mono grows_pushRight
  refine ⟨stands.left, by simp [Nesting.pushRight], fun i => ?_⟩
  have link : p.pushRight.right.environments.outer? p.right.environments.size =
    some p.right.current := Forest.outer?_push_size _ stands.right _
  show p.pushRight.right.environments.ancestor? p.right.environments.size _ = _
  rw [shift, Forest.ancestor?, link]
  exact later.ancestor i

theorem Like.pushRight (like : p.Like) : p.pushRight.Like := by
  have grows : p.Grows p.pushRight := grows_pushRight
  refine ⟨like.nonempty, like.globals, fun e lt => ?_, like.apart, fun e lt x => ?_,
    like.instances, fun i x => option_mono (like.fields i x) grows, like.nextId, like.callDepth,
    like.out, like.clock, like.readings⟩
  · exact Nat.lt_of_lt_of_le (like.inside e lt) grows.right
  · refine option_mono ?_ grows
    show Option.Rel _ (p.left.environments.findHere? e x)
      ((p.right.environments.push (some p.right.current) []).findHere? (p.place e) x)
    rw [Forest.findHere?_push_of_lt (like.inside e lt)]
    exact like.bound e lt x

/-! Names that are bound -/

def define (p : Nesting) (e e' : Nat) (x : String) (v v' : Value) : Nesting where
  left := { p.left with environments := p.left.environments.define e x v }
  right := { p.right with environments := p.right.environments.define e' x v' }
  place := p.place

theorem follows_define (p : Nesting) (e e' : Nat) (x : String) (v v' : Value) :
    p.Follows (p.define e e' x v v') := by
  refine ⟨⟨?_, ?_, ?_, ?_, fun _ _ => rfl⟩, rfl, rfl⟩
  · exact Nat.le_of_eq (Forest.size_define _ _ _ _).symm
  · exact Nat.le_of_eq (Forest.size_define _ _ _ _).symm
  · exact fun _ _ => Forest.outer?_define _ _ _ _ _
  · exact fun _ _ => Forest.outer?_define _ _ _ _ _

theorem Like.define {e : Nat} {x : String} {v v' : Value} (like : p.Like)
    (lt : e < p.left.environments.size) (nested : Value.Nested p v v') :
    (p.define e (p.place e) x v v').Like := by
  have grows := (p.follows_define e (p.place e) x v v').grows
  have size : (p.define e (p.place e) x v v').left.environments.size =
    p.left.environments.size := Forest.size_define _ _ _ _
  have size' : (p.define e (p.place e) x v v').right.environments.size =
    p.right.environments.size := Forest.size_define _ _ _ _
  refine ⟨size ▸ like.nonempty, like.globals, ?_, ?_, fun i inside z => option_mono ?_ grows,
    like.instances, fun i z => option_mono (like.fields i z) grows, like.nextId, like.callDepth,
    like.out, like.clock, like.readings⟩
  · rw [size, size']
    exact like.inside
  · rw [size]
    exact like.apart
  · rw [size] at inside
    show Option.Rel _ ((p.left.environments.define e x v).findHere? i z)
      ((p.right.environments.define (p.place e) x v').findHere? (p.place i) z)
    rw [Forest.findHere?_define, Forest.findHere?_define]
    by_cases here : e = i ∧ x = z
    · obtain ⟨rfl, rfl⟩ := here
      rw [if_pos ⟨inside, rfl, rfl⟩, if_pos ⟨like.inside e inside, rfl, rfl⟩]
      exact .some nested
    · have elsewhere : ¬(p.place e = p.place i ∧ x = z) :=
        fun ⟨same, name⟩ => here ⟨like.apart e lt i inside same, name⟩
      rw [if_neg fun h => here h.2, if_neg fun h => elsewhere h.2]
      exact like.bound i inside z

/-! Names that are found -/

theorem Sees.ancestor_lt (stands : p.Stands marks) {d a : Nat}
    (found : p.left.environments.ancestor? p.left.current d = some a) :
    a < p.left.environments.size := Pair.ancestor_lt stands.left found

/-- A name has the same value at its distance in both machines. -/
theorem findAt?_nested (like : p.Like) (stands : p.Stands marks) (d : Nat) (x : String) :
    Option.Rel (Value.Nested p) (p.left.environments.findAt? p.left.current d x)
      (p.right.environments.findAt? p.right.current (shift marks d) x) := by
  rw [Forest.findAt?, Forest.findAt?, stands.ancestor]
  cases found : p.left.environments.ancestor? p.left.current d with
  | none => exact .none
  | some a => exact like.bound a (stands.ancestor_lt found) x

theorem isSome_nested (like : p.Like) {e : Nat} (lt : e < p.left.environments.size) (x : String) :
    (p.right.environments.findHere? (p.place e) x).isSome =
      (p.left.environments.findHere? e x).isSome := by
  have bound := like.bound e lt x
  generalize p.left.environments.findHere? e x = o,
    p.right.environments.findHere? (p.place e) x = o' at bound
  cases bound <;> rfl

/-- A name is held by the same environment in both machines. -/
theorem holderAt?_nested (like : p.Like) (stands : p.Stands marks) (d : Nat) (x : String) :
    p.right.environments.holderAt? p.right.current (shift marks d) x =
        (p.left.environments.holderAt? p.left.current d x).map p.place ∧
      ∀ e, p.left.environments.holderAt? p.left.current d x = some e →
        e < p.left.environments.size := by
  rw [Forest.holderAt?, Forest.holderAt?, stands.ancestor]
  cases found : p.left.environments.ancestor? p.left.current d with
  | none =>
    refine ⟨rfl, fun _ held => ?_⟩
    cases held
  | some a =>
    have lt := stands.ancestor_lt found
    constructor
    · rw [Option.map_some, Option.filter_some, Option.filter_some, isSome_nested like lt]
      split <;> rfl
    · intro e held
      rw [Option.filter_some] at held
      split at held
      · cases held
        exact lt
      · cases held

end Nesting

/-! Runs -/

namespace Concur

variable {t : Pace} {p : Nesting} {marks : List Bool} {β β' : Type}

theorem newEnvironment {outer outer' : Nat} {bindings bindings' : Bindings Value}
    {next : Nat → Run β} {next' : Nat → Run β'} {Q : β → β' → Nesting → Prop}
    (like : p.Like) (sees : p.Sees outer outer' marks)
    (found : ∀ x, Option.Rel (Value.Nested p) (bindings.find? x) (bindings'.find? x))
    (h : ∀ e e' p', p'.Like → p.Follows p' → p'.Sees e e' (false :: marks) →
      Concur t p' (next e) (next' e') Q) :
    Concur t p (Run.newEnvironment outer bindings >>= next)
      (Run.newEnvironment outer' bindings' >>= next') Q := by
  have follows : p.Follows (p.push outer outer' bindings bindings') :=
    ⟨Nesting.grows_push, rfl, rfl⟩
  exact (h _ _ _ (like.push found) follows sees.push).after follows

/-- A block around a statement, in the right run only. -/
theorem enclose {r : Run β} {r' : Run β'} {Q : β → β' → Nesting → Prop} (like : p.Like)
    (stands : p.Stands marks)
    (h : ∀ p', p'.Like → p'.Stands (true :: marks) →
      Concur t p' r r' fun a a' p₂ => ∀ p₃, p₂.Grows p₃ → p.Follows p₃ → Q a a' p₃) :
    Concur t p r (Run.current >>= fun outer => Run.newEnvironment outer [] >>= fun scope =>
      Run.within scope r') Q := by
  have inner := h _ like.pushRight stands.pushRight
  -- Nothing happens in the left machine on the way into the block and out of it.
  show p.Ends t Q (r p.left) ((r' p.pushRight.right).leave fun m =>
    { m with current := p.right.current })
  rw [← (r p.left).leave_id]
  refine entered Nesting.grows_pushRight inner fun p₁ ended follows => ?_
  obtain ⟨outside, grows⟩ := ended.congr p₁.left { p₁.right with current := p.right.current }
    rfl rfl rfl rfl ended.nextId ended.callDepth ended.out ended.clock ended.readings
  exact ⟨outside, grows, follows.left, rfl⟩

theorem define (x : String) {v v' : Value} {Q : Unit → Unit → Nesting → Prop} (like : p.Like)
    (stands : p.Stands marks) (unmarked : marks.headD false = false) (nested : Value.Nested p v v')
    (q : ∀ p', p'.Like → p.Follows p' → Q () () p') :
    Concur t p (Run.define x v) (Run.define x v') Q := by
  have ended : (p.define p.left.current p.right.current x v v').Like := by
    rw [stands.place unmarked]
    exact like.define stands.left nested
  have follows := p.follows_define p.left.current p.right.current x v v'
  exact step _ rfl rfl ended follows (q _ ended follows)

theorem lookUp (name : Token) {depth depth' : Option Nat} (like : p.Like) (stands : p.Stands marks)
    (shifted : depth' = depth.map (shift marks)) :
    Concur t p (Run.lookUp name depth) (Run.lookUp name depth')
      fun v v' p' => Value.Nested p' v v' := by
  subst shifted
  have found : Option.Rel (Value.Nested p) (p.left.named? name.lexeme depth)
      (p.right.named? name.lexeme (depth.map (shift marks))) := by
    cases depth with
    | some d => exact Nesting.findAt?_nested like stands d name.lexeme
    | none =>
      have bound := like.bound Machine.globals like.nonempty name.lexeme
      rw [like.globals] at bound
      simp only [Machine.named?, Option.map_none, Option.elim_none]
      rw [Machine.globals, Forest.find?_zero, Forest.find?_zero]
      exact bound
  unfold Concur
  rw [Run.lookUp_apply, Run.lookUp_apply]
  generalize p.left.named? name.lexeme depth = o,
    p.right.named? name.lexeme (depth.map (shift marks)) = o' at found
  cases found with
  | some nested => exact .ok p like (.refl p) nested
  | none => exact .fail _ p like (.refl p)

theorem assign (name : Token) {depth depth' : Option Nat} {v v' : Value}
    {Q : Unit → Unit → Nesting → Prop} (like : p.Like) (stands : p.Stands marks)
    (shifted : depth' = depth.map (shift marks)) (nested : Value.Nested p v v')
    (q : ∀ p', p'.Like → p.Follows p' → Q () () p') :
    Concur t p (Run.assign name depth v) (Run.assign name depth' v') Q := by
  subst shifted
  have assigned {e : Nat} (lt : e < p.left.environments.size) :
      p.Ends t Q (.ok () (p.define e (p.place e) name.lexeme v v').left)
        (.ok () (p.define e (p.place e) name.lexeme v v').right) := by
    have ended := like.define (x := name.lexeme) lt nested
    have follows := p.follows_define e (p.place e) name.lexeme v v'
    exact .ok _ ended follows (q _ ended follows)
  unfold Concur Run.assign
  cases depth with
  | some d =>
    obtain ⟨same, inside⟩ := Nesting.holderAt?_nested like stands d name.lexeme
    dsimp only [Option.map_some]
    rw [same]
    cases held : p.left.environments.holderAt? p.left.current d name.lexeme with
    | none => exact .fail _ p like (.refl p)
    | some e => exact assigned (inside e held)
  | none =>
    have same := Nesting.isSome_nested like like.nonempty name.lexeme
    have globals : p.place 0 = 0 := like.globals
    rw [globals] at same
    dsimp only [Option.map_none]
    rw [Machine.globals, Forest.holder?_zero, Forest.holder?_zero, same]
    cases (p.left.environments.findHere? 0 name.lexeme).isSome with
    | false => exact .fail _ p like (.refl p)
    | true =>
      have assigned := assigned like.nonempty
      rw [globals] at assigned
      exact assigned

end Concur

end LoxLang
