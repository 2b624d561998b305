import LoxLang.Proofs.Renaming.Twins
import LoxLang.Proofs.Running.World
import LoxLang.Evaluation
import Mathlib.Data.List.Forall2
/-!
Two runs side by side. The machines of the two runs have the same environments, but in those that
are marked two names are exchanged; functions are made of code that is a twin of the other, where
the marks of its scopes are those of the environments the function sees.

What is proved:
  1. what two machines have in common only grows (`Pair.Grows`), and values stay twins as it does
     (`Value.Twin.mono`);
  2. `Agree`, which says that two runs from twin machines fare alike and end in twin machines, is
     closed under the ways runs are put together, with one rule for each thing a machine does.
-/
namespace LoxLang

/-- Two machines, and the environments in which they exchange names. -/
structure Pair where
  left : Machine
  right : Machine
  marked : Nat → Bool

/-- The marks of the environments from `e` outward. -/
def Pair.Sees (p : Pair) (e : Nat) (marks : List Bool) : Prop :=
  e < p.left.environments.size ∧
    ∀ i a, p.left.environments.ancestor? e i = some a → p.marked a = marks.getD i false

/-- What there is in one pair is still there in the other. -/
structure Pair.Grows (p p' : Pair) : Prop where
  size : p.left.environments.size ≤ p'.left.environments.size
  outer : ∀ e < p.left.environments.size,
    p'.left.environments.outer? e = p.left.environments.outer? e
  marked : ∀ e < p.left.environments.size, p'.marked e = p.marked e

section

variable (σ : Exchange) (p : Pair)

/-- Functions whose code stands in the same scopes: `inner` are the marks of the scopes that are
still to be entered before the code is. -/
structure Closure.Twin (inner : List Bool) (f f' : Closure) : Prop where
  id : f'.id = f.id
  scope : f'.scope = f.scope
  initializer : f'.initializer = f.initializer
  code : ∃ marks, p.Sees f.scope marks ∧ Function.Twin σ (inner ++ marks) f.code f'.code

structure Class.Twin (c c' : Class) : Prop where
  id : c'.id = c.id
  name : c'.name = c.name
  methods : List.Forall₂ (Closure.Twin σ p [false]) c.methods c'.methods
  statics : List.Forall₂ (Closure.Twin σ p []) c.statics c'.statics

/-- Values that no program can tell apart. -/
inductive Value.Twin : Value → Value → Prop
  | nil : Value.Twin .nil .nil
  | bool (b : Bool) : Value.Twin (.bool b) (.bool b)
  | number (x : Float) : Value.Twin (.number x) (.number x)
  | string (s : String) : Value.Twin (.string s) (.string s)
  | function {f f' : Closure} : Closure.Twin σ p [] f f' →
    Value.Twin (.callable (.function f)) (.callable (.function f'))
  | native (n : Native) : Value.Twin (.callable (.native n)) (.callable (.native n))
  | ofClass {c c' : Class} : Class.Twin σ p c c' →
    Value.Twin (.callable (.ofClass c)) (.callable (.ofClass c'))
  | object (id : Nat) {c c' : Class} : Class.Twin σ p c c' →
    Value.Twin (.object id c) (.object id c')

/-- The two machines have the same environments and instances, up to the exchange of names. -/
structure Pair.Like : Prop where
  nonempty : 0 < p.left.environments.size
  globals : p.marked Machine.globals = false
  size : p.right.environments.size = p.left.environments.size
  outer : ∀ e, p.right.environments.outer? e = p.left.environments.outer? e
  bound : ∀ e x, Option.Rel (Value.Twin σ p) (p.left.environments.findHere? e x)
    (p.right.environments.findHere? e (σ.swap (p.marked e) x))
  instances : p.right.instances.size = p.left.instances.size
  fields : ∀ i x, Option.Rel (Value.Twin σ p) ((p.left.fields i).find? x)
    ((p.right.fields i).find? x)
  nextId : p.right.nextId = p.left.nextId
  current : p.right.current = p.left.current
  callDepth : p.right.callDepth = p.left.callDepth
  out : p.right.out = p.left.out
  clock : p.right.clock = p.left.clock
  readings : p.right.readings = p.left.readings

end

/-- One pair is a later state of the other, back in the environment it was in. -/
structure Pair.Follows (p p' : Pair) : Prop where
  grows : p.Grows p'
  current : p'.left.current = p.left.current

/-- Both runs have values of which something is known, or both fail, or both use up their depth. -/
inductive Pair.Ends {α α' : Type} (σ : Exchange) (p : Pair) (Q : α → α' → Pair → Prop) :
    Outcome α → Outcome α' → Prop
  | ok {a : α} {a' : α'} (p' : Pair) : p'.Like σ → p.Follows p' → Q a a' p' →
    Pair.Ends σ p Q (.ok a p'.left) (.ok a' p'.right)
  | fail (e e' : Failure) (p' : Pair) : p'.Like σ → p.Follows p' →
    Pair.Ends σ p Q (.fail e p'.left) (.fail e' p'.right)
  | starved : Pair.Ends σ p Q .starved .starved

/-- Two runs that fare alike. -/
def Agree {α α' : Type} (σ : Exchange) (p : Pair) (r : Run α) (r' : Run α')
    (Q : α → α' → Pair → Prop) : Prop := p.Ends σ Q (r p.left) (r' p.right)

variable {σ : Exchange} {p p' p'' : Pair}

/-! What stays -/

namespace Pair

theorem Grows.refl (p : Pair) : p.Grows p :=
  ⟨Nat.le_refl _, fun _ _ => rfl, fun _ _ => rfl⟩

theorem Grows.trans (h : p.Grows p') (h' : p'.Grows p'') : p.Grows p'' where
  size := Nat.le_trans h.size h'.size
  outer e lt := (h'.outer e (Nat.lt_of_lt_of_le lt h.size)).trans (h.outer e lt)
  marked e lt := (h'.marked e (Nat.lt_of_lt_of_le lt h.size)).trans (h.marked e lt)

theorem Follows.refl (p : Pair) : p.Follows p := ⟨.refl p, rfl⟩

theorem Follows.trans (h : p.Follows p') (h' : p'.Follows p'') : p.Follows p'' :=
  ⟨h.grows.trans h'.grows, h'.current.trans h.current⟩

theorem ancestor_lt {f : Forest Value} : ∀ {i e a : Nat}, e < f.size → f.ancestor? e i = some a →
    a < f.size
  | 0, e, a, lt, h => by
    cases h
    exact lt
  | i + 1, e, a, lt, h => by
    rw [Forest.ancestor?] at h
    cases link : f.outer? e with
    | none => rw [link] at h; cases h
    | some o =>
      rw [link] at h
      exact ancestor_lt (Nat.lt_trans (Forest.outer?_lt link) lt) h

theorem Sees.mono {e : Nat} {marks : List Bool} (h : p.Sees e marks) (grows : p.Grows p') :
    p'.Sees e marks := by
  obtain ⟨lt, sees⟩ := h
  refine ⟨Nat.lt_of_lt_of_le lt grows.size, fun i a found => ?_⟩
  rw [Forest.ancestor?_congr grows.outer i lt] at found
  rw [grows.marked a (ancestor_lt lt found)]
  exact sees i a found

theorem Sees.follow {marks : List Bool} (h : p.Sees p.left.current marks) (follows : p.Follows p') :
    p'.Sees p'.left.current marks := by
  rw [follows.current]
  exact h.mono follows.grows

end Pair

theorem Closure.Twin.mono {inner : List Bool} {f f' : Closure} (h : Closure.Twin σ p inner f f')
    (grows : p.Grows p') : Closure.Twin σ p' inner f f' := by
  obtain ⟨id, scope, initializer, marks, sees, code⟩ := h
  exact ⟨id, scope, initializer, marks, sees.mono grows, code⟩

theorem Class.Twin.mono {c c' : Class} (h : Class.Twin σ p c c') (grows : p.Grows p') :
    Class.Twin σ p' c c' :=
  ⟨h.id, h.name, h.methods.imp fun _ _ twin => twin.mono grows,
    h.statics.imp fun _ _ twin => twin.mono grows⟩

theorem Value.Twin.mono {v v' : Value} (h : Value.Twin σ p v v') (grows : p.Grows p') :
    Value.Twin σ p' v v' := by
  cases h with
  | nil => exact .nil
  | bool b => exact .bool b
  | number x => exact .number x
  | string s => exact .string s
  | function twin => exact .function (twin.mono grows)
  | native n => exact .native n
  | ofClass twin => exact .ofClass (twin.mono grows)
  | object id twin => exact .object id (twin.mono grows)

theorem relOption_mono {o o' : Option Value} (h : Option.Rel (Value.Twin σ p) o o')
    (grows : p.Grows p') : Option.Rel (Value.Twin σ p') o o' := by
  cases h with
  | some twin => exact .some (twin.mono grows)
  | none => exact .none

/-- A pair in which nothing but the parts that may differ has changed. -/
theorem Pair.Like.grow (like : p.Like σ) (grows : p.Grows p')
    (size : p'.right.environments.size = p'.left.environments.size)
    (outer : ∀ e, p'.right.environments.outer? e = p'.left.environments.outer? e)
    (bound : ∀ e x, Option.Rel (Value.Twin σ p') (p'.left.environments.findHere? e x)
      (p'.right.environments.findHere? e (σ.swap (p'.marked e) x)))
    (instances : p'.right.instances.size = p'.left.instances.size)
    (fields : ∀ i x, Option.Rel (Value.Twin σ p') ((p'.left.fields i).find? x)
      ((p'.right.fields i).find? x))
    (nextId : p'.right.nextId = p'.left.nextId) (current : p'.right.current = p'.left.current)
    (callDepth : p'.right.callDepth = p'.left.callDepth) (out : p'.right.out = p'.left.out)
    (clock : p'.right.clock = p'.left.clock) (readings : p'.right.readings = p'.left.readings) :
    p'.Like σ :=
  ⟨Nat.lt_of_lt_of_le like.nonempty grows.size, (grows.marked Machine.globals like.nonempty).trans like.globals,
    size, outer, bound, instances, fields, nextId, current, callDepth, out, clock, readings⟩

theorem Pair.Like.congr (like : p.Like σ) (m m' : Machine)
    (environments : m.environments = p.left.environments)
    (environments' : m'.environments = p.right.environments)
    (instances : m.instances = p.left.instances) (instances' : m'.instances = p.right.instances)
    (nextId : m'.nextId = m.nextId) (current : m'.current = m.current)
    (callDepth : m'.callDepth = m.callDepth) (out : m'.out = m.out) (clock : m'.clock = m.clock)
    (readings : m'.readings = m.readings) :
    Pair.Like σ ⟨m, m', p.marked⟩ ∧ p.Grows ⟨m, m', p.marked⟩ := by
  have grows : p.Grows ⟨m, m', p.marked⟩ :=
    ⟨Nat.le_of_eq (by rw [environments]), fun e _ => by rw [environments], fun _ _ => rfl⟩
  refine ⟨like.grow grows ?_ ?_ (fun e x => ?_) ?_ (fun i x => ?_) nextId current callDepth out
    clock readings, grows⟩
  · rw [environments, environments', like.size]
  · rw [environments, environments']
    exact like.outer
  · have bound := relOption_mono (like.bound e x) grows
    rwa [← environments, ← environments'] at bound
  · rw [instances, instances', like.instances]
  · have fields := relOption_mono (like.fields i x) grows
    rw [Machine.fields, Machine.fields, ← instances, ← instances'] at fields
    exact fields

/-! Ways to put runs together -/

section

variable {α α' β β' : Type} {Q : α → α' → Pair → Prop}

theorem Pair.Ends.after {o : Outcome α} {o' : Outcome α'} (follows : p.Follows p')
    (h : p'.Ends σ Q o o') : p.Ends σ Q o o' := by
  cases h with
  | ok p₁ like follows' q => exact .ok p₁ like (follows.trans follows') q
  | fail e e' p₁ like follows' => exact .fail e e' p₁ like (follows.trans follows')
  | starved => exact .starved

namespace Agree

theorem weaken {r : Run α} {r' : Run α'} {Q' : α → α' → Pair → Prop} (h : Agree σ p r r' Q)
    (h' : ∀ a a' p', p'.Like σ → p.Follows p' → Q a a' p' → Q' a a' p') :
    Agree σ p r r' Q' := by
  unfold Agree at *
  generalize r p.left = o, r' p.right = o' at h
  cases h with
  | ok p₁ like follows q => exact .ok p₁ like follows (h' _ _ p₁ like follows q)
  | fail e e' p₁ like follows => exact .fail e e' p₁ like follows
  | starved => exact .starved

theorem pure {a : α} {a' : α'} (like : p.Like σ) (q : Q a a' p) :
    Agree σ p (pure a) (pure a') Q := .ok p like (.refl p) q

theorem starved : Agree σ p (Run.starved : Run α) (Run.starved : Run α') Q :=
  Pair.Ends.starved

theorem fail {e e' : Failure} {r : Run α} {r' : Run α'} (like : p.Like σ)
    (h : r p.left = .fail e p.left) (h' : r' p.right = .fail e' p.right) : Agree σ p r r' Q := by
  unfold Agree
  rw [h, h']
  exact .fail e e' p like (.refl p)

theorem step {r : Run α} {r' : Run α'} {a : α} {a' : α'} (p' : Pair)
    (h : r p.left = .ok a p'.left) (h' : r' p.right = .ok a' p'.right) (like : p'.Like σ)
    (follows : p.Follows p') (q : Q a a' p') : Agree σ p r r' Q := by
  unfold Agree
  rw [h, h']
  exact .ok p' like follows q

theorem bind {r : Run α} {r' : Run α'} {next : α → Run β} {next' : α' → Run β'}
    {Q' : β → β' → Pair → Prop} (h : Agree σ p r r' Q)
    (h' : ∀ a a' p', p'.Like σ → p.Follows p' → Q a a' p' →
      Agree σ p' (next a) (next' a') Q') : Agree σ p (r >>= next) (r' >>= next') Q' := by
  unfold Agree at *
  rw [Run.bind_apply, Run.bind_apply]
  generalize r p.left = o, r' p.right = o' at h
  cases h with
  | ok p₁ like follows q => exact (h' _ _ p₁ like follows q).after follows
  | fail e e' p₁ like follows => exact .fail e e' p₁ like follows
  | starved => exact .starved

/-- Runs in another environment; what is known at their end has to outlast the way back. -/
theorem within {e : Nat} {r : Run α} {r' : Run α'} (like : p.Like σ)
    (h : ∀ p', p'.Like σ → p.Grows p' → p'.left.current = e →
      Agree σ p' r r' fun a a' p₂ => ∀ p₃, p₂.Grows p₃ → p.Follows p₃ → Q a a' p₃) :
    Agree σ p (Run.within e r) (Run.within e r') Q := by
  obtain ⟨inside, grows⟩ := like.congr { p.left with current := e } { p.right with current := e }
    rfl rfl rfl rfl like.nextId rfl like.callDepth like.out like.clock like.readings
  have inner := h _ inside grows rfl
  unfold Agree at *
  unfold Run.within
  dsimp only at inner ⊢
  generalize r { p.left with current := e } = o, r' { p.right with current := e } = o' at inner
  have back {p₁ : Pair} (ended : p₁.Like σ) := ended.congr
    { p₁.left with current := p.left.current } { p₁.right with current := p.right.current }
    rfl rfl rfl rfl ended.nextId like.current ended.callDepth ended.out ended.clock ended.readings
  cases inner with
  | ok p₁ ended follows q =>
    obtain ⟨outside, grows'⟩ := back ended
    have follows : p.Follows _ := ⟨(grows.trans follows.grows).trans grows', rfl⟩
    exact .ok _ outside follows (q _ grows' follows)
  | fail f f' p₁ ended follows =>
    obtain ⟨outside, grows'⟩ := back ended
    exact .fail f f' _ outside ⟨(grows.trans follows.grows).trans grows', rfl⟩
  | starved => exact .starved

theorem asCall {limit : Option Nat} {paren paren' : Token} {r : Run α} {r' : Run α'}
    (like : p.Like σ)
    (h : ∀ p', p'.Like σ → p.Follows p' →
      Agree σ p' r r' fun a a' p₂ => ∀ p₃, p₂.Grows p₃ → p.Follows p₃ → Q a a' p₃) :
    Agree σ p (Run.asCall limit paren r) (Run.asCall limit paren' r') Q := by
  have depth : p.right.callDepth + 1 = p.left.callDepth + 1 := by rw [like.callDepth]
  obtain ⟨inside, grows⟩ := like.congr { p.left with callDepth := p.left.callDepth + 1 }
    { p.right with callDepth := p.right.callDepth + 1 }
    rfl rfl rfl rfl like.nextId like.current depth like.out like.clock like.readings
  have inner := h _ inside ⟨grows, rfl⟩
  unfold Agree at *
  unfold Run.asCall
  have same : limit.any (· ≤ p.right.callDepth) = limit.any (· ≤ p.left.callDepth) := by
    rw [like.callDepth]
  by_cases full : limit.any (· ≤ p.left.callDepth) = true
  · rw [if_pos full, if_pos (same.trans full)]
    exact .fail _ _ p like (.refl p)
  rw [if_neg full, if_neg (same ▸ full)]
  dsimp only at inner ⊢
  generalize r { p.left with callDepth := p.left.callDepth + 1 } = o,
    r' { p.right with callDepth := p.right.callDepth + 1 } = o' at inner
  have back {p₁ : Pair} (ended : p₁.Like σ) := ended.congr
    { p₁.left with callDepth := p₁.left.callDepth - 1 }
    { p₁.right with callDepth := p₁.right.callDepth - 1 }
    rfl rfl rfl rfl ended.nextId ended.current (by rw [ended.callDepth]) ended.out ended.clock
    ended.readings
  cases inner with
  | ok p₁ ended follows q =>
    obtain ⟨outside, grows'⟩ := back ended
    have follows : p.Follows _ := ⟨(grows.trans follows.grows).trans grows', follows.current⟩
    exact .ok _ outside follows (q _ grows' follows)
  | fail f f' p₁ ended follows =>
    obtain ⟨outside, grows'⟩ := back ended
    exact .fail f f' _ outside ⟨(grows.trans follows.grows).trans grows', follows.current⟩
  | starved => exact .starved

end Agree

end

/-! What machines do -/

def Pair.push (p : Pair) (outer : Nat) (mark : Bool) (bindings bindings' : Bindings Value) : Pair where
  left := { p.left with environments := p.left.environments.push (some outer) bindings }
  right := { p.right with environments := p.right.environments.push (some outer) bindings' }
  marked e := if e = p.left.environments.size then mark else p.marked e

section

variable {outer : Nat} {mark : Bool} {bindings bindings' : Bindings Value}

theorem Pair.grows_push :
    p.Grows (p.push outer mark bindings bindings') := by
  refine ⟨?_, fun e lt => ?_, fun e lt => if_neg (Nat.ne_of_lt lt)⟩
  · exact Nat.le_of_lt (by simp [Pair.push])
  · exact Forest.outer?_push_of_lt lt _ _

theorem Pair.sees_push {marks : List Bool} (sees : p.Sees outer marks) :
    (p.push outer mark bindings bindings').Sees p.left.environments.size (mark :: marks) := by
  have grows : p.Grows (p.push outer mark bindings bindings') := grows_push
  have link : (p.push outer mark bindings bindings').left.environments.outer?
      p.left.environments.size = some outer := Forest.outer?_push_size _ sees.1 _
  refine ⟨?_, fun i a found => ?_⟩
  · simp [Pair.push]
  cases i with
  | zero =>
    cases found
    exact if_pos rfl
  | succ i =>
    rw [Forest.ancestor?, link] at found
    exact (sees.mono grows).2 i a found

theorem Pair.Like.push (like : p.Like σ) (exists_ : outer < p.left.environments.size)
    (found : ∀ x, Option.Rel (Value.Twin σ p) (bindings.find? x)
      (bindings'.find? (σ.swap mark x))) :
    (p.push outer mark bindings bindings').Like σ := by
  have grows : p.Grows (p.push outer mark bindings bindings') := grows_push
  have exists' : outer < p.right.environments.size := like.size ▸ exists_
  refine like.grow grows ?_ (fun e => ?_) (fun e x => ?_) like.instances
    (fun i x => relOption_mono (like.fields i x) grows) like.nextId like.current like.callDepth
    like.out like.clock like.readings
  · simp [Pair.push, like.size]
  · show (p.right.environments.push (some outer) bindings').outer? e =
      (p.left.environments.push (some outer) bindings).outer? e
    rw [Forest.outer?_push_ite _ exists_, Forest.outer?_push_ite _ exists', like.size, like.outer]
  · refine relOption_mono ?_ grows
    show Option.Rel _ ((p.left.environments.push (some outer) bindings).findHere? e x)
      ((p.right.environments.push (some outer) bindings').findHere? e
        (σ.swap (if e = p.left.environments.size then mark else p.marked e) x))
    rw [Forest.findHere?_push_ite, Forest.findHere?_push_ite, like.size]
    split
    · exact found x
    · exact like.bound e x

end

def Pair.define (p : Pair) (e : Nat) (x x' : String) (v v' : Value) : Pair where
  left := { p.left with environments := p.left.environments.define e x v }
  right := { p.right with environments := p.right.environments.define e x' v' }
  marked := p.marked

theorem Pair.grows_define (p : Pair) (e : Nat) (x x' : String) (v v' : Value) :
    p.Grows (p.define e x x' v v') :=
  ⟨Nat.le_of_eq (Forest.size_define _ _ _ _).symm, fun _ _ => Forest.outer?_define _ _ _ _ _,
    fun _ _ => rfl⟩

theorem Pair.Like.define {e : Nat} {x x' : String} {v v' : Value} (like : p.Like σ)
    (name : x' = σ.swap (p.marked e) x) (twin : Value.Twin σ p v v') :
    (p.define e x x' v v').Like σ := by
  have grows := p.grows_define e x x' v v'
  subst name
  refine like.grow grows ?_ (fun i => ?_) (fun i z => relOption_mono ?_ grows) like.instances
    (fun i z => relOption_mono (like.fields i z) grows) like.nextId like.current like.callDepth
    like.out like.clock like.readings
  · simp [Pair.define, like.size]
  · exact (Forest.outer?_define _ _ _ _ _).trans
      ((like.outer i).trans (Forest.outer?_define _ _ _ _ _).symm)
  · show Option.Rel _ ((p.left.environments.define e x v).findHere? i z)
      ((p.right.environments.define e (σ.swap (p.marked e) x) v').findHere? i
        (σ.swap (p.marked i) z))
    rw [Forest.findHere?_define, Forest.findHere?_define, like.size]
    by_cases here : e = i
    · subst here
      simp only [σ.swap_inj, true_and]
      split
      · exact .some twin
      · exact like.bound e z
    · simp only [here, false_and, and_false, if_false]
      exact like.bound i z

namespace Agree

variable {α α' β β' : Type}

theorem newEnvironment {outer : Nat} {marks : List Bool} {bindings bindings' : Bindings Value}
    {next : Nat → Run β} {next' : Nat → Run β'} {Q : β → β' → Pair → Prop} (mark : Bool)
    (like : p.Like σ) (sees : p.Sees outer marks)
    (found : ∀ x, Option.Rel (Value.Twin σ p) (bindings.find? x) (bindings'.find? (σ.swap mark x)))
    (h : ∀ e p', p'.Like σ → p.Follows p' → p'.Sees e (mark :: marks) →
      (∀ x, p'.left.environments.findHere? e x = bindings.find? x) →
        Agree σ p' (next e) (next' e) Q) :
    Agree σ p (Run.newEnvironment outer bindings >>= next)
      (Run.newEnvironment outer bindings' >>= next') Q := by
  have follows : p.Follows (p.push outer mark bindings bindings') :=
    ⟨Pair.grows_push, rfl⟩
  have rest := h _ _ (like.push sees.1 found) follows (Pair.sees_push sees)
    fun x => Forest.findHere?_push_size _ _ _ _
  unfold Agree at *
  rw [Run.bind_apply, Run.bind_apply]
  have same : Run.newEnvironment outer bindings' p.right =
      .ok p.left.environments.size (p.push outer mark bindings bindings').right := by
    rw [← like.size]
    rfl
  rw [same]
  exact rest.after follows

theorem define {x x' : String} {v v' : Value} {Q : Unit → Unit → Pair → Prop} (like : p.Like σ)
    (name : x' = σ.swap (p.marked p.left.current) x) (twin : Value.Twin σ p v v')
    (q : ∀ p', p'.Like σ → p.Follows p' → Q () () p') :
    Agree σ p (Run.define x v) (Run.define x' v') Q := by
  have follows : p.Follows (p.define p.left.current x x' v v') := ⟨p.grows_define _ _ _ _ _, rfl⟩
  have ended := like.define name twin
  refine step _ rfl ?_ ended follows (q _ ended follows)
  have same : p.right.environments.define p.right.current x' v' =
      p.right.environments.define p.left.current x' v' := by rw [like.current]
  unfold Run.define
  rw [same]
  rfl

theorem lookUp {name name' : Token} {depth : Option Nat} {marks : List Bool} (like : p.Like σ)
    (sees : p.Sees p.left.current marks) (twin : name.Twin σ (Exchange.mark marks depth) name') :
    Agree σ p (Run.lookUp name depth) (Run.lookUp name' depth)
      fun v v' p' => Value.Twin σ p' v v' := by
  unfold Agree Run.lookUp
  cases depth with
  | some d =>
    -- The mark of the environment that the distance leads to says whether the name is exchanged there.
    have found : Option.Rel (Value.Twin σ p)
        (p.left.environments.findAt? p.left.current d name.lexeme)
        (p.right.environments.findAt? p.right.current d name'.lexeme) := by
      rw [twin, Forest.findAt?, Forest.findAt?, Forest.ancestor?_eq like.outer, like.current]
      cases ancestor : p.left.environments.ancestor? p.left.current d with
      | none => exact .none
      | some a =>
        rw [Exchange.mark, ← sees.2 d a ancestor]
        exact like.bound a name.lexeme
    dsimp only
    generalize p.left.environments.findAt? p.left.current d name.lexeme = o at found ⊢
    generalize p.right.environments.findAt? p.right.current d name'.lexeme = o' at found ⊢
    cases found with
    | some twin => exact .ok p like (.refl p) twin
    | none => exact .fail _ _ p like (.refl p)
  | none =>
    have found : Option.Rel (Value.Twin σ p)
        (p.left.environments.find? Machine.globals name.lexeme)
        (p.right.environments.find? Machine.globals name'.lexeme) := by
      rw [twin, Machine.globals, Forest.find?_zero, Forest.find?_zero, Exchange.mark,
        ← like.globals]
      exact like.bound Machine.globals name.lexeme
    dsimp only
    generalize p.left.environments.find? Machine.globals name.lexeme = o at found ⊢
    generalize p.right.environments.find? Machine.globals name'.lexeme = o' at found ⊢
    cases found with
    | some twin => exact .ok p like (.refl p) twin
    | none => exact .fail _ _ p like (.refl p)

theorem isSome_twin (like : p.Like σ) (e : Nat) (x : String) :
    (p.right.environments.findHere? e (σ.swap (p.marked e) x)).isSome =
      (p.left.environments.findHere? e x).isSome := by
  have bound := like.bound e x
  generalize p.left.environments.findHere? e x = o at bound ⊢
  generalize p.right.environments.findHere? e (σ.swap (p.marked e) x) = o' at bound ⊢
  cases bound <;> rfl

/-- Twin machines hold a name in the same environment, with the mark that goes with its depth. -/
theorem holder_twin {marks : List Bool} (like : p.Like σ) (sees : p.Sees p.left.current marks)
    (d : Nat) (x : String) :
    p.right.environments.holderAt? p.right.current d (σ.swap (marks.getD d false) x) =
        p.left.environments.holderAt? p.left.current d x ∧
      ∀ e, p.left.environments.holderAt? p.left.current d x = some e →
        p.marked e = marks.getD d false := by
  rw [Forest.holderAt?, Forest.holderAt?, Forest.ancestor?_eq like.outer, like.current]
  cases ancestor : p.left.environments.ancestor? p.left.current d with
  | none => exact ⟨rfl, fun _ held => by cases held⟩
  | some a =>
    have mark := sees.2 d a ancestor
    have same := isSome_twin like a x
    rw [mark] at same
    constructor
    · rw [Option.filter_some, Option.filter_some, same]
    · intro e held
      rw [Option.filter_some] at held
      split at held
      · cases held
        exact mark
      · cases held

theorem assign {name name' : Token} {depth : Option Nat} {marks : List Bool} {v v' : Value}
    {Q : Unit → Unit → Pair → Prop} (like : p.Like σ) (sees : p.Sees p.left.current marks)
    (twin : name.Twin σ (Exchange.mark marks depth) name') (value : Value.Twin σ p v v')
    (q : ∀ p', p'.Like σ → p.Follows p' → Q () () p') :
    Agree σ p (Run.assign name depth v) (Run.assign name' depth v') Q := by
  have assigned {e : Nat} (mark : p.marked e = Exchange.mark marks depth) :
      p.Ends σ Q (.ok () (p.define e name.lexeme name'.lexeme v v').left)
        (.ok () (p.define e name.lexeme name'.lexeme v v').right) := by
    have follows : p.Follows (p.define e name.lexeme name'.lexeme v v') :=
      ⟨p.grows_define _ _ _ _ _, rfl⟩
    have same : name'.lexeme = σ.swap (p.marked e) name.lexeme := by
      rw [mark]
      exact twin
    have ended := like.define same value
    exact .ok _ ended follows (q _ ended follows)
  unfold Agree Run.assign
  cases depth with
  | some d =>
    obtain ⟨same, marked⟩ := holder_twin like sees d name.lexeme
    have held : p.right.environments.holderAt? p.right.current d name'.lexeme =
        p.left.environments.holderAt? p.left.current d name.lexeme := by rw [twin]; exact same
    dsimp only
    rw [held]
    cases found : p.left.environments.holderAt? p.left.current d name.lexeme with
    | none => exact .fail _ _ p like (.refl p)
    | some e => exact assigned (marked e found)
  | none =>
    have same := isSome_twin like Machine.globals name.lexeme
    have lexeme : name'.lexeme = name.lexeme := twin
    rw [like.globals, Exchange.swap_false, Machine.globals] at same
    dsimp only
    rw [Machine.globals, Forest.holder?_zero, Forest.holder?_zero, lexeme, same]
    cases (p.left.environments.findHere? 0 name.lexeme).isSome with
    | false => exact .fail _ _ p like (.refl p)
    | true =>
      have assigned := assigned (e := 0) like.globals
      rw [lexeme] at assigned
      exact assigned

end Agree

end LoxLang
