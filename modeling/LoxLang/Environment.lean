/-!
Environments: the scopes of a running program. Every environment binds names and may be enclosed
by another one, so together they form a forest. Environments are numbered in the order they are
made, and are enclosed by earlier ones only (`Forest.outer_lt`), so walking outward ends.
-/
namespace LoxLang

/-- Names with what they are bound to, each name once, in the order they were first bound. -/
abbrev Bindings (α : Type) := List (String × α)

namespace Bindings

variable {α : Type}

def find? (name : String) : Bindings α → Option α
  | [] => none
  | (n, a) :: rest => if n = name then some a else find? name rest

def binds (name : String) (bs : Bindings α) : Bool := (find? name bs).isSome

/-- Binds a name, in place of what it was bound to before. -/
def put (name : String) (a : α) : Bindings α → Bindings α
  | [] => [(name, a)]
  | (n, b) :: rest => if n = name then (n, a) :: rest else (n, b) :: put name a rest

def names (bs : Bindings α) : List String := bs.map Prod.fst

/-- Binding a name changes what is found under that name only. -/
theorem find?_put (name other : String) (a : α) (bs : Bindings α) :
    find? other (put name a bs) = if name = other then some a else find? other bs := by
  induction bs with
  | nil => simp [put, find?]
  | cons b bs ih =>
    obtain ⟨n, b⟩ := b
    by_cases h : n = name
    · subst h; by_cases h' : n = other <;> simp [put, find?, h']
    · by_cases h' : n = other
      · subst h'; simp [put, find?, h, Ne.symm h]
      · simp [put, find?, h, h', ih]

end Bindings

/-- One scope: its own bindings and the environment around it. -/
structure Environment (α : Type) where
  bindings : Bindings α
  outer : Option Nat

/-- All environments, by number. -/
structure Forest (α : Type) where
  environments : Array (Environment α)
  /-- An environment is enclosed by an earlier one. -/
  outer_lt : ∀ (e : Nat) (h : e < environments.size) (p : Nat),
    environments[e].outer = some p → p < e

namespace Forest

variable {α : Type}

def empty : Forest α := ⟨#[], fun _ h => absurd h (by simp)⟩

instance : Inhabited (Forest α) := ⟨empty⟩

/-- The number of environments, which is also the number of the next one. -/
def size (f : Forest α) : Nat := f.environments.size

/-- The environment around `e`. -/
def outer? (f : Forest α) (e : Nat) : Option Nat :=
  if h : e < f.environments.size then f.environments[e].outer else none

theorem outer?_lt {f : Forest α} {e p : Nat} (h : f.outer? e = some p) : p < e := by
  unfold outer? at h
  split at h
  · exact f.outer_lt e _ p h
  · cases h

/-- What `e` itself binds a name to. -/
def findHere? (f : Forest α) (e : Nat) (name : String) : Option α :=
  if h : e < f.environments.size then f.environments[e].bindings.find? name else none

/-- Adds an environment; only an earlier one can enclose it. -/
def push (f : Forest α) (outer : Option Nat) (bindings : Bindings α) : Forest α where
  environments := f.environments.push ⟨bindings, outer.filter (· < f.environments.size)⟩
  outer_lt := by
    intro e h p link
    rw [Array.getElem_push] at link
    split at link
    · exact f.outer_lt e _ p link
    · have := of_decide_eq_true (Option.filter_eq_some_iff.1 link).2
      rw [Array.size_push] at h
      omega

/-- Binds a name in `e`, in place of what it was bound to there. -/
def define (f : Forest α) (e : Nat) (name : String) (a : α) : Forest α where
  environments := f.environments.modify e fun env =>
    { env with bindings := env.bindings.put name a }
  outer_lt := by
    intro i h p link
    rw [Array.size_modify] at h
    rw [Array.getElem_modify] at link
    split at link
    · exact f.outer_lt i h p link
    · exact f.outer_lt i h p link

@[simp] theorem size_push (f : Forest α) (outer : Option Nat) (bindings : Bindings α) :
    (f.push outer bindings).size = f.size + 1 := by
  simp [size, push]

@[simp] theorem size_define (f : Forest α) (e : Nat) (name : String) (a : α) :
    (f.define e name a).size = f.size := by
  simp [size, define]

@[simp] theorem outer?_define (f : Forest α) (e : Nat) (name : String) (a : α) (i : Nat) :
    (f.define e name a).outer? i = f.outer? i := by
  by_cases h : i < f.environments.size
  · by_cases hi : e = i <;> simp [outer?, define, h, hi, Array.getElem_modify]
  · simp [outer?, define, h]

theorem outer?_push_of_lt {f : Forest α} {i : Nat} (h : i < f.size) (outer : Option Nat)
    (bindings : Bindings α) : (f.push outer bindings).outer? i = f.outer? i := by
  have hi : i < f.environments.size := h
  simp [outer?, push, hi, Array.getElem_push_lt, Nat.lt_succ_of_lt hi]

/-- A definition changes one name in one environment. -/
theorem findHere?_define (f : Forest α) (e : Nat) (name : String) (a : α) (i : Nat)
    (other : String) :
    (f.define e name a).findHere? i other =
      if i < f.size ∧ e = i ∧ name = other then some a else f.findHere? i other := by
  by_cases h : i < f.environments.size
  · by_cases hi : e = i
    · simp [findHere?, define, size, h, hi, Array.getElem_modify, Bindings.find?_put]
    · simp [findHere?, define, h, hi, Array.getElem_modify]
  · simp [findHere?, define, size, h]

theorem findHere?_push_of_lt {f : Forest α} {i : Nat} (h : i < f.size) (outer : Option Nat)
    (bindings : Bindings α) (name : String) :
    (f.push outer bindings).findHere? i name = f.findHere? i name := by
  have hi : i < f.environments.size := h
  simp [findHere?, push, hi, Array.getElem_push_lt, Nat.lt_succ_of_lt hi]

/-- The environment `distance` links outward from `e`. -/
def ancestor? (f : Forest α) (e : Nat) : (distance : Nat) → Option Nat
  | 0 => some e
  | d + 1 =>
    match f.outer? e with
    | some p => f.ancestor? p d
    | none => none

/-- The nearest environment that binds a name, from `e` outward. -/
def holder? (f : Forest α) (e : Nat) (name : String) : Option Nat :=
  if (f.findHere? e name).isSome then some e
  else
    match _link : f.outer? e with
    | some p => f.holder? p name
    | none => none
termination_by e
decreasing_by exact outer?_lt _link

/-- What a name is bound to, seen from `e`. -/
def find? (f : Forest α) (e : Nat) (name : String) : Option α :=
  (f.holder? e name).bind fun h => f.findHere? h name

/-- Changes the nearest binding of a name; none is made. -/
def assign? (f : Forest α) (e : Nat) (name : String) (a : α) : Option (Forest α) :=
  (f.holder? e name).map fun h => f.define h name a

/-- What the environment `distance` links outward from `e` binds a name to. -/
def findAt? (f : Forest α) (e distance : Nat) (name : String) : Option α :=
  (f.ancestor? e distance).bind fun h => f.findHere? h name

/-- The environment `distance` links outward from `e`, if it binds the name. -/
def holderAt? (f : Forest α) (e distance : Nat) (name : String) : Option Nat :=
  (f.ancestor? e distance).filter fun h => (f.findHere? h name).isSome

/-- Changes a binding `distance` links outward from `e`; none is made. -/
def assignAt? (f : Forest α) (e distance : Nat) (name : String) (a : α) : Option (Forest α) :=
  (f.holderAt? e distance name).map fun h => f.define h name a

end Forest

end LoxLang
