import LoxLang.Proofs.Nesting.Runs
import LoxLang.Proofs.Running.Control
/-!
A machine beside itself. Where no scope is marked, a program with the blocks is the program itself, so two runs
of it can start from one machine, and later differ in the environments of the blocks that one of them enters.

What is proved: a sound machine is like itself (`Nesting.like_double`), and from each of its environments
outward there are the same ones, whichever scopes they are for (`Nesting.sees_double`). Machines that are like
others are sound, and so a run of a statement from a sound machine leaves a sound one (`Run.execute_sound`).
-/
namespace LoxLang

variable {m : Machine}

/-- A machine beside itself. -/
def Nesting.double (m : Machine) : Nesting := ⟨m, m, id⟩

theorem Nesting.sees_double {e : Nat} (lt : e < m.environments.size) {marks : List Bool}
    (unmarked : Unmarked marks) : (Nesting.double m).Sees e e marks := by
  refine ⟨lt, lt, fun i => ?_⟩
  rw [Nesting.shift_of_unmarked unmarked]
  exact (congrFun Option.map_id _).symm

theorem Closure.nested_self (inner : List Bool) (f : Closure) (unmarked : Unmarked inner)
    (lt : f.scope < m.environments.size) : Closure.Nested (Nesting.double m) inner f f := by
  refine ⟨rfl, rfl, [], Nesting.sees_double lt .nil, Function.nested_self f.code ?_, fun _ => rfl⟩
  rwa [List.append_nil]

theorem option_nested_self {o : Option Value} (sound : ∀ v, o = some v → v.Sound m) :
    Option.Rel (Value.Nested (Nesting.double m)) o o :=
  relOption_imp (fun _ _ => Value.nested_iff.mpr) (option_alike_self Closure.nested_self sound)

/-- A sound machine is like itself. -/
theorem Nesting.like_double (sound : m.Sound) : (Nesting.double m).Like where
  nonempty := sound.nonempty
  globals := rfl
  inside _ lt := lt
  apart _ _ _ _ same := same
  bound e _ x := option_nested_self (sound.bound e x)
  instances := rfl
  fields i x := option_nested_self (sound.fields i x)
  nextId := rfl
  callDepth := rfl
  out := rfl
  clock := rfl
  readings := rfl

/-! Machines stay sound -/

section

variable {p : Nesting}

theorem Closure.Nested.sound {inner : List Bool} {f f' : Closure} (h : Closure.Nested p inner f f') :
    f.Sound p.left := by
  obtain ⟨_, sees, _⟩ := h.code
  exact sees.left

theorem sound_of_forall₂ {inner : List Bool} : ∀ {fs fs' : List Closure},
    List.Forall₂ (Closure.Nested p inner) fs fs' → ∀ f ∈ fs, f.Sound p.left
  | _ :: _, _ :: _, .cons first rest, f, mem => by
    rcases List.mem_cons.mp mem with rfl | mem
    · exact first.sound
    · exact sound_of_forall₂ rest f mem

theorem Class.Nested.sound {c c' : Class} (h : Class.Nested p c c') : c.Sound p.left :=
  ⟨sound_of_forall₂ h.methods, sound_of_forall₂ h.statics⟩

theorem Value.Nested.sound {v v' : Value} (h : Value.Nested p v v') : v.Sound p.left := by
  cases h with
  | function nested => exact Closure.Nested.sound nested
  | ofClass nested => exact Class.Nested.sound nested
  | object id nested => exact Class.Nested.sound nested
  | _ => trivial

theorem Nesting.Like.sound (like : p.Like) (current : p.left.current < p.left.environments.size) :
    p.left.Sound where
  nonempty := like.nonempty
  current := current
  bound e x v found := by
    have lt : e < p.left.environments.size := Forest.lt_size_of_findHere? (by rw [found]; rfl)
    have bound := like.bound e lt x
    generalize p.right.environments.findHere? (p.place e) x = o' at bound
    rw [found] at bound
    cases bound with
    | some nested => exact nested.sound
  fields i x v found := by
    have fields := like.fields i x
    generalize (p.right.fields i).find? x = o' at fields
    rw [found] at fields
    cases fields with
    | some nested => exact nested.sound

theorem Nesting.Ends.sound {α α' : Type} {t : Pace} {Q : α → α' → Nesting → Prop} {o : Outcome α}
    {o' : Outcome α'} (h : p.Ends t Q o o') (current : p.left.current < p.left.environments.size)
    (late : o' = .starved → o = .starved) {m' : Machine} (ended : o.state? = some m') : m'.Sound := by
  have later (p' : Nesting) (like : p'.Like) (follows : p.Follows p') : p'.left.Sound :=
    like.sound (follows.left ▸ Nat.lt_of_lt_of_le current follows.grows.left)
  cases h with
  | ok p' like follows =>
    cases ended
    exact later p' like follows
  | fail e p' like follows =>
    cases ended
    exact later p' like follows
  | starved => cases ended
  | early => cases ended
  | late =>
    rw [late rfl] at ended
    cases ended

end

/-- A statement leaves a sound machine, however it ends: it runs beside itself. -/
theorem Run.execute_sound {limit : Option Nat} {n : Nat} {s : Stmt} {m' : Machine} (sound : m.Sound)
    (ended : (Run.execute limit n s m).state? = some m') : m'.Sound := by
  have ran : Concur (.of n n) (Nesting.double m) (Run.execute limit n s) (Run.execute limit n s) _ :=
    (concurAll limit n n).execute (Nesting.like_double sound) (Nesting.sees_double sound.current .nil)
      (Stmt.nested_self s .nil)
  exact Nesting.Ends.sound ran sound.current id ended

end LoxLang
