import LoxLang.Proofs.Running.Abreast
import LoxLang.Proofs.Running.World
import Mathlib.Data.Nat.Find
import Mathlib.Logic.Relation
/-!
Two ways to a name: walking outward until some environment binds it, and jumping a known distance outward.
`Forest.get` and `Forest.assign` walk, `Forest.getAt` and `Forest.assignAt` jump; all four answer a name that
is not found with the same error and leave the store as it is. A run looks names up and assigns to them in
just these ways (`Run.lookUp_eq`, `Run.assign_eq`).

What is proved: the links outward never change, whatever steps a store takes (`Forest.Steps.ancestor?`);
the environment that a walk ends in is the nearest one that binds the name (`Forest.holder?_eq_some_iff`),
so a walk and a jump over that distance agree, in what they read and in the store they leave
(`Forest.walk_is_jump`).
-/
namespace LoxLang

namespace Forest

variable {α : Type}

/-! Reading and assigning -/

/-- What a name is bound to, searched from `e` outward. -/
def get (f : Forest α) (e : Nat) (name : Token) : Except RuntimeError α :=
  (f.find? e name.lexeme).elim (.error ⟨.undefinedVariable, name⟩) .ok

/-- What a name is bound to `distance` links outward from `e`. -/
def getAt (f : Forest α) (e distance : Nat) (name : Token) : Except RuntimeError α :=
  (f.findAt? e distance name.lexeme).elim (.error ⟨.undefinedVariable, name⟩) .ok

/-- Changes the nearest binding of a name from `e` outward, with the store that is left. -/
def assign (f : Forest α) (e : Nat) (name : Token) (a : α) : Except RuntimeError Unit × Forest α :=
  (f.assign? e name.lexeme a).elim (.error ⟨.undefinedVariable, name⟩, f) (.ok (), ·)

/-- Changes the binding of a name `distance` links outward from `e`, with the store that is left. -/
def assignAt (f : Forest α) (e distance : Nat) (name : Token) (a : α) :
    Except RuntimeError Unit × Forest α :=
  (f.assignAt? e distance name.lexeme a).elim (.error ⟨.undefinedVariable, name⟩, f) (.ok (), ·)

/-- The environment `distance` links outward from `e` is there and binds the name. -/
def BindsAt (f : Forest α) (e distance : Nat) (name : String) : Prop :=
  ∃ h, f.ancestor? e distance = some h ∧ (f.findHere? h name).isSome

/-- The distance of the nearest environment that binds the name, from `e` outward. -/
structure Nearest (f : Forest α) (e : Nat) (name : String) (distance : Nat) : Prop where
  binds : f.BindsAt e distance name
  first : ∀ nearer < distance, ¬ f.BindsAt e nearer name

/-! Walks -/

theorem holder?_eq (f : Forest α) (e : Nat) (name : String) :
    f.holder? e name =
      if (f.findHere? e name).isSome then some e else (f.outer? e).bind (f.holder? · name) := by
  rw [holder?]
  split
  · rfl
  · split <;> rename_i link <;> rw [link] <;> rfl

theorem bindsAt_zero {f : Forest α} {e : Nat} {name : String} :
    f.BindsAt e 0 name ↔ (f.findHere? e name).isSome :=
  ⟨fun ⟨_, here, bound⟩ => Option.some.inj here ▸ bound, fun bound => ⟨e, rfl, bound⟩⟩

theorem bindsAt_succ {f : Forest α} {e d : Nat} {name : String} :
    f.BindsAt e (d + 1) name ↔ ∃ p, f.outer? e = some p ∧ f.BindsAt p d name := by
  unfold BindsAt
  rw [ancestor?]
  cases f.outer? e with
  | none => simp
  | some p => simp

theorem Nearest.unique {f : Forest α} {e d d' : Nat} {name : String} (h : f.Nearest e name d)
    (h' : f.Nearest e name d') : d = d' := by
  rcases Nat.lt_trichotomy d d' with lt | same | gt
  · exact absurd h.binds (h'.first d lt)
  · exact same
  · exact absurd h'.binds (h.first d' gt)

theorem exists_nearest {f : Forest α} {e : Nat} {name : String} (h : ∃ d, f.BindsAt e d name) :
    ∃ d, f.Nearest e name d := by
  classical exact ⟨Nat.find h, Nat.find_spec h, fun _ lt => Nat.find_min h lt⟩

/-- A walk ends in the nearest environment that binds the name: by induction outward, with nothing
bound nearer as the invariant. -/
theorem holder?_eq_some_iff {f : Forest α} {e h : Nat} {name : String} :
    f.holder? e name = some h ↔ ∃ d, f.Nearest e name d ∧ f.ancestor? e d = some h := by
  induction e using Nat.strongRecOn with
  | ind e ih =>
    rw [holder?_eq]
    split
    · rename_i here
      have nearest : f.Nearest e name 0 :=
        ⟨bindsAt_zero.mpr here, fun nearer lt => absurd lt (Nat.not_lt_zero nearer)⟩
      refine ⟨fun found => ⟨0, nearest, found⟩, ?_⟩
      rintro ⟨d, nearest', found⟩
      rw [nearest'.unique nearest] at found
      exact found
    · rename_i here
      have further {d : Nat} (nearest : f.Nearest e name d) : ∃ d', d = d' + 1 := by
        cases d with
        | zero => exact absurd (bindsAt_zero.mp nearest.binds) here
        | succ d => exact ⟨d, rfl⟩
      cases link : f.outer? e with
      | none =>
        constructor
        · intro found
          cases found
        · rintro ⟨d, nearest, found⟩
          obtain ⟨d, rfl⟩ := further nearest
          rw [ancestor?, link] at found
          cases found
      | some p =>
        rw [Option.bind_some, ih p (outer?_lt link)]
        constructor
        · rintro ⟨d, nearest, found⟩
          refine ⟨d + 1, ⟨bindsAt_succ.mpr ⟨p, link, nearest.binds⟩, ?_⟩, by
            rw [ancestor?, link]
            exact found⟩
          rintro (_ | nearer) lt binds
          · exact here (bindsAt_zero.mp binds)
          · obtain ⟨p', link', binds⟩ := bindsAt_succ.mp binds
            cases link.symm.trans link'
            exact nearest.first nearer (Nat.lt_of_succ_lt_succ lt) binds
        · rintro ⟨d, nearest, found⟩
          obtain ⟨d, rfl⟩ := further nearest
          obtain ⟨p', link', binds⟩ := bindsAt_succ.mp nearest.binds
          cases link.symm.trans link'
          rw [ancestor?, link] at found
          exact ⟨d, ⟨binds, fun nearer lt binds' =>
            nearest.first (nearer + 1) (Nat.succ_lt_succ lt) (bindsAt_succ.mpr ⟨p, link, binds'⟩)⟩, found⟩

theorem holder?_eq_none_iff {f : Forest α} {e : Nat} {name : String} :
    f.holder? e name = none ↔ ¬ ∃ d, f.BindsAt e d name := by
  constructor
  · intro nowhere bound
    obtain ⟨d, nearest⟩ := exists_nearest bound
    obtain ⟨h, found, _⟩ := nearest.binds
    rw [holder?_eq_some_iff.mpr ⟨d, nearest, found⟩] at nowhere
    cases nowhere
  · intro nowhere
    cases found : f.holder? e name with
    | none => rfl
    | some h =>
      obtain ⟨d, nearest, _⟩ := holder?_eq_some_iff.mp found
      exact absurd ⟨d, nearest.binds⟩ nowhere

theorem holderAt?_eq_none_iff {f : Forest α} {e d : Nat} {name : String} :
    f.holderAt? e d name = none ↔ ¬ f.BindsAt e d name := by
  unfold holderAt? BindsAt
  cases f.ancestor? e d with
  | none => simp
  | some h => simp

/-- Over the distance of the nearest environment that binds the name, a walk and a jump end in the
same environment. -/
theorem Nearest.holder? {f : Forest α} {e d : Nat} {name : String} (h : f.Nearest e name d) :
    f.holder? e name = f.holderAt? e d name := by
  obtain ⟨a, found, bound⟩ := h.binds
  rw [holder?_eq_some_iff.mpr ⟨d, h, found⟩, holderAt?, found, Option.filter_some, if_pos bound]

theorem findAt?_eq (f : Forest α) (e d : Nat) (name : String) :
    f.findAt? e d name = (f.holderAt? e d name).bind fun h => f.findHere? h name := by
  unfold findAt? holderAt?
  cases f.ancestor? e d with
  | none => rfl
  | some h =>
    cases bound : f.findHere? h name with
    | none => simp [Option.filter, bound]
    | some a => simp [Option.filter, bound]

/-! Steps of a store -/

/-- One step in the making of a store: a new outermost environment, a new one inside another, a
definition, or an assignment of either kind. -/
inductive Step : Forest α → Forest α → Prop
  | root (f : Forest α) (bindings : Bindings α) : Step f (f.push none bindings)
  | child (f : Forest α) (e : Nat) (bindings : Bindings α) : e < f.size →
    Step f (f.push (some e) bindings)
  | define (f : Forest α) (e : Nat) (name : String) (a : α) : Step f (f.define e name a)
  | assign (f : Forest α) (e : Nat) (name : Token) (a : α) : Step f (f.assign e name a).2
  | assignAt (f : Forest α) (e d : Nat) (name : Token) (a : α) : Step f (f.assignAt e d name a).2

abbrev Steps : Forest α → Forest α → Prop := Relation.ReflTransGen Step

/-- What an assignment leaves is the store itself or the store with one definition. -/
theorem assign_snd (f : Forest α) (e : Nat) (name : Token) (a : α) :
    (f.assign e name a).2 = f ∨ ∃ h, (f.assign e name a).2 = f.define h name.lexeme a := by
  unfold assign assign?
  cases f.holder? e name.lexeme with
  | none => exact .inl rfl
  | some h => exact .inr ⟨h, rfl⟩

theorem assignAt_snd (f : Forest α) (e d : Nat) (name : Token) (a : α) :
    (f.assignAt e d name a).2 = f ∨ ∃ h, (f.assignAt e d name a).2 = f.define h name.lexeme a := by
  unfold assignAt assignAt?
  cases f.holderAt? e d name.lexeme with
  | none => exact .inl rfl
  | some h => exact .inr ⟨h, rfl⟩

/-- A step adds environments at the end and keeps the links of those that are there. -/
theorem Step.keeps {f f' : Forest α} (step : Step f f') :
    f.size ≤ f'.size ∧ ∀ e < f.size, f'.outer? e = f.outer? e := by
  have defined (h : Nat) (name : String) (a : α) : f.size ≤ (f.define h name a).size ∧
      ∀ e < f.size, (f.define h name a).outer? e = f.outer? e :=
    ⟨Nat.le_of_eq (size_define ..).symm, fun e _ => outer?_define f h name a e⟩
  cases step with
  | root bindings =>
    exact ⟨by rw [size_push]; exact Nat.le_succ _, fun e lt => outer?_push_of_lt lt none bindings⟩
  | child outer bindings _ =>
    exact ⟨by rw [size_push]; exact Nat.le_succ _, fun e lt => outer?_push_of_lt lt (some outer) bindings⟩
  | define e name a => exact defined e name a
  | assign e name a =>
    rcases assign_snd f e name a with same | ⟨h, changed⟩
    · rw [same]; exact ⟨Nat.le_refl _, fun _ _ => rfl⟩
    · rw [changed]; exact defined h _ a
  | assignAt e d name a =>
    rcases assignAt_snd f e d name a with same | ⟨h, changed⟩
    · rw [same]; exact ⟨Nat.le_refl _, fun _ _ => rfl⟩
    · rw [changed]; exact defined h _ a

theorem Steps.keeps {f f' : Forest α} (steps : Steps f f') :
    f.size ≤ f'.size ∧ ∀ e < f.size, f'.outer? e = f.outer? e := by
  induction steps with
  | refl => exact ⟨Nat.le_refl _, fun _ _ => rfl⟩
  | tail _ step ih =>
    obtain ⟨size, links⟩ := step.keeps
    exact ⟨Nat.le_trans ih.1 size, fun e lt => (links e (Nat.lt_of_lt_of_le lt ih.1)).trans (ih.2 e lt)⟩

/-- The environment a distance outward stays the same one. -/
theorem Steps.ancestor? {f f' : Forest α} (steps : Steps f f') {e : Nat} (lt : e < f.size) (d : Nat) :
    f'.ancestor? e d = f.ancestor? e d :=
  ancestor?_congr steps.keeps.2 d lt

/-! A name that is bound again where it is bound -/

/-- Where walks end is a matter of the links and of what is bound, not of the values. -/
theorem holder?_congr {f f' : Forest α} {name : String} (links : ∀ e, f'.outer? e = f.outer? e)
    (bound : ∀ e, (f'.findHere? e name).isSome = (f.findHere? e name).isSome) (e : Nat) :
    f'.holder? e name = f.holder? e name := by
  induction e using Nat.strongRecOn with
  | ind e ih =>
    rw [holder?_eq, holder?_eq, links e, bound e]
    cases link : f.outer? e with
    | none => rfl
    | some p => rw [Option.bind_some, Option.bind_some, ih p (outer?_lt link)]

/-- A definition of a name that is bound binds no name anew. -/
theorem isSome_findHere?_define {f : Forest α} {h : Nat} {name : String}
    (bound : (f.findHere? h name).isSome) (a : α) (e : Nat) (other : String) :
    ((f.define h name a).findHere? e other).isSome = (f.findHere? e other).isSome := by
  rw [findHere?_define]
  split
  · rename_i changed
    obtain ⟨_, rfl, rfl⟩ := changed
    exact bound.symm
  · rfl

/-- The new value is seen from where a walk ends at the changed binding, and from nowhere else. -/
theorem find?_define {f : Forest α} {h : Nat} {name : String} (bound : (f.findHere? h name).isSome)
    (a : α) (e : Nat) (other : String) : (f.define h name a).find? e other =
      if other = name ∧ f.holder? e name = some h then some a else f.find? e other := by
  have walk : (f.define h name a).holder? e other = f.holder? e other :=
    holder?_congr (outer?_define f h name a) (fun e => isSome_findHere?_define bound a e other) e
  have lt : h < f.size := lt_size_of_findHere? bound
  rw [find?, find?, walk]
  cases found : f.holder? e other with
  | none =>
    refine (if_neg ?_).symm
    rintro ⟨rfl, there⟩
    cases found.symm.trans there
  | some h' =>
    rw [Option.bind_some, Option.bind_some, findHere?_define]
    by_cases same : other = name ∧ h' = h
    · obtain ⟨rfl, rfl⟩ := same
      rw [if_pos ⟨lt, rfl, rfl⟩, if_pos ⟨rfl, found⟩]
    · rw [if_neg fun written => same ⟨written.2.2.symm, written.2.1.symm⟩, if_neg]
      rintro ⟨rfl, there⟩
      exact same ⟨rfl, Option.some.inj (found.symm.trans there)⟩

/-! What is said of a whole store -/

/-- Walking and jumping agree on every store. Whatever steps it takes, the environment a distance outward
stays the same one. A name can be read by walking exactly if some environment outward binds it; over the
distance of the nearest one, a walk and a jump read the same value and leave the same store, in which the
new value is seen from wherever that environment is the nearest one that binds the name, and everything
else is seen as before. If there is none, all four fail with the same error and leave the store as it is. -/
theorem walk_is_jump (f : Forest α) :
    (∀ f', Steps f f' → ∀ e < f.size, ∀ d, f'.ancestor? e d = f.ancestor? e d) ∧
    ∀ (e : Nat) (x : Token) (v : α),
      ((∃ a, f.get e x = .ok a) ↔ ∃ d, f.BindsAt e d x.lexeme) ∧
      (∀ d, f.Nearest e x.lexeme d →
        f.get e x = f.getAt e d x ∧
        f.assign e x v = f.assignAt e d x v ∧
        (f.assign e x v).1 = .ok () ∧
        ∀ (e' : Nat) (z : Token),
          let seen := z.lexeme = x.lexeme ∧
            ∃ d', f.Nearest e' x.lexeme d' ∧ f.ancestor? e' d' = f.ancestor? e d
          (seen → (f.assign e x v).2.get e' z = .ok v) ∧
          (¬ seen → (f.assign e x v).2.get e' z = f.get e' z)) ∧
      ((¬ ∃ d, f.BindsAt e d x.lexeme) → ∃ u : RuntimeError,
        u.message = "Undefined variable '" ++ x.lexeme ++ "'." ∧ u.token = x ∧
        f.get e x = .error u ∧ f.assign e x v = (.error u, f) ∧
        ∀ d, f.getAt e d x = .error u ∧ f.assignAt e d x v = (.error u, f)) := by
  refine ⟨fun f' steps e lt d => steps.ancestor? lt d, fun e x v =>
    ⟨?_, fun d nearest => ?_, fun nowhere => ?_⟩⟩
  · rw [← not_iff_not, ← holder?_eq_none_iff, get, find?]
    cases found : f.holder? e x.lexeme with
    | none => simp
    | some h =>
      obtain ⟨a, bound⟩ := Option.isSome_iff_exists.mp (isSome_of_holder? found)
      simp [bound]
  · obtain ⟨h, there, bound⟩ := nearest.binds
    have walk : f.holder? e x.lexeme = some h := holder?_eq_some_iff.mpr ⟨d, nearest, there⟩
    -- What is assigned is bound where the walk ends, and that is where the jump ends.
    have changed : f.assign e x v = (.ok (), f.define h x.lexeme v) := by
      rw [assign, assign?, walk]; rfl
    refine ⟨?_, ?_, by rw [changed], fun e' z => ?_⟩
    · rw [get, getAt, find?, findAt?_eq, nearest.holder?]
    · rw [assign, assignAt, assign?, assignAt?, nearest.holder?]
    · have seen : (∃ d', f.Nearest e' x.lexeme d' ∧ f.ancestor? e' d' = f.ancestor? e d) ↔
          f.holder? e' x.lexeme = some h := by rw [there, holder?_eq_some_iff]
      rw [changed, seen, get, get, find?_define bound]
      exact ⟨fun yes => by rw [if_pos yes]; rfl, fun no => by rw [if_neg no]⟩
  · refine ⟨⟨.undefinedVariable, x⟩, rfl, rfl, ?_, ?_, fun d => ⟨?_, ?_⟩⟩
    · rw [get, find?, holder?_eq_none_iff.mpr nowhere]; rfl
    · rw [assign, assign?, holder?_eq_none_iff.mpr nowhere]; rfl
    · rw [getAt, findAt?_eq, holderAt?_eq_none_iff.mpr fun binds => nowhere ⟨d, binds⟩]; rfl
    · rw [assignAt, assignAt?, holderAt?_eq_none_iff.mpr fun binds => nowhere ⟨d, binds⟩]; rfl

/-- Two environments inside one that binds a name, the second of which binds it again. -/
def siblings : Forest Nat :=
  ((empty.push none [("a", 1)]).push (some 0) []).push (some 0) [("a", 2)]

/-- The first of two siblings assigns to a name of the environment around it; the second one, with
a binding of its own, does not notice. -/
theorem walk_is_jump_siblings :
    let a : Token := ⟨.identifier, "a", 1⟩
    siblings.Nearest 1 "a" 1 ∧ siblings.get 1 a = siblings.getAt 1 1 a ∧
      siblings.assign 1 a 7 = siblings.assignAt 1 1 a 7 ∧
      (siblings.assign 1 a 7).2.get 0 a = .ok 7 ∧
      (siblings.assign 1 a 7).2.get 2 a = siblings.get 2 a := by
  intro a
  have own {e : Nat} (here : (siblings.findHere? e "a").isSome) : siblings.Nearest e "a" 0 :=
    ⟨bindsAt_zero.mpr here, fun nearer lt => absurd lt (Nat.not_lt_zero nearer)⟩
  have nearest : siblings.Nearest 1 "a" 1 := by
    refine ⟨⟨0, by decide, by decide⟩, fun nearer lt binds => ?_⟩
    obtain rfl : nearer = 0 := by omega
    exact absurd (bindsAt_zero.mp binds) (by decide)
  obtain ⟨reads, leaves, _, seen⟩ := ((walk_is_jump siblings).2 1 a 7).2.1 1 nearest
  refine ⟨nearest, reads, leaves, (seen 0 a).1 ⟨rfl, 0, own (by decide), by decide⟩, (seen 2 a).2 ?_⟩
  rintro ⟨_, d, nearest', there⟩
  rw [nearest'.unique (own (by decide))] at there
  exact absurd there (by decide)

end Forest

/-! Runs -/

/-- A run reads a name by jumping, or by walking from the globals if it has no distance. -/
theorem Run.lookUp_eq (name : Token) (depth : Option Nat) (m : Machine) :
    lookUp name depth m =
      match depth.elim (m.environments.get Machine.globals name) (m.environments.getAt m.current · name) with
      | .ok v => .ok v m
      | .error u => .fail (.runtime u) m := by
  rw [lookUp_apply, Machine.named?]
  cases depth with
  | none =>
    simp only [Option.elim_none, Forest.get]
    cases m.environments.find? Machine.globals name.lexeme <;> rfl
  | some d =>
    simp only [Option.elim_some, Forest.getAt]
    cases m.environments.findAt? m.current d name.lexeme <;> rfl

theorem Run.assign_eq (name : Token) (depth : Option Nat) (v : Value) (m : Machine) :
    assign name depth v m =
      match depth.elim (m.environments.assign Machine.globals name v)
        (m.environments.assignAt m.current · name v) with
      | (.ok (), f) => .ok () { m with environments := f }
      | (.error u, f) => .fail (.runtime u) { m with environments := f } := by
  rw [assign_apply, Machine.holding?]
  cases depth with
  | none =>
    simp only [Option.elim_none, Forest.assign, Forest.assign?]
    cases m.environments.holder? Machine.globals name.lexeme <;> rfl
  | some d =>
    simp only [Option.elim_some, Forest.assignAt, Forest.assignAt?]
    cases m.environments.holderAt? m.current d name.lexeme <;> rfl

end LoxLang
