import LoxLang.Proofs.Renaming.Rename
import LoxLang.Proofs.Running.Control
import LoxLang.Proofs.Running.Plain
/-!
Receivers are kept. An environment that binds `this` was made for one instance and one reading of a
method, or for one call of a class: nothing else is ever bound in it, and nothing else is ever bound to
`this`. A machine is faithful if that is so of all its environments, if initializers are met as methods
of classes or with an instance to return only, and if no code that is met gives `this` as a name.

What is proved: each step of a run leaves a faithful machine faithful, and the receivers of the
environments there are as they were (`Machine.Before`). `Run.Keeps` says so of a run, and that what
it finds or makes is faithful too.
-/
namespace LoxLang

/-- An environment binds `this` to a value, and binds nothing else. -/
def Machine.BindsThis (m : Machine) (e : Nat) (v : Value) : Prop :=
  ∀ x, m.environments.findHere? e x = if x = Keyword.this.word then some v else none

/-- A state that may come to be another one: environments and instances are added, and those that were
there have the receivers they had. -/
structure Machine.Before (m m' : Machine) : Prop where
  environments : m.environments.size ≤ m'.environments.size
  instances : m.instances.size ≤ m'.instances.size
  receivers : ∀ e v, e < m.environments.size → (m'.BindsThis e v ↔ m.BindsThis e v)

/-- Nothing in the code is named `this`, and an initializer has an instance to return. -/
structure Closure.Faithful (m : Machine) (f : Closure) : Prop where
  code : Keyword.this.word ∉ f.code.names
  receiver : f.initializer = true → ∃ i c, m.BindsThis f.scope (.object i c)

/-- Nothing in the methods is named `this`, and those that are named so are initializers. -/
structure Class.Faithful (c : Class) : Prop where
  methods : ∀ f ∈ c.methods,
    Keyword.this.word ∉ f.code.names ∧ f.initializer = (f.name == Class.initializerName)
  statics : ∀ f ∈ c.statics, Keyword.this.word ∉ f.code.names ∧ f.initializer = false

/-- The value refers to what is faithful, and if it is an instance there is one of its number. -/
def Value.Faithful (m : Machine) : Value → Prop
  | .callable (.function f) => f.Faithful m
  | .callable (.ofClass c) => c.Faithful
  | .object i c => i < m.instances.size ∧ c.Faithful
  | _ => True

def Flow.Faithful (m : Machine) : Flow → Prop
  | .normal => True
  | .returned v => v.Faithful m

/-- All that is bound is faithful, `this` is bound alone, not among the globals and not where statements
run. -/
structure Machine.Faithful (m : Machine) : Prop where
  bound : ∀ e x v, m.environments.findHere? e x = some v → v.Faithful m
  field : ∀ i x v, (m.fields i).find? x = some v → v.Faithful m
  alone : ∀ e v, m.environments.findHere? e Keyword.this.word = some v → m.BindsThis e v
  globals : m.environments.findHere? Machine.globals Keyword.this.word = none
  exists_current : m.current < m.environments.size
  current : m.environments.findHere? m.current Keyword.this.word = none

variable {m m' m'' : Machine} {e : Nat} {v : Value} {α β : Type}

theorem Machine.BindsThis.found (h : m.BindsThis e v) :
    m.environments.findHere? e Keyword.this.word = some v := by
  rw [h, if_pos rfl]

theorem Machine.BindsThis.lt_size (h : m.BindsThis e v) : e < m.environments.size :=
  Forest.lt_size_of_findHere? (by rw [h.found]; rfl)

theorem find?_this (x : String) (v : Value) : Bindings.find? x [("this", v)] =
    if x = Keyword.this.word then some v else none := by
  rw [Bindings.find?, Bindings.find?]
  simp only [eq_comm (a := "this")]
  rfl

theorem Machine.bindsThis_push (m : Machine) (outer : Option Nat) (v : Value) :
    ({ m with environments := m.environments.push outer [("this", v)] } : Machine).BindsThis
      m.environments.size v :=
  fun x => (Forest.findHere?_push_size ..).trans (find?_this x v)

/-! Earlier and later states -/

namespace Machine.Before

theorem of_eq (environments : m'.environments = m.environments)
    (instances : m'.instances.size = m.instances.size) : m.Before m' := by
  refine ⟨Nat.le_of_eq (by rw [environments]), Nat.le_of_eq instances.symm, fun e v _ => ?_⟩
  unfold BindsThis
  rw [environments]

theorem refl (m : Machine) : m.Before m := of_eq rfl rfl

theorem trans (h : m.Before m') (h' : m'.Before m'') : m.Before m'' where
  environments := Nat.le_trans h.environments h'.environments
  instances := Nat.le_trans h.instances h'.instances
  receivers e v lt :=
    (h'.receivers e v (Nat.lt_of_lt_of_le lt h.environments)).trans (h.receivers e v lt)

theorem keeps (h : m.Before m') (binds : m.BindsThis e v) : m'.BindsThis e v :=
  (h.receivers e v binds.lt_size).mpr binds

/-- Of two states one of which may come to be the other, the environments that exist in both have the
same receivers. -/
theorem agree (h : m.Before m' ∨ m'.Before m) (binds : m.BindsThis e v)
    (lt : e < m'.environments.size) : m'.BindsThis e v := by
  rcases h with before | after
  · exact before.keeps binds
  · exact (after.receivers e v lt).mp binds

/-- The environment that statements run in and the depth of calls do not count. -/
theorem congr {n n' : Machine} (h : m.Before m') (environments : n.environments = m.environments)
    (instances : n.instances.size = m.instances.size)
    (environments' : n'.environments = m'.environments)
    (instances' : n'.instances.size = m'.instances.size) : n.Before n' :=
  ((of_eq environments.symm instances.symm).trans h).trans (of_eq environments' instances')

theorem push (outer : Option Nat) (bindings : Bindings Value) :
    m.Before { m with environments := m.environments.push outer bindings } := by
  refine ⟨by simp, Nat.le_refl _, fun e v lt => ?_⟩
  unfold BindsThis
  simp only [Forest.findHere?_push_of_lt lt]

theorem define {x : String} (other : x ≠ Keyword.this.word)
    (unbound : m.environments.findHere? e Keyword.this.word = none) (w : Value) :
    m.Before { m with environments := m.environments.define e x w } := by
  refine ⟨Nat.le_of_eq (Forest.size_define ..).symm, Nat.le_refl _, fun i v lt => ?_⟩
  by_cases here : e = i
  · subst here
    constructor
    · intro binds
      have found := binds.found
      rw [Forest.findHere?_define, if_neg (fun both => other both.2.2), unbound] at found
      cases found
    · intro binds
      have found := binds.found
      rw [unbound] at found
      cases found
  · unfold BindsThis
    simp only [Forest.findHere?_define]
    simp [here]

theorem newInstance : m.Before { m with instances := m.instances.push [] } :=
  ⟨Nat.le_refl _, by simp, fun _ _ _ => Iff.rfl⟩

end Machine.Before

/-! What is faithful stays so -/

theorem Closure.Faithful.mono {f : Closure} (h : f.Faithful m) (later : m.Before m') :
    f.Faithful m' := by
  refine ⟨h.code, fun initializer => ?_⟩
  obtain ⟨i, c, binds⟩ := h.receiver initializer
  exact ⟨i, c, later.keeps binds⟩

theorem Value.Faithful.mono (h : v.Faithful m) (later : m.Before m') : v.Faithful m' := by
  cases v with
  | callable c =>
    cases c with
    | function f => exact Closure.Faithful.mono h later
    | native n => trivial
    | ofClass c => exact h
  | object i c => exact ⟨Nat.lt_of_lt_of_le h.1 later.instances, h.2⟩
  | _ => trivial

theorem Value.Plain.faithful (h : v.Plain) : v.Faithful m := by
  cases h <;> trivial

theorem Flow.Faithful.value {flow : Flow} (h : flow.Faithful m) : flow.value.Faithful m := by
  cases flow with
  | normal => trivial
  | returned v => exact h

theorem Flow.Faithful.mono {flow : Flow} (h : flow.Faithful m) (later : m.Before m') :
    flow.Faithful m' := by
  cases flow with
  | normal => trivial
  | returned v => exact Value.Faithful.mono h later

theorem Closure.Faithful.of_plain {f : Closure} (code : Keyword.this.word ∉ f.code.names)
    (plain : f.initializer = false) : f.Faithful m :=
  ⟨code, fun initializer => by rw [plain] at initializer; cases initializer⟩

namespace Machine.Faithful

theorem unbound (h : m.Faithful) {x : String} (other : x ≠ Keyword.this.word)
    (found : (m.environments.findHere? e x).isSome) :
    m.environments.findHere? e Keyword.this.word = none := by
  cases this : m.environments.findHere? e Keyword.this.word with
  | none => rfl
  | some v =>
    rw [h.alone e v this x, if_neg other] at found
    cases found

theorem congr (h : m.Faithful) (environments : m'.environments = m.environments)
    (instances : m'.instances = m.instances) (current : m'.current = m.current) :
    m'.Faithful := by
  have later : m.Before m' := .of_eq environments (by rw [instances])
  refine ⟨fun e x v found => ?_, fun i x v found => ?_, fun e v found => ?_, ?_, ?_, ?_⟩
  · exact (h.bound e x v (environments ▸ found)).mono later
  · unfold Machine.fields at found
    rw [instances] at found
    exact (h.field i x v found).mono later
  · exact later.keeps (h.alone e v (environments ▸ found))
  · rw [environments]
    exact h.globals
  · rw [environments, current]
    exact h.exists_current
  · rw [environments, current]
    exact h.current

theorem move (h : m.Faithful) (lt : e < m.environments.size)
    (unbound : m.environments.findHere? e Keyword.this.word = none) :
    ({ m with current := e } : Machine).Faithful where
  bound e x v found := (h.bound e x v found).mono (.of_eq rfl rfl)
  field i x v found := (h.field i x v found).mono (.of_eq rfl rfl)
  alone := h.alone
  globals := h.globals
  exists_current := lt
  current := unbound

/-- An environment that does not bind `this` does not come to bind it. -/
theorem unbound_later (h : m'.Faithful) (later : m.Before m') (lt : e < m.environments.size)
    (unbound : m.environments.findHere? e Keyword.this.word = none) :
    m'.environments.findHere? e Keyword.this.word = none := by
  cases this : m'.environments.findHere? e Keyword.this.word with
  | none => rfl
  | some v =>
    have binds := (later.receivers e v lt).mp (h.alone e v this)
    rw [binds.found] at unbound
    cases unbound

/-- A new environment: it binds `this` alone or not at all. -/
theorem push (h : m.Faithful) {outer : Option Nat} {bindings : Bindings Value}
    (faithful : ∀ x v, bindings.find? x = some v → v.Faithful m)
    (alone : ∀ v, bindings.find? Keyword.this.word = some v →
      ∀ x, bindings.find? x = if x = Keyword.this.word then some v else none) :
    ({ m with environments := m.environments.push outer bindings } : Machine).Faithful := by
  have later : m.Before { m with environments := m.environments.push outer bindings } :=
    .push outer bindings
  refine ⟨fun e x v found => ?_, fun i x v found => (h.field i x v found).mono later,
    fun e v found => ?_, ?_, ?_, ?_⟩
  · rcases Forest.findHere?_push found with old | ⟨_, new⟩
    · exact (h.bound e x v old).mono later
    · exact (faithful x v new).mono later
  · rcases Forest.findHere?_push found with old | ⟨rfl, new⟩
    · exact later.keeps (h.alone e v old)
    · intro x
      rw [← alone v new x, Forest.findHere?_push_size]
  · have lt : Machine.globals < m.environments.size := Nat.zero_lt_of_lt h.exists_current
    exact (Forest.findHere?_push_of_lt lt ..).trans h.globals
  · exact Nat.lt_of_lt_of_le h.exists_current later.environments
  · exact (Forest.findHere?_push_of_lt h.exists_current ..).trans h.current

theorem pushThis (h : m.Faithful) (outer : Option Nat) (faithful : v.Faithful m) :
    ({ m with environments := m.environments.push outer [("this", v)] } : Machine).Faithful := by
  apply h.push
  · intro x w found
    rw [find?_this] at found
    split at found
    · cases found
      exact faithful
    · cases found
  · intro w found x
    rw [find?_this, if_pos rfl] at found
    cases found
    exact find?_this x v

theorem define (h : m.Faithful) {x : String} (other : x ≠ Keyword.this.word)
    (unbound : m.environments.findHere? e Keyword.this.word = none) (faithful : v.Faithful m) :
    ({ m with environments := m.environments.define e x v } : Machine).Faithful := by
  have later := Machine.Before.define other unbound v
  refine ⟨fun i z w found => ?_, fun i z w found => (h.field i z w found).mono later,
    fun i w found => ?_, ?_, ?_, ?_⟩
  · rw [Forest.findHere?_define] at found
    split at found
    · cases found
      exact faithful.mono later
    · exact (h.bound i z w found).mono later
  · rw [Forest.findHere?_define, if_neg fun both => other both.2.2] at found
    exact later.keeps (h.alone i w found)
  · show (m.environments.define e x v).findHere? Machine.globals Keyword.this.word = none
    rw [Forest.findHere?_define, if_neg fun both => other both.2.2]
    exact h.globals
  · exact Nat.lt_of_lt_of_le h.exists_current later.environments
  · show (m.environments.define e x v).findHere? m.current Keyword.this.word = none
    rw [Forest.findHere?_define, if_neg fun both => other both.2.2]
    exact h.current

theorem newInstance (h : m.Faithful) :
    ({ m with instances := m.instances.push [] } : Machine).Faithful := by
  have later : m.Before { m with instances := m.instances.push [] } := .newInstance
  refine ⟨fun e x v found => (h.bound e x v found).mono later, fun i x v found => ?_, h.alone,
    h.globals, h.exists_current, h.current⟩
  rw [Machine.fields, fields_push] at found
  exact (h.field i x v found).mono later

theorem setField (h : m.Faithful) {i : Nat} {x : String} (faithful : v.Faithful m) :
    ({ m with instances := m.instances.modify i (·.put x v) } : Machine).Faithful := by
  have later : m.Before { m with instances := m.instances.modify i (·.put x v) } :=
    .of_eq rfl (Array.size_modify ..)
  refine ⟨fun e x v found => (h.bound e x v found).mono later, fun j z w found => ?_, h.alone,
    h.globals, h.exists_current, h.current⟩
  rw [Machine.fields, find?_fields_modify] at found
  split at found
  · cases found
    exact faithful.mono later
  · exact (h.field j z w found).mono later

theorem initial (out : Sink) (clock : Nat → Float) : (Machine.initial out clock).Faithful := by
  have native {e x v} (found : (Machine.initial out clock).environments.findHere? e x = some v) :
      v.Faithful (Machine.initial out clock) := by
    obtain ⟨n, rfl⟩ := Machine.native_of_initial found
    trivial
  refine ⟨fun e x v found => native found, fun i x v found => ?_, fun e v found => ?_,
    rfl, Nat.zero_lt_one, rfl⟩
  · cases found
  · rcases Forest.findHere?_push found with none | ⟨_, none⟩
    · cases none
    · cases none

end Machine.Faithful

/-! Runs -/

namespace Run

/-- However the run ends, it leaves the machine faithful and the receivers as they were, and it gives a
value of which something is known. -/
def Keeps (m : Machine) (r : Run α) (Q : α → Machine → Prop) : Prop :=
  match r m with
  | .ok a m' => m'.Faithful ∧ m.Before m' ∧ Q a m'
  | .fail _ m' => m'.Faithful ∧ m.Before m'
  | .starved => True

namespace Keeps

variable {r : Run α} {next : α → Run β} {Q : α → Machine → Prop} {R : β → Machine → Prop}

theorem step {a : α} (eq : r m = .ok a m') (h : m'.Faithful) (later : m.Before m') (q : Q a m') :
    Keeps m r Q := by
  unfold Keeps
  rw [eq]
  exact ⟨h, later, q⟩

theorem stop {f : Failure} (eq : r m = .fail f m') (h : m'.Faithful) (later : m.Before m') :
    Keeps m r Q := by
  unfold Keeps
  rw [eq]
  exact ⟨h, later⟩

theorem pure {a : α} (h : m.Faithful) (q : Q a m) : Keeps m (pure a) Q := step rfl h (.refl m) q

theorem starved : Keeps m (Run.starved : Run α) Q := trivial

theorem fault (h : m.Faithful) (token : Token) (f : RuntimeFault) :
    Keeps m (fault token f : Run α) Q := stop rfl h (.refl m)

theorem ok {a : α} (h : Keeps m r Q) (eq : r m = .ok a m') :
    m'.Faithful ∧ m.Before m' ∧ Q a m' := by
  unfold Keeps at h
  rw [eq] at h
  exact h

theorem ended (h : Keeps m r Q) (eq : (r m).state? = some m') : m'.Faithful ∧ m.Before m' := by
  unfold Keeps at h
  cases outcome : r m with
  | ok a m₁ =>
    rw [outcome] at h eq
    cases eq
    exact ⟨h.1, h.2.1⟩
  | fail f m₁ =>
    rw [outcome] at h eq
    cases eq
    exact h
  | starved =>
    rw [outcome] at eq
    cases eq

theorem bind (h : Keeps m r Q)
    (h' : ∀ a m', m'.Faithful → m.Before m' → Q a m' → Keeps m' (next a) R) :
    Keeps m (r >>= next) R := by
  unfold Keeps at h ⊢
  rw [bind_apply]
  cases eq : r m with
  | ok a m₁ =>
    rw [eq] at h
    obtain ⟨faithful, later, q⟩ := h
    have rest := h' a m₁ faithful later q
    unfold Keeps at rest
    dsimp only
    cases eq' : next a m₁ with
    | ok b m₂ =>
      rw [eq'] at rest
      exact ⟨rest.1, later.trans rest.2.1, rest.2.2⟩
    | fail f m₂ =>
      rw [eq'] at rest
      exact ⟨rest.1, later.trans rest.2⟩
    | starved => trivial
  | fail f m₁ =>
    rw [eq] at h
    exact h
  | starved => trivial

theorem within {environment : Nat} (h : m.Faithful)
    (inside : Keeps { m with current := environment } r Q)
    (still : ∀ a m', Q a m' → Q a { m' with current := m.current }) :
    Keeps m (within environment r) Q := by
  have back {m₁ : Machine} (faithful : m₁.Faithful)
      (later : ({ m with current := environment } : Machine).Before m₁) :
      ({ m₁ with current := m.current } : Machine).Faithful ∧
        m.Before { m₁ with current := m.current } := by
    have later : m.Before m₁ := later.congr rfl rfl rfl rfl
    refine ⟨faithful.move (Nat.lt_of_lt_of_le h.exists_current later.environments)
      (faithful.unbound_later later h.exists_current h.current), later.congr rfl rfl rfl rfl⟩
  unfold Keeps Run.within at *
  dsimp only
  cases eq : r { m with current := environment } with
  | ok a m₁ =>
    rw [eq] at inside
    obtain ⟨faithful, later⟩ := back inside.1 inside.2.1
    exact ⟨faithful, later, still a m₁ inside.2.2⟩
  | fail f m₁ =>
    rw [eq] at inside
    exact back inside.1 inside.2
  | starved => trivial

theorem asCall {limit : Option Nat} {paren : Token} (h : m.Faithful)
    (inside : Keeps { m with callDepth := m.callDepth + 1 } r Q)
    (still : ∀ a m' d, Q a m' → Q a { m' with callDepth := d }) :
    Keeps m (asCall limit paren r) Q := by
  by_cases full : limit.any (· ≤ m.callDepth) = true
  · exact stop (if_pos full) h (.refl m)
  · unfold Keeps Run.asCall at *
    rw [if_neg full]
    cases eq : r { m with callDepth := m.callDepth + 1 } with
    | ok a m₁ =>
      rw [eq] at inside
      obtain ⟨faithful, later, q⟩ := inside
      exact ⟨faithful.congr rfl rfl rfl, later.congr rfl rfl rfl rfl, still a m₁ _ q⟩
    | fail f m₁ =>
      rw [eq] at inside
      exact ⟨inside.1.congr rfl rfl rfl, inside.2.congr rfl rfl rfl rfl⟩
    | starved => trivial

end Keeps

end Run

end LoxLang
