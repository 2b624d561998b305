import LoxLang.Proofs.Running.Closures
/-!
Machines without loose ends. A machine is sound if the environments that its functions see are there, and so is
the one that statements run in. Nothing else is asked of it: what functions do and which names they find does
not matter.

What is proved: the machines of a session are sound, since functions stand where they were made
(`InOrder.sound`).
-/
namespace LoxLang

section

variable (m : Machine)

/-- The environment that the function sees is there. -/
def Closure.Sound (f : Closure) : Prop := f.scope < m.environments.size

/-- The methods of the class see environments that are there. -/
structure Class.Sound (c : Class) : Prop where
  methods : ∀ f ∈ c.methods, f.Sound m
  statics : ∀ f ∈ c.statics, f.Sound m

/-- The functions in a value see environments that are there. -/
def Value.Sound : Value → Prop
  | .callable (.function f) => f.Sound m
  | .callable (.ofClass c) => c.Sound m
  | .object _ c => c.Sound m
  | _ => True

/-- All environments that something in the machine refers to are there. -/
structure Machine.Sound : Prop where
  nonempty : 0 < m.environments.size
  current : m.current < m.environments.size
  bound : ∀ e x v, m.environments.findHere? e x = some v → v.Sound m
  fields : ∀ i x v, (m.fields i).find? x = some v → v.Sound m

end

variable {ran : List (List Stmt)} {w : World}

theorem FunctionFits.sound {f : Closure} (h : FunctionFits ran w f) (order : InOrder ran w) :
    f.Sound w.machine := by
  obtain ⟨_, _, stands⟩ := h
  exact stands.chain.lt_size order

theorem MethodFits.sound {f : Closure} (h : MethodFits ran w f) (order : InOrder ran w) :
    f.Sound w.machine := by
  obtain ⟨_, _, _, _, _, _, _, chain⟩ := h
  exact chain.lt_size order

theorem ClassFits.sound {c : Class} (h : ClassFits ran w c) (order : InOrder ran w) : c.Sound w.machine :=
  ⟨fun f mem => (h.1 f mem).sound order, fun f mem => (h.2 f mem).sound order⟩

theorem ValueFits.sound {v : Value} (h : ValueFits ran w v) (order : InOrder ran w) :
    v.Sound w.machine := by
  cases v with
  | callable c =>
    cases c with
    | function f => exact FunctionFits.sound h order
    | native n => trivial
    | ofClass c => exact ClassFits.sound h order
  | object id c => exact ClassFits.sound h order
  | _ => trivial

theorem InOrder.sound (order : InOrder ran w) (current : w.machine.current < w.machine.environments.size) :
    w.machine.Sound where
  nonempty := order.nonempty
  current := current
  bound e x v found := (order.bound e x v found).sound order
  fields i x v found := (order.fields i x v found).sound order

end LoxLang
