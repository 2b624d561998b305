import LoxLang.Proofs.Running.Plain
import LoxLang.Proofs.Running.World
/-!
Machines that know no loops. A program is loop-free if `while` stands nowhere in it. A territory is a part
of the environments and instances, with all that are still to be made; a machine is tame in it if from its
current environment, and from whatever the territory holds, nothing leads out of it and no function is
met whose code has a loop.

What is proved: what can be reached from a machine is a territory in which the machine is tame, if the
functions that can be reached are loop-free (`Machine.tame_reachable`); and each step of a run leaves a
tame machine tame, and what it finds or makes is tame too.
-/
namespace LoxLang

mutual

def Expr.LoopFree : Expr → Prop
  | .literal _ | .variable .. | .this .. => True
  | .group inner => inner.LoopFree
  | .unary _ right => right.LoopFree
  | .binary left _ right | .logical left _ right => left.LoopFree ∧ right.LoopFree
  | .ternary condition whenTrue whenFalse =>
    condition.LoopFree ∧ whenTrue.LoopFree ∧ whenFalse.LoopFree
  | .assign _ value _ => value.LoopFree
  | .call callee _ arguments => callee.LoopFree ∧ Expr.AllLoopFree arguments
  | .property object _ => object.LoopFree
  | .setProperty object _ value => object.LoopFree ∧ value.LoopFree
  | .lambda code => code.LoopFree

def Expr.AllLoopFree : List Expr → Prop
  | [] => True
  | e :: es => e.LoopFree ∧ Expr.AllLoopFree es

/-- The statement is no loop, and no loop is part of it. -/
def Stmt.LoopFree : Stmt → Prop
  | .expression value => value.LoopFree
  | .print value => value.LoopFree
  | .declare d => d.LoopFree
  | .declareAll ds => Declarator.AllLoopFree ds
  | .block body => Stmt.AllLoopFree body
  | .conditional condition whenTrue none => condition.LoopFree ∧ whenTrue.LoopFree
  | .conditional condition whenTrue (some whenFalse) =>
    condition.LoopFree ∧ whenTrue.LoopFree ∧ whenFalse.LoopFree
  | .loop .. => False
  | .declareFunction code => code.LoopFree
  | .returns _ none => True
  | .returns _ (some value) => value.LoopFree
  | .declareClass _ methods statics => Function.AllLoopFree methods ∧ Function.AllLoopFree statics

/-- None of the statements is or has a loop. -/
def Stmt.AllLoopFree : List Stmt → Prop
  | [] => True
  | s :: ss => s.LoopFree ∧ Stmt.AllLoopFree ss

def Declarator.LoopFree : Declarator → Prop
  | ⟨_, none⟩ => True
  | ⟨_, some initial⟩ => initial.LoopFree

def Declarator.AllLoopFree : List Declarator → Prop
  | [] => True
  | d :: ds => d.LoopFree ∧ Declarator.AllLoopFree ds

def Function.LoopFree : Function → Prop
  | ⟨_, _, body⟩ => Stmt.AllLoopFree body

def Function.AllLoopFree : List Function → Prop
  | [] => True
  | f :: fs => f.LoopFree ∧ Function.AllLoopFree fs

end

theorem Function.LoopFree.body : ∀ {code : Function}, code.LoopFree → Stmt.AllLoopFree code.body
  | ⟨_, _, _⟩, free => free

/-- A part of the environments and of the instances. -/
structure Territory where
  environments : Nat → Prop
  instances : Nat → Prop

section

variable (t : Territory)

/-- The function is loop-free and was made in the territory. -/
def Closure.Tame (f : Closure) : Prop := f.code.LoopFree ∧ t.environments f.scope

def Class.Tame (c : Class) : Prop := (∀ f ∈ c.methods, f.Tame t) ∧ ∀ f ∈ c.statics, f.Tame t

/-- No loop is met in a call. -/
def Callable.Tame : Callable → Prop
  | .function f => f.Tame t
  | .native _ => True
  | .ofClass c => c.Tame t

/-- No loop is met by way of the value. -/
def Value.Tame : Value → Prop
  | .callable c => c.Tame t
  | .object id c => t.instances id ∧ c.Tame t
  | _ => True

/-- Nothing leads out of the territory, and no loop is met in it. -/
structure Machine.Tame (m : Machine) : Prop where
  globals : t.environments Machine.globals
  current : t.environments m.current
  outer : ∀ e p, t.environments e → m.environments.outer? e = some p → t.environments p
  bound : ∀ e x v, t.environments e → m.environments.findHere? e x = some v → v.Tame t
  field : ∀ id x v, t.instances id → (m.fields id).find? x = some v → v.Tame t
  /-- What is still to be made belongs to the territory. -/
  fresh : ∀ e, m.environments.size ≤ e → t.environments e
  freshInstance : ∀ id, m.instances.size ≤ id → t.instances id

end

/-! What can be reached -/

inductive Held where
  | environment (e : Nat)
  | value (v : Value)
  | code (f : Closure)

/-- What can be reached from the globals and from where statements run: by way of environments, what
they bind, the methods of classes, fields of instances, and where functions were made. -/
inductive Machine.Reaches (m : Machine) : Held → Prop
  | globals : m.Reaches (.environment Machine.globals)
  | current : m.Reaches (.environment m.current)
  | outer {e p : Nat} : m.Reaches (.environment e) → m.environments.outer? e = some p →
    m.Reaches (.environment p)
  | bound {e : Nat} {x : String} {v : Value} : m.Reaches (.environment e) →
    m.environments.findHere? e x = some v → m.Reaches (.value v)
  | field {id : Nat} {c : Class} {x : String} {v : Value} : m.Reaches (.value (.object id c)) →
    (m.fields id).find? x = some v → m.Reaches (.value v)
  | ofObject {id : Nat} {c : Class} : m.Reaches (.value (.object id c)) →
    m.Reaches (.value (.callable (.ofClass c)))
  | method {c : Class} {f : Closure} : m.Reaches (.value (.callable (.ofClass c))) →
    f ∈ c.methods → m.Reaches (.code f)
  | static {c : Class} {f : Closure} : m.Reaches (.value (.callable (.ofClass c))) →
    f ∈ c.statics → m.Reaches (.code f)
  | function {f : Closure} : m.Reaches (.value (.callable (.function f))) → m.Reaches (.code f)
  | scope {f : Closure} : m.Reaches (.code f) → m.Reaches (.environment f.scope)

/-- What can be reached, and what is still to be made. -/
def Machine.reachable (m : Machine) : Territory where
  environments e := m.Reaches (.environment e) ∨ m.environments.size ≤ e
  instances id := (∃ c, m.Reaches (.value (.object id c))) ∨ m.instances.size ≤ id

theorem fields_of_size_le {m : Machine} {id : Nat} (h : m.instances.size ≤ id) :
    m.fields id = [] := by
  rw [Machine.fields, Array.getD_eq_getD_getElem?, Array.getElem?_eq_none h]
  rfl

/-- A machine is tame in what can be reached from it, if the functions in it are loop-free. -/
theorem Machine.tame_reachable {m : Machine}
    (free : ∀ f, m.Reaches (.code f) → f.code.LoopFree) : m.Tame m.reachable := by
  have code : ∀ f, m.Reaches (.code f) → f.Tame m.reachable :=
    fun f reached => ⟨free f reached, .inl (.scope reached)⟩
  have ofClass : ∀ c, m.Reaches (.value (.callable (.ofClass c))) → c.Tame m.reachable :=
    fun c reached =>
      ⟨fun f mem => code f (.method reached mem), fun f mem => code f (.static reached mem)⟩
  have value : ∀ v, m.Reaches (.value v) → v.Tame m.reachable := by
    intro v reached
    cases v with
    | callable c =>
      cases c with
      | function f => exact code f (.function reached)
      | native n => trivial
      | ofClass c => exact ofClass c reached
    | object id c => exact ⟨.inl ⟨c, reached⟩, ofClass c (.ofObject reached)⟩
    | _ => trivial
  -- What could lead out are links, names and fields; nothing leads out of what is still to be made.
  refine ⟨.inl .globals, .inl .current, ?_, ?_, ?_, fun e le => .inr le, fun id le => .inr le⟩
  · rintro e p (reached | beyond) link
    · exact .inl (.outer reached link)
    · exact absurd (Forest.lt_size_of_outer? link) (Nat.not_lt.mpr beyond)
  · rintro e x v (reached | beyond) found
    · exact value v (.bound reached found)
    · rw [Forest.findHere?_of_size_le beyond] at found
      cases found
  · rintro id x v (⟨c, reached⟩ | beyond) found
    · exact value v (.field reached found)
    · rw [fields_of_size_le beyond] at found
      cases found

/-! Steps -/

section

variable {t : Territory} {m : Machine} {v : Value}

theorem Value.Plain.tame (h : v.Plain) : v.Tame t := by
  cases h <;> trivial

theorem Machine.Tame.congr {m' : Machine} (h : m.Tame t)
    (environments : m'.environments = m.environments) (instances : m'.instances = m.instances)
    (current : m'.current = m.current) : m'.Tame t := by
  obtain ⟨globals, here, outer, bound, field, fresh, freshInstance⟩ := h
  unfold Machine.fields at field
  refine ⟨globals, ?_, ?_, ?_, ?_, ?_, ?_⟩
  · rwa [current]
  · rwa [environments]
  · rwa [environments]
  · unfold Machine.fields
    rwa [instances]
  · rwa [environments]
  · rwa [instances]

theorem Machine.Tame.move (h : m.Tame t) {e : Nat} (inside : t.environments e) :
    ({ m with current := e } : Machine).Tame t :=
  ⟨h.globals, inside, h.outer, h.bound, h.field, h.fresh, h.freshInstance⟩

theorem Forest.outer?_of_push {f : Forest Value} {outer : Option Nat} {bindings : Bindings Value} {e p : Nat}
    (h : (f.push outer bindings).outer? e = some p) : f.outer? e = some p ∨ outer = some p := by
  rcases Nat.lt_trichotomy e f.size with lt | rfl | gt
  · rw [Forest.outer?_push_of_lt lt] at h
    exact .inl h
  · right
    have link : (outer.filter fun p => decide (p < f.environments.size)) = some p := by
      simpa [Forest.outer?, Forest.push, Forest.size] using h
    exact (Option.filter_eq_some_iff.mp link).1
  · have small := Forest.lt_size_of_outer? h
    rw [Forest.size_push] at small
    omega

theorem Machine.Tame.push (h : m.Tame t) {outer : Nat} {bindings : Bindings Value}
    (inside : t.environments outer) (tame : ∀ x v, bindings.find? x = some v → v.Tame t) :
    ({ m with environments := m.environments.push (some outer) bindings } : Machine).Tame t := by
  refine ⟨h.globals, h.current, ?_, ?_, h.field, ?_, h.freshInstance⟩
  · intro e p mem link
    rcases Forest.outer?_of_push link with old | new
    · exact h.outer e p mem old
    · cases new
      exact inside
  · intro e x v mem found
    rcases Forest.findHere?_push found with old | ⟨_, new⟩
    · exact h.bound e x v mem old
    · exact tame x v new
  -- What is still to be made is less by the environment that is made now.
  · intro e le
    rw [Forest.size_push] at le
    exact h.fresh e (by omega)

theorem Machine.Tame.define (h : m.Tame t) {e : Nat} {x : String} (tame : v.Tame t) :
    ({ m with environments := m.environments.define e x v } : Machine).Tame t := by
  refine ⟨h.globals, h.current, ?_, ?_, h.field, ?_, h.freshInstance⟩
  · intro i p mem link
    rw [Forest.outer?_define] at link
    exact h.outer i p mem link
  · intro i z w mem found
    rw [Forest.findHere?_define] at found
    split at found
    · cases found
      exact tame
    · exact h.bound i z w mem found
  · intro i le
    rw [Forest.size_define] at le
    exact h.fresh i le

theorem Machine.Tame.newInstance (h : m.Tame t) :
    ({ m with instances := m.instances.push [] } : Machine).Tame t := by
  refine ⟨h.globals, h.current, h.outer, h.bound, ?_, h.fresh, ?_⟩
  · intro id x v mem found
    rw [Machine.fields, fields_push] at found
    exact h.field id x v mem found
  · intro id le
    rw [Array.size_push] at le
    exact h.freshInstance id (by omega)

theorem Machine.Tame.setField (h : m.Tame t) {id : Nat} {x : String} (tame : v.Tame t) :
    ({ m with instances := m.instances.modify id (·.put x v) } : Machine).Tame t := by
  refine ⟨h.globals, h.current, h.outer, h.bound, ?_, h.fresh, ?_⟩
  · intro i z w mem found
    rw [Machine.fields, find?_fields_modify] at found
    split at found
    · cases found
      exact tame
    · exact h.field i z w mem found
  · intro i le
    rw [Array.size_modify] at le
    exact h.freshInstance i le

theorem Machine.Tame.ancestor (h : m.Tame t) : ∀ {e d a : Nat}, t.environments e →
    m.environments.ancestor? e d = some a → t.environments a
  | e, 0, a, inside, found => by
    cases found
    exact inside
  | e, d + 1, a, inside, found => by
    unfold Forest.ancestor? at found
    split at found
    · rename_i p link
      exact h.ancestor (h.outer e p inside link) found
    · cases found

theorem Machine.Tame.lookUp (h : m.Tame t) {name : Token} {depth : Option Nat}
    (found : (match depth with
      | some d => m.environments.findAt? m.current d name.lexeme
      | none => m.environments.find? Machine.globals name.lexeme) = some v) : v.Tame t := by
  cases depth with
  | some d =>
    obtain ⟨a, walked, here⟩ := Option.bind_eq_some_iff.mp found
    exact h.bound a _ v (h.ancestor h.current walked) here
  | none =>
    have here := (Forest.find?_zero m.environments name.lexeme).symm.trans found
    exact h.bound Machine.globals _ v h.globals here

end

end LoxLang
