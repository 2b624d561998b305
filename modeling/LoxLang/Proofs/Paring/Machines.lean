import LoxLang.Proofs.Paring.Trees
import LoxLang.Proofs.Renaming.Pairs
import LoxLang.Proofs.Running.Abreast
import LoxLang.Proofs.Running.Alike
/-!
A run of a program and one of the program without a local variable. The machines have the same
environments, but in those that are marked the right one need not bind the variable. Functions are made
of code that may lack it, where the marks of its scopes are those of the environments the function sees.

What is proved: the machines stay alike when an environment is added to both (`Pair.Lacks.push`), when a
name is bound in both (`Pair.Lacks.define`), and when the variable is bound in a marked environment of
the left one (`Pair.Lacks.defineLeft`); names that are not those of the variable are found, bound and
given other values alike (`Accord.lookUp`, `Accord.define`, `Accord.assign`).
-/
namespace LoxLang

/-- Machines that are at one but for their environments, the fields of instances and where they run. -/
structure Machine.Even (m m' : Machine) : Prop where
  nextId : m'.nextId = m.nextId
  callDepth : m'.callDepth = m.callDepth
  out : m'.out = m.out
  clock : m'.clock = m.clock
  readings : m'.readings = m.readings

section

variable (x : String) (p : Pair)

/-- Functions whose code stands in the same scopes: `inner` are the marks of the scopes that are still to
be entered before the code is. -/
structure Closure.Pared (inner : List Bool) (f f' : Closure) : Prop where
  id : f'.id = f.id
  scope : f'.scope = f.scope
  initializer : f'.initializer = f.initializer
  code : ∃ marks, p.Sees f.scope marks ∧ Function.Pared x (inner ++ marks) f.code f'.code

abbrev Class.Pared : Class → Class → Prop := Class.Alike (Closure.Pared x p)

abbrev Value.Pared : Value → Value → Prop := Value.Alike (Closure.Pared x p)

/-- The two machines hold the same, but for the variable in marked environments. -/
structure Pair.Lacks : Prop where
  nonempty : 0 < p.left.environments.size
  globals : p.marked Machine.globals = false
  size : p.right.environments.size = p.left.environments.size
  outer : ∀ e, p.right.environments.outer? e = p.left.environments.outer? e
  bound : ∀ e y, (p.marked e = true → y ≠ x) → Option.Rel (Value.Pared x p)
    (p.left.environments.findHere? e y) (p.right.environments.findHere? e y)
  instances : p.right.instances.size = p.left.instances.size
  fields : ∀ i y, Option.Rel (Value.Pared x p) ((p.left.fields i).find? y)
    ((p.right.fields i).find? y)
  current : p.right.current = p.left.current
  even : p.left.Even p.right

end

/-- The bond of two machines of which the right one lacks the variable. -/
abbrev paring (x : String) : Bond Pair where
  left := Pair.left
  right := Pair.right
  Like p := p.Lacks x
  Follows p p' := p.Follows p'
  refl := .refl
  trans := .trans

/-- Two runs that come to the same end, the second one without the variable. -/
abbrev Accord {α α' : Type} (x : String) (t : Pace) (p : Pair) (r : Run α) (r' : Run α')
    (Q : α → α' → Pair → Prop) : Prop := (paring x).Abreast t p r r' Q

variable {x : String} {t : Pace} {p p' : Pair}

/-! What stays -/

theorem Closure.Pared.grow {inner : List Bool} {f f' : Closure} (h : Closure.Pared x p inner f f')
    (grows : p.Grows p') : Closure.Pared x p' inner f f' := by
  obtain ⟨id, scope, initializer, marks, sees, code⟩ := h
  exact ⟨id, scope, initializer, marks, sees.mono grows, code⟩

theorem Class.Alike.grow {c c' : Class} (h : Class.Pared x p c c') (grows : p.Grows p') :
    Class.Pared x p' c c' := h.imp fun _ _ _ related => related.grow grows

theorem Value.Alike.grow {v v' : Value} (h : Value.Pared x p v v') (grows : p.Grows p') :
    Value.Pared x p' v v' := h.imp fun _ _ _ related => related.grow grows

theorem values_grow {vs vs' : List Value} (h : List.Forall₂ (Value.Pared x p) vs vs')
    (grows : p.Grows p') : List.Forall₂ (Value.Pared x p') vs vs' :=
  h.imp fun _ _ pared => pared.grow grows

theorem option_grow {o o' : Option Value} (h : Option.Rel (Value.Pared x p) o o')
    (grows : p.Grows p') : Option.Rel (Value.Pared x p') o o' :=
  relOption_imp (fun _ _ pared => pared.grow grows) h

namespace Pair.Lacks

theorem congr (like : p.Lacks x) (m m' : Machine)
    (environments : m.environments = p.left.environments)
    (environments' : m'.environments = p.right.environments)
    (instances : m.instances = p.left.instances) (instances' : m'.instances = p.right.instances)
    (current : m'.current = m.current) (even : m.Even m') :
    Pair.Lacks x ⟨m, m', p.marked⟩ ∧ p.Grows ⟨m, m', p.marked⟩ := by
  have grows : p.Grows ⟨m, m', p.marked⟩ :=
    ⟨Nat.le_of_eq (by rw [environments]), fun e _ => by rw [environments], fun _ _ => rfl⟩
  refine ⟨⟨?_, like.globals, ?_, ?_, fun e y spare => ?_, ?_, fun i y => ?_, current, even⟩, grows⟩
  · rw [environments]
    exact like.nonempty
  · rw [environments, environments', like.size]
  · rw [environments, environments']
    exact like.outer
  · have bound := option_grow (like.bound e y spare) grows
    rwa [← environments, ← environments'] at bound
  · rw [instances, instances', like.instances]
  · have fields := option_grow (like.fields i y) grows
    rw [Machine.fields, Machine.fields, ← instances, ← instances'] at fields
    exact fields

theorem withInstances (like : p.Lacks x) (instances instances' : Array (Bindings Value))
    (size : instances'.size = instances.size)
    (fields : ∀ i y, Option.Rel (Value.Pared x p) ((instances.getD i []).find? y)
      ((instances'.getD i []).find? y)) :
    Pair.Lacks x ⟨{ p.left with instances }, { p.right with instances := instances' }, p.marked⟩ ∧
      p.Follows ⟨{ p.left with instances }, { p.right with instances := instances' }, p.marked⟩ := by
  have grows : p.Grows ⟨{ p.left with instances }, { p.right with instances := instances' },
      p.marked⟩ := ⟨Nat.le_refl _, fun _ _ => rfl, fun _ _ => rfl⟩
  obtain ⟨nextId, callDepth, out, clock, readings⟩ := like.even
  exact ⟨⟨like.nonempty, like.globals, like.size, like.outer,
    fun e y spare => option_grow (like.bound e y spare) grows, size,
    fun i y => option_grow (fields i y) grows, like.current,
    ⟨nextId, callDepth, out, clock, readings⟩⟩, grows, rfl⟩

/-! Environments -/

theorem withEnvironments (like : p.Lacks x) (forest forest' : Forest Value) (marked : Nat → Bool)
    (grows : p.Grows ⟨{ p.left with environments := forest },
      { p.right with environments := forest' }, marked⟩)
    (size : forest'.size = forest.size) (outer : ∀ e, forest'.outer? e = forest.outer? e)
    (bound : ∀ e y, (marked e = true → y ≠ x) →
      Option.Rel (Value.Pared x p) (forest.findHere? e y) (forest'.findHere? e y)) :
    Pair.Lacks x ⟨{ p.left with environments := forest },
      { p.right with environments := forest' }, marked⟩ := by
  obtain ⟨nextId, callDepth, out, clock, readings⟩ := like.even
  exact ⟨Nat.lt_of_lt_of_le like.nonempty grows.size,
    (grows.marked _ like.nonempty).trans like.globals, size, outer,
    fun e y spare => option_grow (bound e y spare) grows, like.instances,
    fun i y => option_grow (like.fields i y) grows, like.current,
    ⟨nextId, callDepth, out, clock, readings⟩⟩

theorem push (like : p.Lacks x) {outer : Nat} {mark : Bool} {bindings bindings' : Bindings Value}
    (inside : outer < p.left.environments.size)
    (found : ∀ y, Option.Rel (Value.Pared x p) (bindings.find? y) (bindings'.find? y)) :
    (p.push outer mark bindings bindings').Lacks x := by
  refine like.withEnvironments _ _ _ grows_push ?_ (fun e => ?_) fun e y spare => ?_
  · simp [like.size]
  · rw [Forest.outer?_push_ite _ inside, Forest.outer?_push_ite _ (like.size ▸ inside), like.size,
      like.outer]
  · rw [Forest.findHere?_push_ite, Forest.findHere?_push_ite, like.size]
    split
    · exact found y
    · rename_i old
      exact like.bound e y fun mark => spare ((if_neg old).trans mark)

theorem define (like : p.Lacks x) (e : Nat) (y : String) {v v' : Value}
    (pared : Value.Pared x p v v') : (p.define e y y v v').Lacks x := by
  refine like.withEnvironments _ _ _ (p.grows_define e y y v v') ?_ (fun i => ?_) fun i z spare => ?_
  · simp [like.size]
  · rw [Forest.outer?_define, Forest.outer?_define, like.outer]
  · rw [Forest.findHere?_define, Forest.findHere?_define, like.size]
    split
    · exact .some pared
    · exact like.bound i z spare

end Pair.Lacks

def Pair.defineLeft (p : Pair) (e : Nat) (x : String) (v : Value) : Pair :=
  { p with left := { p.left with environments := p.left.environments.define e x v } }

theorem Pair.follows_defineLeft (p : Pair) (e : Nat) (x : String) (v : Value) :
    p.Follows (p.defineLeft e x v) :=
  ⟨⟨Nat.le_of_eq (Forest.size_define _ _ _ _).symm, fun _ _ => Forest.outer?_define _ _ _ _ _,
    fun _ _ => rfl⟩, rfl⟩

/-- The variable may be bound in a marked environment of the left machine only. -/
theorem Pair.Lacks.defineLeft (like : p.Lacks x) {e : Nat} (marked : p.marked e = true) (v : Value) :
    (p.defineLeft e x v).Lacks x := by
  refine like.withEnvironments _ _ _ (p.follows_defineLeft e x v).grows ?_ (fun i => ?_)
    fun i z spare => ?_
  · simp [like.size]
  · rw [Forest.outer?_define, like.outer]
  · have elsewhere : ¬(i < p.left.environments.size ∧ e = i ∧ x = z) := by
      rintro ⟨_, rfl, rfl⟩
      exact spare marked rfl
    rw [Forest.findHere?_define, if_neg elsewhere]
    exact like.bound i z spare

/-! Runs -/

namespace Accord

variable {α α' β β' : Type} {Q : α → α' → Pair → Prop} {marks : List Bool}

theorem within {e : Nat} {r : Run α} {r' : Run α'} (like : p.Lacks x) (sees : p.Sees e marks)
    (h : ∀ p', p'.Lacks x → p'.Sees p'.left.current marks → Accord x t p' r r' Q)
    (mono : ∀ a a' p p', p.Grows p' → Q a a' p → Q a a' p') :
    Accord x t p (Run.within e r) (Run.within e r') Q := by
  obtain ⟨nextId, callDepth, out, clock, readings⟩ := like.even
  obtain ⟨inside, grows⟩ := like.congr { p.left with current := e } { p.right with current := e }
    rfl rfl rfl rfl rfl ⟨nextId, callDepth, out, clock, readings⟩
  refine (h _ inside (sees.mono grows)).entered fun p₁ ended follows => ?_
  obtain ⟨nextId, callDepth, out, clock, readings⟩ := ended.even
  obtain ⟨outside, grows'⟩ := ended.congr { p₁.left with current := p.left.current }
    { p₁.right with current := p.right.current } rfl rfl rfl rfl like.current
    ⟨nextId, callDepth, out, clock, readings⟩
  exact ⟨_, rfl, rfl, outside, ⟨(grows.trans follows.grows).trans grows', rfl⟩,
    fun a a' => mono a a' _ _ grows'⟩

theorem asCall {limit : Option Nat} (paren : Token) {r : Run α} {r' : Run α'} (like : p.Lacks x)
    (h : ∀ p', p'.Lacks x → p.Grows p' → Accord x t p' r r' Q)
    (mono : ∀ a a' p p', p.Grows p' → Q a a' p → Q a a' p') :
    Accord x t p (Run.asCall limit paren r) (Run.asCall limit paren r') Q := by
  obtain ⟨nextId, callDepth, out, clock, readings⟩ := like.even
  obtain ⟨inside, grows⟩ := like.congr { p.left with callDepth := p.left.callDepth + 1 }
    { p.right with callDepth := p.right.callDepth + 1 } rfl rfl rfl rfl like.current
    ⟨nextId, congrArg (· + 1) callDepth, out, clock, readings⟩
  have same : limit.any (· ≤ p.right.callDepth) = limit.any (· ≤ p.left.callDepth) := by
    rw [callDepth]
  unfold Accord Bond.Abreast Run.asCall
  by_cases full : limit.any (· ≤ p.left.callDepth) = true
  · rw [if_pos full, if_pos (same.trans full)]
    exact .fail _ p like (.refl p)
  rw [if_neg full, if_neg (same ▸ full)]
  refine (h _ inside grows).entered fun p₁ ended follows => ?_
  obtain ⟨nextId, callDepth, out, clock, readings⟩ := ended.even
  obtain ⟨outside, grows'⟩ := ended.congr { p₁.left with callDepth := p₁.left.callDepth - 1 }
    { p₁.right with callDepth := p₁.right.callDepth - 1 } rfl rfl rfl rfl ended.current
    ⟨nextId, congrArg (· - 1) callDepth, out, clock, readings⟩
  exact ⟨_, rfl, rfl, outside, ⟨(grows.trans follows.grows).trans grows', follows.current⟩,
    fun a a' => mono a a' _ _ grows'⟩

theorem newEnvironment {outer : Nat} {bindings bindings' : Bindings Value} {next : Nat → Run β}
    {next' : Nat → Run β'} {Q : β → β' → Pair → Prop} (mark : Bool) (like : p.Lacks x)
    (sees : p.Sees outer marks)
    (found : ∀ y, Option.Rel (Value.Pared x p) (bindings.find? y) (bindings'.find? y))
    (h : ∀ e p', p'.Lacks x → p.Follows p' → p'.Sees e (mark :: marks) →
      Accord x t p' (next e) (next' e) Q) :
    Accord x t p (Run.newEnvironment outer bindings >>= next)
      (Run.newEnvironment outer bindings' >>= next') Q := by
  have follows : p.Follows (p.push outer mark bindings bindings') := ⟨Pair.grows_push, rfl⟩
  have made : Accord x t p (Run.newEnvironment outer bindings) (Run.newEnvironment outer bindings')
      fun e e' p' => e' = e ∧ p'.Sees e (mark :: marks) :=
    .step _ rfl rfl (like.push sees.1 found) follows ⟨like.size, Pair.sees_push sees⟩
  refine made.bind ?_
  rintro e _ p₁ like₁ follows₁ ⟨rfl, sees₁⟩
  exact h _ p₁ like₁ follows₁ sees₁

theorem define (y : String) {v v' : Value} (like : p.Lacks x) (pared : Value.Pared x p v v') :
    Accord x t p (Run.define y v) (Run.define y v') fun _ _ _ => True := by
  have same : Run.define y v' p.right = .ok () (p.define p.left.current y y v v').right :=
    congrArg (fun here => Outcome.ok ()
      { p.right with environments := p.right.environments.define here y v' }) like.current
  exact .step _ rfl same (like.define p.left.current y pared) ⟨p.grows_define _ _ _ _ _, rfl⟩ trivial

/-- The variable is bound in the left run only, where the innermost scope is marked. -/
theorem defineLeft {next : Unit → Run β} {r' : Run β'} {Q : β → β' → Pair → Prop} {y : String}
    (same : y = x) (v : Value) (like : p.Lacks x) (sees : p.Sees p.left.current marks)
    (marked : marks.headD false = true)
    (rest : ∀ p', p'.Lacks x → p.Follows p' → Accord x t p' (next ()) r' Q) :
    Accord x t p (Run.define y v >>= next) r' Q := by
  subst same
  have here : p.marked p.left.current = true := by
    rw [sees.2 0 _ rfl, ← marked]
    cases marks <;> rfl
  have follows := p.follows_defineLeft p.left.current y v
  exact .leads (p.defineLeft p.left.current y v) rfl rfl follows
    (rest _ (like.defineLeft here v) follows)

theorem lookUp (name : Token) {depth : Option Nat} (like : p.Lacks x)
    (sees : p.Sees p.left.current marks) (spare : name.Spares x (Exchange.mark marks depth)) :
    Accord x t p (Run.lookUp name depth) (Run.lookUp name depth)
      fun v v' p' => Value.Pared x p' v v' := by
  refine Bond.Abreast.lookUp like ?_
  cases depth with
  | some d =>
    show Option.Rel _ (p.left.environments.findAt? p.left.current d name.lexeme)
      (p.right.environments.findAt? p.right.current d name.lexeme)
    rw [Forest.findAt?, Forest.findAt?, Forest.ancestor?_eq like.outer, like.current]
    cases ancestor : p.left.environments.ancestor? p.left.current d with
    | none => exact .none
    | some a => exact like.bound a name.lexeme fun mark => spare ((sees.2 d a ancestor).symm.trans mark)
  | none =>
    show Option.Rel _ (p.left.environments.find? Machine.globals name.lexeme)
      (p.right.environments.find? Machine.globals name.lexeme)
    rw [Machine.globals, Forest.find?_zero, Forest.find?_zero]
    exact like.bound Machine.globals name.lexeme fun mark =>
      spare (like.globals.symm.trans mark)

theorem isSome_pared (like : p.Lacks x) {e : Nat} {y : String} (spare : p.marked e = true → y ≠ x) :
    (p.right.environments.findHere? e y).isSome = (p.left.environments.findHere? e y).isSome := by
  have bound := like.bound e y spare
  generalize p.left.environments.findHere? e y = o, p.right.environments.findHere? e y = o' at bound
  cases bound <;> rfl

theorem assign (name : Token) {depth : Option Nat} {v v' : Value} (like : p.Lacks x)
    (sees : p.Sees p.left.current marks) (spare : name.Spares x (Exchange.mark marks depth))
    (pared : Value.Pared x p v v') :
    Accord x t p (Run.assign name depth v) (Run.assign name depth v') fun _ _ _ => True := by
  have same : p.right.holding? name.lexeme depth = p.left.holding? name.lexeme depth := by
    cases depth with
    | some d =>
      show p.right.environments.holderAt? p.right.current d name.lexeme =
        p.left.environments.holderAt? p.left.current d name.lexeme
      rw [Forest.holderAt?, Forest.holderAt?, Forest.ancestor?_eq like.outer, like.current]
      cases ancestor : p.left.environments.ancestor? p.left.current d with
      | none => rfl
      | some a =>
        rw [Option.filter_some, Option.filter_some, isSome_pared like fun mark =>
          spare ((sees.2 d a ancestor).symm.trans mark)]
    | none =>
      have same := isSome_pared like fun mark => spare (like.globals.symm.trans mark)
      show p.right.environments.holder? Machine.globals name.lexeme =
        p.left.environments.holder? Machine.globals name.lexeme
      rw [Machine.globals, Forest.holder?_zero, Forest.holder?_zero]
      exact congrArg (fun found : Bool => if found then some 0 else none) same
  unfold Accord Bond.Abreast
  rw [Run.assign_apply, Run.assign_apply]
  show (paring x).Ends t p _ ((p.left.holding? name.lexeme depth).elim _ _)
    ((p.right.holding? name.lexeme depth).elim _ _)
  rw [same]
  cases p.left.holding? name.lexeme depth with
  | none => exact .fail _ p like (.refl p)
  | some e =>
    exact .ok (p.define e name.lexeme name.lexeme v v') (like.define e name.lexeme pared)
      ⟨p.grows_define _ _ _ _ _, rfl⟩ trivial

end Accord

end LoxLang
