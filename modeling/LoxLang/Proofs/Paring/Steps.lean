import LoxLang.Proofs.Paring.Machines
/-!
What machines do on their own, with the variable and without it. Numbers for functions, classes and
instances are given out alike, fields are read and written under the same names, and what is printed is
the same text.

What is proved: functions and classes are made alike (`Accord.newClosure`, `Accord.newClass`), and so are
the properties of values (`Accord.member`).
-/
namespace LoxLang

variable {x : String} {t : Pace} {p p' : Pair} {marks : List Bool}

/-! Functions look the same -/

theorem Function.Pared.name {f f' : Function} (h : Function.Pared x marks f f') :
    f'.name = f.name := by
  cases h
  rfl

theorem Function.Pared.params {f f' : Function} (h : Function.Pared x marks f f') :
    f'.params = f.params := by
  cases h
  rfl

theorem Function.Pared.body {f f' : Function} (h : Function.Pared x marks f f') :
    ∃ mark, Stmt.AllPared x (mark :: marks) true f.body f'.body := by
  cases h with
  | code name params mark body => exact ⟨mark, body⟩

theorem Closure.Pared.kin (inner : List Bool) (f f' : Closure) (h : Closure.Pared x p inner f f') :
    Closure.Kin f f' := by
  obtain ⟨marks, _, code⟩ := h.code
  refine ⟨h.id, ?_, ?_⟩
  · rw [Closure.name, Closure.name, code.name]
  · rw [Closure.arity, Closure.arity, code.params]

/-! What two machines do alike -/

namespace Accord

theorem newId (like : p.Lacks x) :
    Accord x t p Run.newId Run.newId fun id id' _ => id' = id := by
  obtain ⟨nextId, callDepth, out, clock, readings⟩ := like.even
  obtain ⟨ended, grows⟩ := like.congr { p.left with nextId := p.left.nextId + 1 }
    { p.right with nextId := p.right.nextId + 1 } rfl rfl rfl rfl like.current
    ⟨congrArg (· + 1) nextId, callDepth, out, clock, readings⟩
  exact .step _ rfl rfl ended ⟨grows, rfl⟩ nextId

theorem newClosure {code code' : Function} (inner : List Bool) (initializer : Bool)
    (like : p.Lacks x) (sees : p.Sees p.left.current marks)
    (pared : Function.Pared x (inner ++ marks) code code') :
    Accord x t p (Run.newClosure code initializer) (Run.newClosure code' initializer)
      fun f f' p' => Closure.Pared x p' inner f f' := by
  refine (newId like).bind fun id id' p₁ like₁ follows₁ same => ?_
  exact .step p₁ rfl rfl like₁ (.refl p₁)
    ⟨same, like₁.current, rfl, marks, sees.follow follows₁, pared⟩

theorem bindThis {f f' : Closure} {v v' : Value} (like : p.Lacks x)
    (pared : Closure.Pared x p [false] f f') (value : Value.Pared x p v v') :
    Accord x t p (Run.bindThis f v) (Run.bindThis f' v')
      fun g g' p' => Closure.Pared x p' [] g g' := by
  obtain ⟨_, scope, initializer, marks, sees, code⟩ := pared
  unfold Run.bindThis
  rw [scope]
  refine newEnvironment false like sees (fun y => ?_) fun e p₁ like₁ follows₁ sees₁ => ?_
  · simp only [Bindings.find?]
    split
    · exact .some value
    · exact .none
  · refine (newId like₁).bind fun id id' p₂ like₂ follows₂ same => ?_
    exact .pure like₂ ⟨same, rfl, initializer, false :: marks, sees₁.mono follows₂.grows, code⟩

/-- Functions are made one after the other; `inner` are the scopes around the code of each. -/
theorem newClosures (inner : List Bool) (initializer : String → Bool) : ∀ {p : Pair}
    {codes codes' : List Function}, p.Lacks x → p.Sees p.left.current marks →
      Function.AllPared x (inner ++ marks) codes codes' →
        Accord x t p (Run.newClosures initializer codes) (Run.newClosures initializer codes')
          fun fs fs' p' => List.Forall₂ (Closure.Pared x p' inner) fs fs'
  | p, [], _, like, _, .nil => .pure like .nil
  | p, code :: rest, _ :: _, like, sees, .cons first others => by
    unfold Run.newClosures
    rw [first.name]
    refine (newClosure inner _ like sees first).bind fun f f' p₁ like₁ follows₁ made => ?_
    refine (newClosures inner initializer like₁ (sees.follow follows₁) others).bind
      fun fs fs' p₂ like₂ follows₂ rest => ?_
    exact .pure like₂ (.cons (made.grow follows₂.grows) rest)

theorem newScope {β β' : Type} {next : Nat → Run β} {next' : Nat → Run β'}
    {Q : β → β' → Pair → Prop} (mark : Bool) (like : p.Lacks x)
    (sees : p.Sees p.left.current marks)
    (h : ∀ e p', p'.Lacks x → p.Follows p' → p'.Sees e (mark :: marks) →
      Accord x t p' (next e) (next' e) Q) :
    Accord x t p (Run.current >>= fun outer => Run.newEnvironment outer [] >>= next)
      (Run.current >>= fun outer => Run.newEnvironment outer [] >>= next') Q := by
  have entered : Accord x t p (Run.newEnvironment p.left.current [] >>= next)
      (Run.newEnvironment p.left.current [] >>= next') Q :=
    newEnvironment mark like sees (fun _ => .none) h
  unfold Accord Bond.Abreast at entered ⊢
  have same : (Run.current >>= fun outer => Run.newEnvironment outer [] >>= next') p.right =
      (Run.newEnvironment p.left.current [] >>= next') p.right :=
    congrArg (fun outer => (Run.newEnvironment outer [] >>= next') p.right) like.current
  rw [same]
  exact entered

/-- A class is made, with one more environment around its own methods. -/
theorem newClass {methods methods' statics statics' : List Function} (name : String)
    (like : p.Lacks x) (sees : p.Sees p.left.current marks)
    (pared : Function.AllPared x (false :: marks) methods methods')
    (pared' : Function.AllPared x (false :: marks) statics statics') :
    Accord x t p (Run.newClass name methods statics) (Run.newClass name methods' statics')
      fun c c' p' => Class.Pared x p' c c' := by
  refine (newClosures [false] _ like sees pared).bind fun ms ms' p₁ like₁ follows₁ made => ?_
  refine newScope false like₁ (sees.follow follows₁) fun e p₂ like₂ follows₂ sees₂ => ?_
  have others : Accord x t p₂ (Run.within e (Run.newClosures (fun _ => false) statics))
      (Run.within e (Run.newClosures (fun _ => false) statics'))
      fun fs fs' p' => List.Forall₂ (Closure.Pared x p' []) fs fs' :=
    .within like₂ sees₂ (fun p₃ like₃ sees₃ => newClosures [] _ like₃ sees₃ pared')
      fun _ _ _ _ grows made => made.imp fun _ _ related => related.grow grows
  refine others.bind fun ss ss' p₃ like₃ follows₃ others => ?_
  refine (newId like₃).bind fun id id' p₄ like₄ follows₄ same => ?_
  have grows := (follows₂.trans (follows₃.trans follows₄)).grows
  exact .pure like₄ ⟨same, rfl, made.imp fun _ _ related => related.grow grows,
    others.imp fun _ _ related => related.grow follows₄.grows⟩

theorem newInstance (like : p.Lacks x) :
    Accord x t p Run.newInstance Run.newInstance fun id id' _ => id' = id := by
  obtain ⟨ended, follows⟩ := like.withInstances (p.left.instances.push []) (p.right.instances.push [])
    (by rw [Array.size_push, Array.size_push, like.instances]) fun i y => by
      rw [fields_push, fields_push]
      exact like.fields i y
  exact .step _ rfl rfl ended follows like.instances

theorem field? (id : Nat) (y : String) (like : p.Lacks x) :
    Accord x t p (Run.field? id y) (Run.field? id y) fun o o' p' =>
      Option.Rel (Value.Pared x p') o o' :=
  .step p rfl rfl like (.refl p) (like.fields id y)

theorem setField {id : Nat} {y : String} {v v' : Value} (like : p.Lacks x)
    (value : Value.Pared x p v v') :
    Accord x t p (Run.setField id y v) (Run.setField id y v') fun _ _ _ => True := by
  obtain ⟨ended, follows⟩ := like.withInstances (p.left.instances.modify id (·.put y v))
    (p.right.instances.modify id (·.put y v'))
    (by rw [Array.size_modify, Array.size_modify, like.instances]) fun i z => by
      rw [find?_fields_modify, find?_fields_modify, like.instances]
      split
      · exact .some value
      · exact like.fields i z
  exact .step _ rfl rfl ended follows trivial

/-- What `this` is bound to where an initializer was made: the variable has another name. -/
theorem receiver (ne_this : x ≠ Keyword.this.word) (e : Nat) (like : p.Lacks x) :
    Accord x t p (Run.receiver e) (Run.receiver e) fun v v' p' => Value.Pared x p' v v' := by
  refine .step p rfl rfl like (.refl p) ?_
  have bound := like.bound e "this" fun _ same => ne_this same.symm
  generalize p.left.environments.findHere? e "this" = o at bound ⊢
  generalize p.right.environments.findHere? e "this" = o' at bound ⊢
  cases bound with
  | some pared => exact pared
  | none => exact .nil

theorem writeLine (text : String) (like : p.Lacks x) :
    Accord x t p (Run.writeLine text) (Run.writeLine text) fun _ _ _ => True := by
  obtain ⟨nextId, callDepth, sameOut, clock, readings⟩ := like.even
  have ended (out : Sink) := like.congr { p.left with out } { p.right with out } rfl rfl rfl rfl
    like.current ⟨nextId, callDepth, rfl, clock, readings⟩
  unfold Accord Bond.Abreast Run.writeLine
  dsimp only
  rw [sameOut]
  cases p.left.out.writeLine text with
  | mk result out =>
    obtain ⟨like', grows⟩ := ended out
    let written : Pair := ⟨{ p.left with out }, { p.right with out }, p.marked⟩
    cases result with
    | ok _ => exact .ok written like' ⟨grows, rfl⟩ trivial
    | error f => exact .fail _ written like' ⟨grows, rfl⟩

theorem flush (like : p.Lacks x) : Accord x t p Run.flush Run.flush fun _ _ _ => True := by
  unfold Accord Bond.Abreast Run.flush
  dsimp only
  rw [like.even.out]
  cases p.left.out.flush with
  | ok _ => exact .ok p like (.refl p) trivial
  | error f => exact .fail _ p like (.refl p)

theorem readClock (like : p.Lacks x) :
    Accord x t p Run.readClock Run.readClock fun x x' _ => x' = x := by
  obtain ⟨nextId, callDepth, out, clock, readings⟩ := like.even
  obtain ⟨ended, grows⟩ := like.congr { p.left with readings := p.left.readings + 1 }
    { p.right with readings := p.right.readings + 1 } rfl rfl rfl rfl like.current
    ⟨nextId, callDepth, out, clock, congrArg (· + 1) readings⟩
  refine .step _ rfl rfl ended ⟨grows, rfl⟩ ?_
  dsimp only
  rw [clock, readings]

theorem printAll : ∀ {p : Pair} {vs vs' : List Value}, p.Lacks x →
    List.Forall₂ (Value.Pared x p) vs vs' →
      Accord x t p (Run.printAll vs) (Run.printAll vs') fun _ _ _ => True
  | _, [], _, like, .nil => .pure like trivial
  | p, v :: vs, v' :: vs', like, .cons value values => by
    unfold Run.printAll
    rw [value.text Closure.Pared.kin]
    refine (writeLine v.text like).bind fun _ _ p₁ like₁ follows₁ _ => ?_
    exact printAll like₁ (values_grow values follows₁.grows)

theorem callNative (n : Native) {vs vs' : List Value} (like : p.Lacks x)
    (values : List.Forall₂ (Value.Pared x p) vs vs') :
    Accord x t p (Run.callNative n vs) (Run.callNative n vs')
      fun v v' p' => Value.Pared x p' v v' := by
  cases n with
  | clock =>
    refine (readClock like).bind fun x x' p₁ like₁ _ same => ?_
    subst same
    exact .pure like₁ (.number x')
  | print => exact (printAll like values).bind fun _ _ p₁ like₁ _ _ => .pure like₁ .nil

theorem property {c c' : Class} (id : Nat) (name : Token) (like : p.Lacks x)
    (pared : Class.Pared x p c c') :
    Accord x t p (Run.property id c name) (Run.property id c' name)
      fun v v' p' => Value.Pared x p' v v' := by
  refine (field? id name.lexeme like).bind fun o o' p₁ like₁ follows₁ fields => ?_
  have pared₁ := pared.grow follows₁.grows
  cases fields with
  | some value => exact .pure like₁ value
  | none =>
    have methods := pared₁.method Closure.Pared.kin name.lexeme
    have statics := pared₁.static Closure.Pared.kin name.lexeme
    dsimp only
    generalize c.method? name.lexeme = m, c'.method? name.lexeme = m' at methods
    generalize c.static? name.lexeme = s, c'.static? name.lexeme = s' at statics
    cases methods with
    | some method =>
      refine (bindThis like₁ method (.object id pared₁)).bind fun f f' p₂ like₂ _ made => ?_
      exact .pure like₂ (.function made)
    | none =>
      cases statics with
      | some static => exact .pure like₁ (.function static)
      | none => exact .fail like₁ rfl rfl

theorem member {v v' : Value} (name : Token) (like : p.Lacks x) (value : Value.Pared x p v v') :
    Accord x t p (Run.member v name) (Run.member v' name)
      fun v v' p' => Value.Pared x p' v v' := by
  cases value with
  | object id pared => exact property id name like pared
  | @ofClass c c' pared =>
    have statics := pared.static Closure.Pared.kin name.lexeme
    unfold Run.member
    dsimp only
    generalize c.static? name.lexeme = s, c'.static? name.lexeme = s' at statics
    cases statics with
    | some static => exact .pure like (.function static)
    | none => exact .fail like rfl rfl
  | _ => exact .fail like rfl rfl

theorem lift {token : Token} {r : Except RuntimeFault Value} (like : p.Lacks x)
    (plain : ∀ v, r = .ok v → v.Plain) :
    Accord x t p (Run.lift token r) (Run.lift token r) fun v v' p' => Value.Pared x p' v v' := by
  cases r with
  | ok v => exact .step p rfl rfl like (.refl p) (plain v rfl).alike
  | error f => exact .fail like rfl rfl

end Accord

end LoxLang
