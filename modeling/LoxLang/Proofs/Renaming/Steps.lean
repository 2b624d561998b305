import LoxLang.Proofs.Renaming.Pairs
import LoxLang.Proofs.Running.Alike
/-!
What two twin machines do alike. Numbers for functions, classes and instances are given out alike,
fields are read and written under the same names, and what is printed is the same text.

What is proved:
  1. values are twins just where they are alike but for their functions, which are twins
     (`Value.twin_iff`), so they have one text and operators make the same of them;
  2. functions and classes that are made of twin code are twins (`Agree.newClosure`,
     `Agree.newClass`), and so are the properties of twins (`Agree.member`).
-/
namespace LoxLang

variable {σ : Exchange} {p p' : Pair} {α β : Type}

/-! Twins look the same -/

theorem Function.Twin.name {marks : List Bool} {f f' : Function} (h : Function.Twin σ marks f f') :
    f'.name = f.name := by
  cases h
  rfl

theorem Token.AllTwin.length {mark : Bool} : ∀ {ts ts' : List Token}, Token.AllTwin σ mark ts ts' →
    ts'.length = ts.length
  | _, _, .nil => rfl
  | _, _, .cons _ rest => congrArg Nat.succ rest.length

theorem Function.Twin.arity {marks : List Bool} {f f' : Function} (h : Function.Twin σ marks f f') :
    f'.params.length = f.params.length := by
  cases h with
  | code mark params body => exact params.length

namespace Closure.Twin

variable {inner : List Bool} {f f' : Closure}

theorem name (h : Closure.Twin σ p inner f f') : f'.name = f.name := by
  obtain ⟨marks, _, twin⟩ := h.code
  rw [Closure.name, Closure.name, twin.name]

theorem arity (h : Closure.Twin σ p inner f f') : f'.arity = f.arity := by
  obtain ⟨marks, _, twin⟩ := h.code
  exact twin.arity

end Closure.Twin

theorem Closure.Twin.kin (inner : List Bool) (f f' : Closure) (h : Closure.Twin σ p inner f f') :
    Closure.Kin f f' := ⟨h.id, h.name, h.arity⟩

theorem Class.twin_iff {c c' : Class} :
    Class.Twin σ p c c' ↔ Class.Alike (Closure.Twin σ p) c c' :=
  ⟨fun h => ⟨h.id, h.name, h.methods, h.statics⟩, fun h => ⟨h.id, h.name, h.methods, h.statics⟩⟩

theorem Value.twin_iff {v v' : Value} :
    Value.Twin σ p v v' ↔ Value.Alike (Closure.Twin σ p) v v' := by
  constructor
  · intro h
    cases h with
    | nil => exact .nil
    | bool b => exact .bool b
    | number x => exact .number x
    | string s => exact .string s
    | function twin => exact .function twin
    | native n => exact .native n
    | ofClass twin => exact .ofClass (Class.twin_iff.mp twin)
    | object id twin => exact .object id (Class.twin_iff.mp twin)
  · intro h
    cases h with
    | nil => exact .nil
    | bool b => exact .bool b
    | number x => exact .number x
    | string s => exact .string s
    | function twin => exact .function twin
    | native n => exact .native n
    | ofClass alike => exact .ofClass (Class.twin_iff.mpr alike)
    | object id alike => exact .object id (Class.twin_iff.mpr alike)

theorem Class.Twin.alike {c c' : Class} (h : Class.Twin σ p c c') :
    Class.Alike (Closure.Twin σ p) c c' := Class.twin_iff.mp h

theorem Value.Twin.alike {v v' : Value} (h : Value.Twin σ p v v') :
    Value.Alike (Closure.Twin σ p) v v' := Value.twin_iff.mp h

/-! What two machines do alike -/

theorem bindParams_twin {mark : Bool} : ∀ {params params' : List Token}
    {arguments arguments' : List Value} {bindings bindings' : Bindings Value},
      Token.AllTwin σ mark params params' →
        List.Forall₂ (Value.Twin σ p) arguments arguments' →
          (∀ x, Option.Rel (Value.Twin σ p) (bindings.find? x)
            (bindings'.find? (σ.swap mark x))) →
            ∀ x, Option.Rel (Value.Twin σ p)
              (((params.zip arguments).foldl
                (fun bs (p, v) => Bindings.put p.lexeme v bs) bindings).find? x)
              (((params'.zip arguments').foldl
                (fun bs (p, v) => Bindings.put p.lexeme v bs) bindings').find? (σ.swap mark x))
  | [], _, _, _, _, _, .nil, _, bound, x => bound x
  | _ :: _, _, [], _, _, _, .cons _ _, .nil, bound, x => bound x
  | t :: ts, _, v :: vs, _, _, _, .cons twin rest, .cons value values, bound, x => by
    refine bindParams_twin rest values (fun z => ?_) x
    rw [Bindings.find?_put, Bindings.find?_put, twin]
    by_cases same : t.lexeme = z
    · rw [if_pos same, if_pos (σ.swap_inj.mpr same)]
      exact .some value
    · rw [if_neg same, if_neg fun same' => same (σ.swap_inj.mp same')]
      exact bound z

namespace Agree

theorem newId (like : p.Like σ) :
    Agree σ p Run.newId Run.newId fun id id' _ => id' = id := by
  obtain ⟨ended, grows⟩ := like.congr { p.left with nextId := p.left.nextId + 1 }
    { p.right with nextId := p.right.nextId + 1 } rfl rfl rfl rfl (by rw [like.nextId])
    like.current like.callDepth like.out like.clock like.readings
  exact .step _ rfl rfl ended ⟨grows, rfl⟩ like.nextId

theorem newClosure {code code' : Function} {marks : List Bool} (inner : List Bool) (initializer : Bool)
    (like : p.Like σ) (sees : p.Sees p.left.current marks)
    (twin : Function.Twin σ (inner ++ marks) code code') :
    Agree σ p (Run.newClosure code initializer) (Run.newClosure code' initializer)
      fun f f' p' => Closure.Twin σ p' inner f f' := by
  refine (Agree.newId like).bind fun id id' p₁ like₁ follows₁ same => ?_
  have scope : p₁.right.current = p₁.left.current := like₁.current
  have sees₁ := sees.follow follows₁
  exact .step p₁ rfl rfl like₁ (.refl p₁) ⟨same, scope, rfl, marks, sees₁, twin⟩

theorem bindThis {f f' : Closure} {v v' : Value} (like : p.Like σ)
    (twin : Closure.Twin σ p [false] f f') (value : Value.Twin σ p v v') :
    Agree σ p (Run.bindThis f v) (Run.bindThis f' v')
      fun g g' p' => Closure.Twin σ p' [] g g' := by
  obtain ⟨_, scope, initializer, marks, sees, code⟩ := twin
  unfold Run.bindThis
  rw [scope]
  refine newEnvironment false like sees (fun x => ?_) fun e p₁ like₁ follows₁ sees₁ _ => ?_
  · rw [Exchange.swap_false]
    simp only [Bindings.find?]
    split
    · exact .some value
    · exact .none
  · refine (Agree.newId like₁).bind fun id id' p₂ like₂ follows₂ same => ?_
    exact .pure like₂ ⟨same, rfl, initializer, false :: marks, sees₁.mono follows₂.grows, code⟩

/-- Functions are made one after the other; `inner` are the scopes around the code of each. -/
theorem newClosures {marks : List Bool} (inner : List Bool) (initializer : String → Bool) : ∀ {p : Pair}
    {codes codes' : List Function}, p.Like σ → p.Sees p.left.current marks →
      Function.AllTwin σ (inner ++ marks) codes codes' →
        Agree σ p (Run.newClosures initializer codes) (Run.newClosures initializer codes')
          fun fs fs' p' => List.Forall₂ (Closure.Twin σ p' inner) fs fs'
  | p, [], _, like, _, .nil => .pure like .nil
  | p, code :: rest, _ :: _, like, sees, .cons twin twins => by
    unfold Run.newClosures
    rw [twin.name]
    refine (newClosure inner _ like sees twin).bind fun f f' p₁ like₁ follows₁ made => ?_
    have sees₁ := sees.follow follows₁
    refine (newClosures inner initializer like₁ sees₁ twins).bind fun fs fs' p₂ like₂ follows₂ others => ?_
    exact .pure like₂ (.cons (made.mono follows₂.grows) others)

theorem current (like : p.Like σ) : Agree σ p Run.current Run.current
    fun e e' p' => e' = e ∧ e = p'.left.current :=
  .step p rfl rfl like (.refl p) ⟨like.current, rfl⟩

/-- A class is made, with one more environment around its own methods. -/
theorem newClass {marks : List Bool} {methods methods' statics statics' : List Function}
    (name : String) (like : p.Like σ) (sees : p.Sees p.left.current marks)
    (twins : Function.AllTwin σ (false :: marks) methods methods')
    (twins' : Function.AllTwin σ (false :: marks) statics statics') :
    Agree σ p (Run.newClass name methods statics) (Run.newClass name methods' statics')
      fun c c' p' => Class.Twin σ p' c c' := by
  refine (newClosures [false] _ like sees twins).bind fun ms ms' p₁ like₁ follows₁ made => ?_
  have sees₁ := sees.follow follows₁
  refine (current like₁).bind fun outer outer' p₂ like₂ follows₂ same => ?_
  obtain ⟨rfl, rfl⟩ := same
  have sees₂ := sees₁.follow follows₂
  refine newEnvironment false like₂ sees₂ (fun _ => .none) fun e p₃ like₃ follows₃ sees₃ _ => ?_
  refine Agree.bind (Q := fun fs fs' p' => List.Forall₂ (Closure.Twin σ p' []) fs fs')
    (.within like₃ fun p₄ like₄ grows₄ there => ?_) fun ss ss' p₅ like₅ follows₅ others => ?_
  · refine (newClosures [] _ like₄ (there ▸ sees₃.mono grows₄) twins').weaken ?_
    intro fs fs' p₅ _ _ made' p₆ grows₆ _
    exact made'.imp fun _ _ twin => twin.mono grows₆
  · refine (Agree.newId like₅).bind fun id id' p₆ like₆ follows₆ same => ?_
    have grows := ((follows₂.trans follows₃).trans (follows₅.trans follows₆)).grows
    exact .pure like₆ ⟨same, rfl, made.imp fun _ _ twin => twin.mono grows,
      others.imp fun _ _ twin => twin.mono follows₆.grows⟩

theorem newInstance (like : p.Like σ) :
    Agree σ p Run.newInstance Run.newInstance fun id id' _ => id' = id := by
  let p' : Pair := ⟨{ p.left with instances := p.left.instances.push [] },
    { p.right with instances := p.right.instances.push [] }, p.marked⟩
  have grows : p.Grows p' := ⟨Nat.le_refl _, fun _ _ => rfl, fun _ _ => rfl⟩
  have ended : p'.Like σ := by
    refine like.grow grows like.size like.outer (fun e x => relOption_mono (like.bound e x) grows)
      ?_ (fun i x => ?_) like.nextId like.current like.callDepth like.out like.clock like.readings
    · simp [p', like.instances]
    · have fields := relOption_mono (like.fields i x) grows
      show Option.Rel _ (((p.left.instances.push []).getD i []).find? x)
        (((p.right.instances.push []).getD i []).find? x)
      rw [fields_push, fields_push]
      exact fields
  exact .step p' rfl rfl ended ⟨grows, rfl⟩ like.instances

theorem field? (id : Nat) (x : String) (like : p.Like σ) :
    Agree σ p (Run.field? id x) (Run.field? id x) fun o o' p' =>
      Option.Rel (Value.Twin σ p') o o' :=
  .step p rfl rfl like (.refl p) (like.fields id x)

theorem setField {id : Nat} {x : String} {v v' : Value} (like : p.Like σ)
    (value : Value.Twin σ p v v') :
    Agree σ p (Run.setField id x v) (Run.setField id x v') fun _ _ _ => True := by
  let p' : Pair := ⟨{ p.left with instances := p.left.instances.modify id (·.put x v) },
    { p.right with instances := p.right.instances.modify id (·.put x v') }, p.marked⟩
  have grows : p.Grows p' := ⟨Nat.le_refl _, fun _ _ => rfl, fun _ _ => rfl⟩
  have ended : p'.Like σ := by
    refine like.grow grows like.size like.outer (fun e x => relOption_mono (like.bound e x) grows)
      ?_ (fun i z => ?_) like.nextId like.current like.callDepth like.out like.clock like.readings
    · simp [p', like.instances]
    · have fields := relOption_mono (like.fields i z) grows
      show Option.Rel _ (((p.left.instances.modify id (·.put x v)).getD i []).find? z)
        (((p.right.instances.modify id (·.put x v')).getD i []).find? z)
      rw [find?_fields_modify, find?_fields_modify, like.instances]
      split
      · exact .some (value.mono grows)
      · exact fields
  exact .step p' rfl rfl ended ⟨grows, rfl⟩ trivial

theorem receiver (e : Nat) (like : p.Like σ) :
    Agree σ p (Run.receiver e) (Run.receiver e) fun v v' p' => Value.Twin σ p' v v' := by
  refine .step p rfl rfl like (.refl p) ?_
  have bound := like.bound e Keyword.this.word
  rw [σ.swap_this] at bound
  have bound : Option.Rel (Value.Twin σ p) (p.left.environments.findHere? e "this")
    (p.right.environments.findHere? e "this") := bound
  generalize p.left.environments.findHere? e "this" = o at bound ⊢
  generalize p.right.environments.findHere? e "this" = o' at bound ⊢
  cases bound with
  | some twin => exact twin
  | none => exact .nil

theorem writeLine (text : String) (like : p.Like σ) :
    Agree σ p (Run.writeLine text) (Run.writeLine text) fun _ _ _ => True := by
  have ended (out : Sink) := like.congr { p.left with out } { p.right with out } rfl rfl rfl rfl
    like.nextId like.current like.callDepth rfl like.clock like.readings
  unfold Agree Run.writeLine
  rw [like.out]
  cases p.left.out.writeLine text with
  | mk result out =>
    obtain ⟨like', grows⟩ := ended out
    cases result with
    | ok _ => exact .ok _ like' ⟨grows, rfl⟩ trivial
    | error f => exact .fail _ _ _ like' ⟨grows, rfl⟩

theorem flush (like : p.Like σ) : Agree σ p Run.flush Run.flush fun _ _ _ => True := by
  unfold Agree Run.flush
  rw [like.out]
  cases p.left.out.flush with
  | ok _ => exact .ok p like (.refl p) trivial
  | error f => exact .fail _ _ p like (.refl p)

theorem readClock (like : p.Like σ) :
    Agree σ p Run.readClock Run.readClock fun x x' _ => x' = x := by
  obtain ⟨ended, grows⟩ := like.congr { p.left with readings := p.left.readings + 1 }
    { p.right with readings := p.right.readings + 1 } rfl rfl rfl rfl like.nextId like.current
    like.callDepth like.out like.clock (by rw [like.readings])
  refine .step _ rfl rfl ended ⟨grows, rfl⟩ ?_
  rw [like.clock, like.readings]

theorem printAll : ∀ {p : Pair} {vs vs' : List Value}, p.Like σ →
    List.Forall₂ (Value.Twin σ p) vs vs' →
      Agree σ p (Run.printAll vs) (Run.printAll vs') fun _ _ _ => True
  | _, [], _, like, .nil => .pure like trivial
  | p, v :: vs, v' :: vs', like, .cons value values => by
    unfold Run.printAll
    rw [value.alike.text Closure.Twin.kin]
    refine (writeLine v.text like).bind fun _ _ p₁ like₁ follows₁ _ => ?_
    exact printAll like₁ (values.imp fun _ _ twin => twin.mono follows₁.grows)

theorem callNative (n : Native) {vs vs' : List Value} (like : p.Like σ)
    (values : List.Forall₂ (Value.Twin σ p) vs vs') :
    Agree σ p (Run.callNative n vs) (Run.callNative n vs') fun v v' p' => Value.Twin σ p' v v' := by
  cases n with
  | clock =>
    refine (readClock like).bind fun x x' p₁ like₁ _ same => ?_
    subst same
    exact .pure like₁ (.number x')
  | print => exact (printAll like values).bind fun _ _ p₁ like₁ _ _ => .pure like₁ .nil

theorem property {c c' : Class} (id : Nat) (name : Token) (like : p.Like σ)
    (twin : Class.Twin σ p c c') :
    Agree σ p (Run.property id c name) (Run.property id c' name)
      fun v v' p' => Value.Twin σ p' v v' := by
  refine (field? id name.lexeme like).bind fun o o' p₁ like₁ follows₁ fields => ?_
  have twin₁ := twin.mono follows₁.grows
  cases fields with
  | some value => exact .pure like₁ value
  | none =>
    have methods := twin₁.alike.method Closure.Twin.kin name.lexeme
    have statics := twin₁.alike.static Closure.Twin.kin name.lexeme
    dsimp only
    generalize c.method? name.lexeme = m, c'.method? name.lexeme = m' at methods
    generalize c.static? name.lexeme = s, c'.static? name.lexeme = s' at statics
    cases methods with
    | some method =>
      refine (bindThis like₁ method (.object id twin₁)).bind fun f f' p₂ like₂ _ made => ?_
      exact .pure like₂ (.function made)
    | none =>
      cases statics with
      | some static => exact .pure like₁ (.function static)
      | none => exact .fail like₁ rfl rfl

theorem member {v v' : Value} (name : Token) (like : p.Like σ) (value : Value.Twin σ p v v') :
    Agree σ p (Run.member v name) (Run.member v' name)
      fun v v' p' => Value.Twin σ p' v v' := by
  cases value with
  | object id twin => exact property id name like twin
  | @ofClass c c' twin =>
    have statics := twin.alike.static Closure.Twin.kin name.lexeme
    unfold Run.member
    dsimp only
    generalize c.static? name.lexeme = s, c'.static? name.lexeme = s' at statics
    cases statics with
    | some static => exact .pure like (.function static)
    | none => exact .fail like rfl rfl
  | _ => exact .fail like rfl rfl

theorem lift {token : Token} {r : Except RuntimeFault Value} (like : p.Like σ)
    (plain : ∀ v, r = .ok v → v.Plain) :
    Agree σ p (Run.lift token r) (Run.lift token r) fun v v' p' => Value.Twin σ p' v v' := by
  cases r with
  | ok v => exact .step p rfl rfl like (.refl p) (Value.twin_iff.mpr (plain v rfl).alike)
  | error f => exact .fail like rfl rfl

end Agree

end LoxLang
