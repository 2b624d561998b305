import LoxLang.Proofs.Nesting.Environments
import LoxLang.Proofs.Running.Alike
/-!
What machines do on their own, with the blocks and without them. Numbers for functions, classes and
instances are given out alike, and a value looks the same in both machines.

What is proved:
  1. values are alike but for the functions in them (`Value.nested_iff`), so they have one text and
     operators make the same of them;
  2. functions and classes are made alike (`Concur.newClosure`, `Concur.newClass`), and so are the
     properties of values (`Concur.member`).
-/
namespace LoxLang

variable {t : Pace} {p p' : Nesting} {marks : List Bool}

/-! Values look the same -/

theorem Function.Nested.name {f f' : Function} (h : Function.Nested marks f f') :
    f'.name = f.name := by
  cases h
  rfl

theorem Function.Nested.params {f f' : Function} (h : Function.Nested marks f f') :
    f'.params = f.params := by
  cases h
  rfl

theorem Function.Nested.body {f f' : Function} (h : Function.Nested marks f f') :
    Stmt.AllNested (false :: marks) f.body f'.body := by
  cases h with
  | code name params body => exact body

namespace Closure.Nested

variable {inner : List Bool} {f f' : Closure}

theorem name (h : Closure.Nested p inner f f') : f'.name = f.name := by
  obtain ⟨marks, _, code, _⟩ := h.code
  rw [Closure.name, Closure.name, code.name]

theorem arity (h : Closure.Nested p inner f f') : f'.arity = f.arity := by
  obtain ⟨marks, _, code, _⟩ := h.code
  rw [Closure.arity, Closure.arity, code.params]

end Closure.Nested

/-- Functions look the same with blocks in their bodies. -/
theorem Closure.Nested.kin (inner : List Bool) (f f' : Closure) (h : Closure.Nested p inner f f') :
    Closure.Kin f f' := ⟨h.id, h.name, h.arity⟩

theorem Class.nested_iff {c c' : Class} :
    Class.Nested p c c' ↔ Class.Alike (Closure.Nested p) c c' :=
  ⟨fun h => ⟨h.id, h.name, h.methods, h.statics⟩, fun h => ⟨h.id, h.name, h.methods, h.statics⟩⟩

theorem Value.nested_iff {v v' : Value} :
    Value.Nested p v v' ↔ Value.Alike (Closure.Nested p) v v' := by
  constructor
  · intro h
    cases h with
    | nil => exact .nil
    | bool b => exact .bool b
    | number x => exact .number x
    | string s => exact .string s
    | function nested => exact .function nested
    | native n => exact .native n
    | ofClass nested => exact .ofClass (Class.nested_iff.mp nested)
    | object id nested => exact .object id (Class.nested_iff.mp nested)
  · intro h
    cases h with
    | nil => exact .nil
    | bool b => exact .bool b
    | number x => exact .number x
    | string s => exact .string s
    | function nested => exact .function nested
    | native n => exact .native n
    | ofClass alike => exact .ofClass (Class.nested_iff.mpr alike)
    | object id alike => exact .object id (Class.nested_iff.mpr alike)

theorem Class.Nested.alike {c c' : Class} (h : Class.Nested p c c') :
    Class.Alike (Closure.Nested p) c c' := Class.nested_iff.mp h

theorem Value.Nested.alike {v v' : Value} (h : Value.Nested p v v') :
    Value.Alike (Closure.Nested p) v v' := Value.nested_iff.mp h

/-! What two machines do alike -/

namespace Concur

theorem newId (like : p.Like) :
    Concur t p Run.newId Run.newId fun id id' _ => id' = id := by
  obtain ⟨ended, grows⟩ := like.congr { p.left with nextId := p.left.nextId + 1 }
    { p.right with nextId := p.right.nextId + 1 } rfl rfl rfl rfl (by rw [like.nextId])
    like.callDepth like.out like.clock like.readings
  exact .step _ rfl rfl ended ⟨grows, rfl, rfl⟩ like.nextId

theorem newClosure {code code' : Function} (inner : List Bool) (initializer : Bool) (like : p.Like)
    (stands : p.Stands marks) (nested : Function.Nested (inner ++ marks) code code')
    (receives : initializer = true → marks.headD false = false) :
    Concur t p (Run.newClosure code initializer) (Run.newClosure code' initializer)
      fun f f' p' => Closure.Nested p' inner f f' := by
  refine (Concur.newId like).bind fun id id' p₁ like₁ follows₁ same => ?_
  have stands₁ := stands.follow follows₁
  exact .step p₁ rfl rfl like₁ (.refl p₁) ⟨same, rfl, marks, stands₁, nested, receives⟩

theorem bindThis {f f' : Closure} {v v' : Value} (like : p.Like)
    (nested : Closure.Nested p [false] f f') (value : Value.Nested p v v') :
    Concur t p (Run.bindThis f v) (Run.bindThis f' v')
      fun g g' p' => Closure.Nested p' [] g g' := by
  obtain ⟨_, initializer, marks, sees, code, _⟩ := nested
  refine newEnvironment like sees (fun x => ?_) fun e e' p₁ like₁ follows₁ sees₁ => ?_
  · simp only [Bindings.find?]
    split
    · exact .some value
    · exact .none
  · refine (Concur.newId like₁).bind fun id id' p₂ like₂ follows₂ same => ?_
    exact .pure like₂ ⟨same, initializer, false :: marks, sees₁.mono follows₂.grows, code,
      fun _ => rfl⟩

/-- Functions are made one after the other; no initializer is made in a marked scope. -/
theorem newClosures (inner : List Bool) (initializer : String → Bool)
    (receives : ∀ name, initializer name = true → marks.headD false = false) : ∀ {p : Nesting}
    {codes codes' : List Function}, p.Like → p.Stands marks →
      Function.AllNested (inner ++ marks) codes codes' →
        Concur t p (Run.newClosures initializer codes) (Run.newClosures initializer codes')
          fun fs fs' p' => List.Forall₂ (Closure.Nested p' inner) fs fs'
  | p, [], _, like, _, .nil => .pure like .nil
  | p, code :: rest, _ :: _, like, stands, .cons first others => by
    unfold Run.newClosures
    rw [first.name]
    refine (newClosure inner _ like stands first (receives _)).bind fun f f' p₁ like₁ follows₁ made => ?_
    refine (newClosures inner initializer receives like₁ (stands.follow follows₁) others).bind
      fun fs fs' p₂ like₂ follows₂ rest => ?_
    exact .pure like₂ (.cons (made.mono follows₂.grows) rest)

theorem newScope {β β' : Type} {next : Nat → Run β} {next' : Nat → Run β'}
    {Q : β → β' → Nesting → Prop} (like : p.Like) (stands : p.Stands marks)
    (h : ∀ e e' p', p'.Like → p.Follows p' → p'.Sees e e' (false :: marks) →
      Concur t p' (next e) (next' e') Q) :
    Concur t p (Run.current >>= fun outer => Run.newEnvironment outer [] >>= next)
      (Run.current >>= fun outer => Run.newEnvironment outer [] >>= next') Q :=
  newEnvironment like stands (fun _ => .none) h

/-- A class is made, with one more environment around its own methods. -/
theorem newClass {methods methods' statics statics' : List Function} (name : String)
    (like : p.Like) (stands : p.Stands marks) (unmarked : marks.headD false = false)
    (nested : Function.AllNested (false :: marks) methods methods')
    (nested' : Function.AllNested (false :: marks) statics statics') :
    Concur t p (Run.newClass name methods statics) (Run.newClass name methods' statics')
      fun c c' p' => Class.Nested p' c c' := by
  refine (newClosures [false] _ (fun _ _ => unmarked) like stands nested).bind fun ms ms' p₁ like₁ follows₁ made => ?_
  refine newScope like₁ (stands.follow follows₁) fun e e' p₂ like₂ follows₂ sees₂ => ?_
  refine Concur.bind (Q := fun fs fs' p' => List.Forall₂ (Closure.Nested p' []) fs fs')
    (.within like₂ sees₂ fun p₃ like₃ stands₃ => ?_) fun ss ss' p₄ like₄ follows₄ others => ?_
  · refine (newClosures [] (fun _ => false) (fun _ => nofun) like₃ stands₃ nested').weaken id id ?_
    intro fs fs' p₄ _ _ made' p₅ grows₅ _
    exact made'.imp fun _ _ nested => nested.mono grows₅
  · refine (Concur.newId like₄).bind fun id id' p₅ like₅ follows₅ same => ?_
    have grows := (follows₂.trans (follows₄.trans follows₅)).grows
    exact .pure like₅ ⟨same, rfl, made.imp fun _ _ nested => nested.mono grows,
      others.imp fun _ _ nested => nested.mono follows₅.grows⟩

theorem newInstance (like : p.Like) :
    Concur t p Run.newInstance Run.newInstance fun id id' _ => id' = id := by
  obtain ⟨ended, follows⟩ := like.withInstances (p.left.instances.push []) (p.right.instances.push [])
    (by rw [Array.size_push, Array.size_push, like.instances]) fun i x => by
      rw [fields_push, fields_push]
      exact like.fields i x
  exact .step _ rfl rfl ended follows like.instances

theorem field? (id : Nat) (x : String) (like : p.Like) :
    Concur t p (Run.field? id x) (Run.field? id x) fun o o' p' =>
      Option.Rel (Value.Nested p') o o' :=
  .step p rfl rfl like (.refl p) (like.fields id x)

theorem setField {id : Nat} {x : String} {v v' : Value} (like : p.Like)
    (value : Value.Nested p v v') :
    Concur t p (Run.setField id x v) (Run.setField id x v') fun _ _ _ => True := by
  obtain ⟨ended, follows⟩ := like.withInstances (p.left.instances.modify id (·.put x v))
    (p.right.instances.modify id (·.put x v'))
    (by rw [Array.size_modify, Array.size_modify, like.instances]) fun i z => by
      rw [find?_fields_modify, find?_fields_modify, like.instances]
      split
      · exact .some value
      · exact like.fields i z
  exact .step _ rfl rfl ended follows trivial

theorem receiver {e e' : Nat} (like : p.Like) (sees : p.Sees e e' marks)
    (unmarked : marks.headD false = false) :
    Concur t p (Run.receiver e) (Run.receiver e') fun v v' p' => Value.Nested p' v v' := by
  refine .step p rfl rfl like (.refl p) ?_
  have bound := like.bound e sees.left "this"
  rw [← sees.place unmarked] at bound
  generalize p.left.environments.findHere? e "this" = o at bound ⊢
  generalize p.right.environments.findHere? e' "this" = o' at bound ⊢
  cases bound with
  | some nested => exact nested
  | none => exact .nil

theorem writeLine (text : String) (like : p.Like) :
    Concur t p (Run.writeLine text) (Run.writeLine text) fun _ _ _ => True := by
  have ended (out : Sink) := like.congr { p.left with out } { p.right with out } rfl rfl rfl rfl
    like.nextId like.callDepth rfl like.clock like.readings
  unfold Concur Run.writeLine
  rw [like.out]
  cases p.left.out.writeLine text with
  | mk result out =>
    obtain ⟨like', grows⟩ := ended out
    cases result with
    | ok _ => exact .ok _ like' ⟨grows, rfl, rfl⟩ trivial
    | error f => exact .fail _ _ like' ⟨grows, rfl, rfl⟩

theorem flush (like : p.Like) : Concur t p Run.flush Run.flush fun _ _ _ => True := by
  unfold Concur Run.flush
  rw [like.out]
  cases p.left.out.flush with
  | ok _ => exact .ok p like (.refl p) trivial
  | error f => exact .fail _ p like (.refl p)

theorem readClock (like : p.Like) :
    Concur t p Run.readClock Run.readClock fun x x' _ => x' = x := by
  obtain ⟨ended, grows⟩ := like.congr { p.left with readings := p.left.readings + 1 }
    { p.right with readings := p.right.readings + 1 } rfl rfl rfl rfl like.nextId like.callDepth
    like.out like.clock (by rw [like.readings])
  refine .step _ rfl rfl ended ⟨grows, rfl, rfl⟩ ?_
  rw [like.clock, like.readings]

theorem printAll : ∀ {p : Nesting} {vs vs' : List Value}, p.Like →
    List.Forall₂ (Value.Nested p) vs vs' →
      Concur t p (Run.printAll vs) (Run.printAll vs') fun _ _ _ => True
  | _, [], _, like, .nil => .pure like trivial
  | p, v :: vs, v' :: vs', like, .cons value values => by
    unfold Run.printAll
    rw [value.alike.text Closure.Nested.kin]
    refine (writeLine v.text like).bind fun _ _ p₁ like₁ follows₁ _ => ?_
    exact printAll like₁ (values_mono values follows₁.grows)

theorem callNative (n : Native) {vs vs' : List Value} (like : p.Like)
    (values : List.Forall₂ (Value.Nested p) vs vs') :
    Concur t p (Run.callNative n vs) (Run.callNative n vs')
      fun v v' p' => Value.Nested p' v v' := by
  cases n with
  | clock =>
    refine (readClock like).bind fun x x' p₁ like₁ _ same => ?_
    subst same
    exact .pure like₁ (.number x')
  | print => exact (printAll like values).bind fun _ _ p₁ like₁ _ _ => .pure like₁ .nil

theorem property {c c' : Class} (id : Nat) (name : Token) (like : p.Like)
    (nested : Class.Nested p c c') :
    Concur t p (Run.property id c name) (Run.property id c' name)
      fun v v' p' => Value.Nested p' v v' := by
  refine (field? id name.lexeme like).bind fun o o' p₁ like₁ follows₁ fields => ?_
  have nested₁ := nested.mono follows₁.grows
  cases fields with
  | some value => exact .pure like₁ value
  | none =>
    have methods := nested₁.alike.method Closure.Nested.kin name.lexeme
    have statics := nested₁.alike.static Closure.Nested.kin name.lexeme
    dsimp only
    generalize c.method? name.lexeme = m, c'.method? name.lexeme = m' at methods
    generalize c.static? name.lexeme = s, c'.static? name.lexeme = s' at statics
    cases methods with
    | some method =>
      refine (bindThis like₁ method (.object id nested₁)).bind fun f f' p₂ like₂ _ made => ?_
      exact .pure like₂ (.function made)
    | none =>
      cases statics with
      | some static => exact .pure like₁ (.function static)
      | none => exact .fail like₁ rfl rfl

theorem member {v v' : Value} (name : Token) (like : p.Like) (value : Value.Nested p v v') :
    Concur t p (Run.member v name) (Run.member v' name)
      fun v v' p' => Value.Nested p' v v' := by
  cases value with
  | object id nested => exact property id name like nested
  | @ofClass c c' nested =>
    have statics := nested.alike.static Closure.Nested.kin name.lexeme
    unfold Run.member
    dsimp only
    generalize c.static? name.lexeme = s, c'.static? name.lexeme = s' at statics
    cases statics with
    | some static => exact .pure like (.function static)
    | none => exact .fail like rfl rfl
  | _ => exact .fail like rfl rfl

theorem lift {token : Token} {r : Except RuntimeFault Value} (like : p.Like)
    (plain : ∀ v, r = .ok v → v.Plain) :
    Concur t p (Run.lift token r) (Run.lift token r) fun v v' p' => Value.Nested p' v v' := by
  cases r with
  | ok v => exact .step p rfl rfl like (.refl p) (Value.nested_iff.mpr (plain v rfl).alike)
  | error f => exact .fail like rfl rfl

end Concur

end LoxLang
