import LoxLang.Proofs.Running.Order
/-!
Functions and classes that are made in a world in order. A function gets a number that is new, so
the site of its code can be put on record under it; it keeps to the environment it was made in.

What is proved: functions, methods and classes stand where they are made (`Safe.newClosure`,
`Safe.newClosures_cons`), a method that is given its instance stands in the scope of its
class (`Safe.bindThis`), and so every property of a value fits (`Safe.member`).
-/
namespace LoxLang

variable {ran : List (List Stmt)} {w : World} {α β : Type}

/-- What belongs to a part of a program that ran belongs to that program. -/
theorem Site.Sound.child {p : Site} (h : p.Sound ran) (i : Nat) (proper : (p.child i).part.Proper) :
    (p.child i).Sound ran := by
  obtain ⟨program, mem, within⟩ := h.within
  refine ⟨⟨program, mem, .child i within⟩, proper, ?_⟩
  intro x found
  cases Site.step p i with
  | along _ rest closing =>
    rw [closing]
    exact h.closes x (rest.names x found)
  | opened _ _ c _ _ _ closing closes =>
    rw [closing]
    exact closes x found
  | declared _ _ _ _ _ _ rest closing =>
    rw [closing]
    exact h.closes x (rest.names x found)

theorem Chain.lt_size (order : InOrder ran w) {e : Nat} : ∀ {ss : List (Bindings Bool)}
    {cs : List Locals}, Chain w.machine.environments w.scopes e ss cs →
      e < w.machine.environments.size
  | [], [], h => by
    cases h
    exact order.nonempty
  | [], _ :: _, h => h.elim
  | _ :: _, [], h => h.elim
  | _ :: _, _ :: _, ⟨instanceOf, _⟩ => (order.instances _ _ instanceOf).1

/-- A world in which the next number is given to a function whose code has a site. -/
def World.number (w : World) (p : Option Site) : World where
  log := { w.log with origins := fun i => if i = w.machine.nextId then p else w.log.origins i }
  machine := { w.machine with nextId := w.machine.nextId + 1 }
  scopes := w.scopes

theorem World.grows_number (order : InOrder ran w) (p : Option Site) : w.Grows (w.number p) := by
  refine ⟨Nat.le_refl _, fun _ _ h => h, fun _ _ h => h, fun id q known => ?_, fun _ _ h => h⟩
  have old : id ≠ w.machine.nextId := by
    rintro rfl
    rw [order.fresh _ (Nat.le_refl _)] at known
    cases known
  exact (if_neg old).trans known

theorem InOrder.number (order : InOrder ran w) (p : Option Site) : InOrder ran (w.number p) := by
  refine order.grow (World.grows_number order p) (fun e x v found => .inl ⟨e, x, found⟩)
    (fun i x v found => .inl ⟨i, x, found⟩) (fun id le => ?_) order.instances order.globals
    order.marks
  have later : w.machine.nextId + 1 ≤ id := le
  exact (if_neg (by omega)).trans (order.fresh id (by omega))

theorem World.origin_number (w : World) (p : Option Site) :
    (w.number p).log.origins w.machine.nextId = p := if_pos rfl

/-- A function made from code that stands in the scopes of a site. -/
def Made (ran : List (List Stmt)) (w : World) (p : Site) (receiver : Receiver) (e : Nat)
    (f : Closure) : Prop :=
  f.scope = e ∧ ∃ q, Origin ran w f q ∧ q.before.outline = p.before.outline ∧
    q.closing = p.closing ∧ q.place.receiver = receiver

theorem Made.mono {w' : World} {p : Site} {receiver : Receiver} {e : Nat} {f : Closure}
    (grows : w.Grows w') : Made ran w p receiver e f → Made ran w' p receiver e f
  | ⟨scope, q, origin, same⟩ => ⟨scope, q, origin.mono grows, same⟩

/-- A function fits if its environment mirrors the scopes around its code. -/
theorem Made.fits {p : Site} {receiver : Receiver} {e : Nat} {f : Closure}
    (h : Made ran w p receiver e f)
    (chain : Chain w.machine.environments w.scopes e p.before.outline p.closing)
    (receives : receiver = .object → Receives w.machine.environments e p.before.outline) :
    FunctionFits ran w f := by
  obtain ⟨rfl, q, origin, outline, closing, same⟩ := h
  exact ⟨q, origin, by rw [outline, closing]; exact chain,
    fun object => by rw [outline]; exact receives (same ▸ object)⟩

/-- A method fits if its environment mirrors the scopes around its class. -/
theorem Made.methodFits {p : Site} {receiver : Receiver} {e : Nat} {f : Closure}
    {ss : List (Bindings Bool)} {c : Locals} {cs : List Locals} (h : Made ran w p receiver e f)
    (outline : p.before.outline = [(Keyword.this.word, true)] :: ss) (closing : p.closing = c :: cs)
    (chain : Chain w.machine.environments w.scopes e ss cs) : MethodFits ran w f := by
  obtain ⟨rfl, q, origin, outline', closing', _⟩ := h
  exact ⟨q, ss, c, cs, origin, outline'.trans outline, closing'.trans closing, chain⟩

/-- The scope of a class has its `this` when it is closed. -/
theorem Origin.binds_this {f : Closure} {p : Site} {ss : List (Bindings Bool)} {c : Locals}
    {cs : List Locals} (h : Origin ran w f p)
    (outline : p.before.outline = [(Keyword.this.word, true)] :: ss) (closing : p.closing = c :: cs) :
    c.binds Keyword.this.word := by
  obtain ⟨code, part, _⟩ := h.code
  have closes := h.sound.closes Keyword.this.word
  rw [closing] at closes
  apply closes
  have after : p.after.outline = p.before.outline := by
    obtain ⟨_, place, before, _⟩ := p
    cases part
    exact (Resolve.function_keeps place code before).outline
  rw [Resolution.top, after, outline]
  rfl

namespace Safe

theorem newClosure {p : Site} {code : Function} {initializer : Bool} (order : InOrder ran w)
    (sound : p.Sound ran) (part : p.part = .function code) :
    Safe ran w
      (Watched.newClosure p (Resolve.function p.place code p.before).1 initializer)
      fun f w' => Made ran w' p p.place.receiver w.machine.current f := by
  have origin : Origin ran (w.number (some p))
      ⟨w.machine.nextId, (Resolve.function p.place code p.before).1, w.machine.current,
        initializer⟩ p :=
    ⟨w.origin_number _, ⟨code, part, rfl⟩, sound⟩
  exact step (w.number (some p)) rfl (order.number _) ⟨World.grows_number order _, rfl⟩
    ⟨rfl, p, origin, rfl, rfl, rfl⟩

/-- The first of several functions is made where the others are, between the same scopes. -/
theorem newClosures_cons {initializer : String → Bool} {p : Site} {code : Function} {codes : List Function}
    {receiver : Receiver} (order : InOrder ran w) (sound : (p.child 0).Sound ran)
    (part : (p.child 0).part = .function code) (place : (p.child 0).place.receiver = receiver)
    (here : (p.child 0).before.outline = p.before.outline ∧ (p.child 0).closing = p.closing)
    (behind : (p.child 1).before.outline = p.before.outline ∧ (p.child 1).closing = p.closing)
    (others : ∀ {w'}, InOrder ran w' → Safe ran w' (Watched.newClosures initializer (p.child 1) codes)
      fun gs w'' => ∀ f ∈ gs, Made ran w'' (p.child 1) receiver w'.machine.current f) :
    Safe ran w (Watched.newClosures initializer p
        ((Resolve.function (p.child 0).place code (p.child 0).before).1 :: codes))
      fun gs w' => ∀ f ∈ gs, Made ran w' p receiver w.machine.current f := by
  refine bind (newClosure order sound part) fun g w' order' follows made => ?_
  refine bind (others order') fun gs w'' order'' follows' mades => ?_
  refine pure order'' (List.forall_mem_cons.mpr ⟨?_, fun g' mem => ?_⟩)
  · obtain ⟨scope, q, origin, outline, closing, same⟩ := made.mono follows'.grows
    exact ⟨scope, q, origin, outline.trans here.1, closing.trans here.2, same.trans place⟩
  · obtain ⟨scope, q, origin, outline, closing, same⟩ := mades g' mem
    exact ⟨scope.trans follows.current, q, origin, outline.trans behind.1, closing.trans behind.2, same⟩

/-- Methods are made in the current environment; the scope of their class is around their code. -/
theorem newClosures_methods {initializer : String → Bool} {place : Surroundings} {closing : List Locals} :
    ∀ {fs : List Function} {before : Resolution} {w : World}, InOrder ran w →
      Site.Sound ran ⟨.methods fs, place, before, closing⟩ →
      Safe ran w
        (Watched.newClosures initializer ⟨.methods fs, place, before, closing⟩ (Resolve.methods fs before).1)
        fun gs w' => ∀ f ∈ gs,
          Made ran w' ⟨.methods fs, place, before, closing⟩ .object w.machine.current f
  | [], _, _, order, _ => pure order fun _ mem => by cases mem
  | f :: fs, before, w, order, sound => by
    have keeps := (Resolve.function_keeps ⟨Resolve.methodBody f.name, .object⟩ f before).outline
    exact newClosures_cons order (sound.child 0 sound.proper.1.2) rfl rfl ⟨rfl, rfl⟩ ⟨keeps, rfl⟩
      fun order' => newClosures_methods order' (sound.child 1 sound.proper.2)

theorem newClosures_statics {initializer : String → Bool} {place : Surroundings} {closing : List Locals} :
    ∀ {fs : List Function} {before : Resolution} {w : World}, InOrder ran w →
      Site.Sound ran ⟨.statics fs, place, before, closing⟩ →
      Safe ran w
        (Watched.newClosures initializer ⟨.statics fs, place, before, closing⟩ (Resolve.statics fs before).1)
        fun gs w' => ∀ f ∈ gs,
          Made ran w' ⟨.statics fs, place, before, closing⟩ .static w.machine.current f
  | [], _, _, order, _ => pure order fun _ mem => by cases mem
  | f :: fs, before, w, order, sound => by
    have keeps := (Resolve.function_keeps ⟨.static, .static⟩ f before).outline
    exact newClosures_cons order (sound.child 0 sound.proper.1.2) rfl rfl ⟨rfl, rfl⟩ ⟨keeps, rfl⟩
      fun order' => newClosures_statics order' (sound.child 1 sound.proper.2)

/-- A method that is given its instance stands in the scope of its class, where `this` is bound. -/
theorem bindThis {f : Closure} {v : Value} (order : InOrder ran w) (fits : MethodFits ran w f)
    (value : ValueFits ran w v) :
    Safe ran w (Watched.bindThis f v)
      fun g w' => FunctionFits ran w' g ∧ g.code = f.code := by
  obtain ⟨p, ss, c, cs, origin, outline, closing, chain⟩ := fits
  have binds : ∀ x, (Bindings.find? x [("this", v)]).isSome → c.binds x := by
    intro x bound
    simp only [Bindings.find?] at bound
    split at bound
    · rename_i same
      subst same
      exact origin.binds_this outline closing
    · cases bound
  have values : ∀ x u, Bindings.find? x [("this", v)] = some u → ValueFits ran w u := by
    intro x u found
    simp only [Bindings.find?] at found
    split at found
    · cases found
      exact value
    · cases found
  refine bind (Q := fun q w' => q = some p ∧ w' = w)
    (step w rfl order (.refl w) ⟨origin.known, rfl⟩) fun q w' _ _ same => ?_
  obtain ⟨rfl, rfl⟩ := same
  -- A bound method is a new closure of the same code, over an environment that has `this` and nothing else.
  let number (scope : Nat) : Watched Closure := fun g m =>
    (.ok { f with id := m.nextId, scope } { m with nextId := m.nextId + 1 },
      { g with origins := fun i => if i = m.nextId then some p else g.origins i })
  show Safe ran w' (Watched.lift (Run.newEnvironment f.scope [("this", v)]) >>= number) _
  refine newEnvironment order c (chain.lt_size order) values binds
    fun e w₂ order₂ follows link known here => ?_
  refine step (w₂.number (some p)) rfl (order₂.number _)
    ⟨World.grows_number order₂ _, rfl⟩ ⟨?_, rfl⟩
  have grows := World.grows_number order₂ (some p)
  refine ⟨p, ⟨w₂.origin_number _, origin.code, origin.sound⟩, ?_, fun _ => ?_⟩
  · rw [outline, closing]
    refine ⟨known, fun x found ne => ?_, f.scope, link, chain.mono (follows.grows.trans grows)⟩
    simp only [Bindings.find?] at found
    split at found
    · rename_i same
      exact (ne same.symm).elim
    · cases found
  · rw [outline]
    unfold Receives
    rw [if_pos (by decide)]
    show (w₂.machine.environments.findHere? e Keyword.this.word).isSome
    rw [here]
    rfl

theorem member {v : Value} {name : Token} (order : InOrder ran w) (fits : ValueFits ran w v) :
    Safe ran w (Watched.member v name) fun u w' => ValueFits ran w' u := by
  unfold Watched.member
  split
  · rename_i id c
    have fits : ClassFits ran w c := fits
    refine bind (Q := fun found w' => ∀ u, found = some u → ValueFits ran w' u)
      (step w rfl order (.refl w) fun u found => order.fields id _ u found)
      fun found w' order follows known => ?_
    cases found with
    | some u => exact pure order (known u rfl)
    | none =>
      cases method : c.method? name.lexeme with
      | some f =>
        have value : ValueFits ran w' (.object id c) := ClassFits.mono follows.grows fits
        have methodFits := (fits.1 f (Closure.mem_of_lastNamed? method)).mono follows.grows
        exact bind (bindThis order methodFits value) fun g w'' order _ bound => pure order bound.1
      | none =>
        cases static : c.static? name.lexeme with
        | some f =>
          exact pure order (FunctionFits.mono follows.grows (fits.2 f (Closure.mem_of_lastNamed? static)))
        | none => exact fail (e := .runtime ⟨.undefinedProperty, name⟩) order rfl
  · rename_i c
    have fits : ClassFits ran w c := fits
    split
    · rename_i f static
      exact pure order (fits.2 f (Closure.mem_of_lastNamed? static))
    · exact fail (e := .runtime ⟨.undefinedProperty, name⟩) order rfl
  · exact fail (e := .runtime ⟨.noProperties, name⟩) order rfl

/-- A class keeps to the environment it is made in, and its own methods to one around them. -/
theorem newClass {name : Token} {ms ss : List Function} {place : Surroundings} {before : Resolution}
    {closing : List Locals} {p : Site} (c : Locals)
    (site : p = ⟨.statement (.declareClass name ms ss), place, before, closing⟩)
    (order : InOrder ran w) (sound : p.Sound ran)
    (exists_ : w.machine.current < w.machine.environments.size) :
    Safe ran w
      (Watched.newClass p name.lexeme (Resolve.methods ms (p.child 0).before).1
        (Resolve.statics ss (p.child 1).before).1)
      fun made w' =>
        (∀ f ∈ made.methods, Made ran w' (p.child 0) .object w.machine.current f) ∧
          ∃ e, w'.machine.environments.outer? e = some w.machine.current ∧
            w'.scopes e = some c ∧ ∀ f ∈ made.statics, Made ran w' (p.child 1) .static e f := by
  subst site
  let inner := Site.child ⟨.statement (.declareClass name ms ss), place, before, closing⟩ 1
  have first := sound.child 0 sound.proper.2.1
  have second := sound.child 1 sound.proper.2.2
  refine bind (newClosures_methods order first) fun methods w₁ order₁ follows₁ methodsMade => ?_
  refine bind (Q := fun outer w' => outer = w.machine.current ∧ w' = w₁)
    (step w₁ rfl order₁ (.refl w₁) ⟨follows₁.current, rfl⟩) fun outer w' _ _ same => ?_
  obtain ⟨rfl, rfl⟩ := same
  refine newEnvironment order₁ c (Nat.lt_of_lt_of_le exists_ follows₁.grows.size)
    (fun x v found => by cases found) (fun x bound => by cases bound)
    fun e w₂ order₂ follows₂ link known _ => ?_
  refine bind (Q := fun statics w' => ∀ f ∈ statics, Made ran w' inner .static e f)
    (within order₂ fun w₃ order₃ grows₃ there => ?_) fun statics w₄ order₄ follows₄ made => ?_
  · refine (newClosures_statics order₃ second).weaken fun statics w₄ _ follows₄ made w₅ grows₅ _ f mem => ?_
    rw [there] at made
    exact (made f mem).mono grows₅
  · refine bind (quiet (Q := fun _ _ => True) order₄ rfl rfl rfl (Nat.le_succ _) rfl
      fun _ _ _ => trivial) fun id w₅ order₅ follows₅ _ => pure order₅ ⟨fun f mem => ?_, ?_⟩
    · exact (methodsMade f mem).mono
        ((follows₂.grows.trans follows₄.grows).trans follows₅.grows)
    · have grows := follows₄.grows.trans follows₅.grows
      exact ⟨e, grows.outer _ _ link, grows.scopes _ _ known,
        fun f mem => (made f mem).mono follows₅.grows⟩

end Safe

end LoxLang
