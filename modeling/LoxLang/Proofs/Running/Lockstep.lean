import LoxLang.Proofs.Running.Closures
import LoxLang.Proofs.Running.Plain
import LoxLang.Proofs.Resolution.Distinct
/-!
Running code keeps the world in order. The run and the walk over the names open and close scopes in
lockstep: wherever the walk opened a scope the run makes an environment, and what the walk found
complete at some place is bound when the run gets there.

What is proved: evaluation, execution and calls are safe at every depth (`safeAll`), by induction on
the depth with one case for each construct.
-/
namespace LoxLang

variable {ran : List (List Stmt)} {w : World}

/-- The run goes on behind the part, or has a value to return. -/
def FlowFits (ran : List (List Stmt)) (p : Site) (w : World) : Flow → Prop
  | .normal => Stands w w.machine.current { p with before := p.after }
  | .returned v => ValueFits ran w v

structure SafeAll (ran : List (List Stmt)) (limit : Option Nat) (n : Nat) : Prop where
  evaluate : ∀ {w : World} {e : Expr} {place : Surroundings} {before : Resolution}
    {closing : List Locals}, InOrder ran w → Ready ran w ⟨.expression e, place, before, closing⟩ →
      Safe ran w
        (Watched.evaluate limit n ⟨.expression e, place, before, closing⟩
          (Resolve.expression place e before).1)
        fun v w' => ValueFits ran w' v
  evaluateAll : ∀ {w : World} {es : List Expr} {place : Surroundings} {before : Resolution}
    {closing : List Locals}, InOrder ran w → Ready ran w ⟨.expressions es, place, before, closing⟩ →
      Safe ran w
        (Watched.evaluateAll limit n ⟨.expressions es, place, before, closing⟩
          (Resolve.expressions place es before).1)
        fun vs w' => ∀ v ∈ vs, ValueFits ran w' v
  execute : ∀ {w : World} {s : Stmt} {place : Surroundings} {before : Resolution}
    {closing : List Locals}, InOrder ran w → Ready ran w ⟨.statement s, place, before, closing⟩ →
      Safe ran w
        (Watched.execute limit n ⟨.statement s, place, before, closing⟩
          (Resolve.statement place s before).1)
        fun flow w' => FlowFits ran ⟨.statement s, place, before, closing⟩ w' flow
  executeAll : ∀ {w : World} {ss : List Stmt} {place : Surroundings} {before : Resolution}
    {closing : List Locals}, InOrder ran w → Ready ran w ⟨.statements ss, place, before, closing⟩ →
      Safe ran w
        (Watched.executeAll limit n ⟨.statements ss, place, before, closing⟩
          (Resolve.statements place ss before).1)
        fun flow w' => FlowFits ran ⟨.statements ss, place, before, closing⟩ w' flow
  declareAll : ∀ {w : World} {ds : List Declarator} {place : Surroundings} {before : Resolution}
    {closing : List Locals}, InOrder ran w →
      Ready ran w ⟨.declarators ds, place, before, closing⟩ →
      Safe ran w
        (Watched.declareAll limit n ⟨.declarators ds, place, before, closing⟩
          (Resolve.declarators place ds before).1)
        fun flow w' => FlowFits ran ⟨.declarators ds, place, before, closing⟩ w' flow
  call : ∀ {w : World} {c : Callable} {arguments : List Value}, InOrder ran w →
    ValueFits ran w (.callable c) → (∀ v ∈ arguments, ValueFits ran w v) →
      arguments.length = c.arity →
        Safe ran w (Watched.call limit n c arguments) fun v w' => ValueFits ran w' v

namespace Ready

variable {p : Site}

theorem mono {w' : World} (h : Ready ran w p) (follows : w.Follows w') : Ready ran w' p :=
  ⟨h.sound, by rw [follows.current]; exact h.stands.mono follows.grows⟩

theorem sub (h : Ready ran w p) (i : Nat) (proper : (p.child i).part.Proper)
    (outline : (p.child i).before.outline = p.before.outline)
    (closing : (p.child i).closing = p.closing)
    (receiver : (p.child i).place.receiver = p.place.receiver) : Ready ran w (p.child i) :=
  ⟨h.sound.child i proper, by rw [outline, closing]; exact h.stands.chain,
    fun object => by rw [outline]; exact h.stands.receives (receiver ▸ object)⟩

theorem current_lt (h : Ready ran w p) (order : InOrder ran w) :
    w.machine.current < w.machine.environments.size :=
  h.stands.chain.lt_size order

/-- A node that is reached where the run stands as it should. -/
theorem reached (h : Ready ran w p) (order : InOrder ran w) {part : Part}
    (resolved : p.resolved = part) : (Mark.reached p part w.machine).Fits ran := by
  obtain ⟨program, mem, within⟩ := h.sound.within
  exact ⟨⟨program, mem, within⟩, resolved, h.stands.matches order⟩

end Ready

/-! What does not look into the world -/

theorem Value.Plain.fits {v : Value} (h : v.Plain) : ValueFits ran w v := by
  cases h <;> trivial

/-- The two machines differ in their output and their clock at most. -/
structure Machine.Same (m m' : Machine) : Prop where
  environments : m'.environments = m.environments
  instances : m'.instances = m.instances
  nextId : m'.nextId = m.nextId
  current : m'.current = m.current

/-- A run that touches nothing but the output and the clock. -/
def Run.Still {α : Type} (r : Run α) : Prop := ∀ m,
  match r m with
  | .ok _ m' => m.Same m'
  | .fail _ m' => m.Same m'
  | .starved => True

namespace Run.Still

variable {α β : Type}

theorem pure (a : α) : Still (pure a : Run α) := fun _ => ⟨rfl, rfl, rfl, rfl⟩

theorem bind {r : Run α} {next : α → Run β} (h : Still r) (h' : ∀ a, Still (next a)) :
    Still (r >>= next) := by
  intro m
  have first := h m
  rw [bind_apply]
  cases eq : r m with
  | ok a m₁ =>
    rw [eq] at first
    have rest := h' a m₁
    dsimp only at first rest ⊢
    cases eq' : next a m₁ with
    | starved => trivial
    | _ =>
      rw [eq'] at rest
      exact ⟨rest.environments.trans first.environments, rest.instances.trans first.instances,
        rest.nextId.trans first.nextId, rest.current.trans first.current⟩
  | fail e m₁ =>
    rw [eq] at first
    exact first
  | starved => trivial

theorem writeLine (text : String) : Still (writeLine text) := by
  intro m
  unfold Run.writeLine
  rcases m.out.writeLine text with ⟨_ | _, out⟩ <;> exact ⟨rfl, rfl, rfl, rfl⟩

theorem flush : Still Run.flush := by
  intro m
  unfold Run.flush
  rcases m.out.flush with _ | _ <;> exact ⟨rfl, rfl, rfl, rfl⟩

theorem readClock : Still Run.readClock := fun _ => ⟨rfl, rfl, rfl, rfl⟩

theorem printAll : ∀ vs : List Value, Still (printAll vs)
  | [] => pure ()
  | v :: vs => (writeLine v.text).bind fun _ => printAll vs

end Run.Still

namespace Safe

variable {α : Type}

theorem still {r : Run α} {Q : α → World → Prop} (order : InOrder ran w) (h : r.Still)
    (q : ∀ a w', InOrder ran w' → w.Follows w' → Q a w') : Safe ran w (Watched.lift r) Q := by
  have same := h w.machine
  have next (m : Machine) (same : w.machine.Same m) :
      InOrder ran ⟨w.log, m, w.scopes⟩ ∧ w.Follows ⟨w.log, m, w.scopes⟩ := by
    obtain ⟨order', grows⟩ := order.congr ⟨w.log, m, w.scopes⟩ same.environments
      same.instances (Nat.le_of_eq same.nextId.symm) rfl rfl order.marks
    exact ⟨order', grows, same.current⟩
  unfold Safe Watched.lift
  cases eq : r w.machine with
  | ok a m =>
    rw [eq] at same
    obtain ⟨order', follows⟩ := next m same
    exact ⟨w.scopes, order', follows, q a _ order' follows⟩
  | fail e m =>
    rw [eq] at same
    exact ⟨w.scopes, next m same⟩
  | starved => exact order.marks

theorem operation {token : Token} {r : Except RuntimeFault α} {Q : α → World → Prop}
    (order : InOrder ran w) (q : ∀ a, r = .ok a → Q a w) :
    Safe ran w (Watched.lift (Run.lift token r)) Q := by
  cases r with
  | ok a => exact step w rfl order (.refl w) (q a rfl)
  | error f => exact fail (e := .runtime ⟨f, token⟩) order rfl

end Safe

/-! Expressions -/

section

variable {limit : Option Nat} {n : Nat}

open Resolve

theorem evaluate_safe (accepted : ∀ program ∈ ran, (Resolution.ofProgram program).2.errors = [])
    (ih : SafeAll ran limit n) {e : Expr} {place : Surroundings} {before : Resolution}
    {closing : List Locals} (order : InOrder ran w)
    (ready : Ready ran w ⟨.expression e, place, before, closing⟩) :
    Safe ran w
      (Watched.evaluate limit (n + 1) ⟨.expression e, place, before, closing⟩
        (Resolve.expression place e before).1)
      fun v w' => ValueFits ran w' v := by
  refine Safe.reach order (ready.reached order rfl) fun w₀ order₀ follows₀ => ?_
  replace ready := ready.mono follows₀
  have proper := ready.sound.proper
  match e with
  | .literal value => exact .pure order₀ value.plain.fits
  | .group inner => exact ih.evaluate order₀ (ready.sub 0 proper rfl rfl rfl)
  | .unary op right =>
    refine (ih.evaluate order₀ (ready.sub 0 proper.2 rfl rfl rfl)).bind
      fun v w₁ order₁ _ _ => .operation order₁ fun _ eq => (plain_of_unary eq).fits
  | .binary left op right =>
    refine (ih.evaluate order₀ (ready.sub 0 proper.1 rfl rfl rfl)).bind
      fun v w₁ order₁ follows₁ _ => ?_
    have second := (ready.mono follows₁).sub 1 proper.2.2 (expression_keeps _ _ _).outline rfl rfl
    exact (ih.evaluate order₁ second).bind
      fun u w₂ order₂ _ _ => .operation order₂ fun _ eq => (plain_of_binary eq).fits
  | .logical left op right =>
    refine (ih.evaluate order₀ (ready.sub 0 proper.1 rfl rfl rfl)).bind
      fun v w₁ order₁ follows₁ fits => ?_
    have second := (ready.mono follows₁).sub 1 proper.2.2 (expression_keeps _ _ _).outline rfl rfl
    by_cases short : (v.truthy == op.isKeyword .or) = true
    · rw [if_pos short]
      exact .pure order₁ fits
    · rw [if_neg short]
      exact ih.evaluate order₁ second
  | .ternary condition whenTrue whenFalse =>
    refine (ih.evaluate order₀ (ready.sub 0 proper.1 rfl rfl rfl)).bind
      fun v w₁ order₁ follows₁ fits => ?_
    have second := (ready.mono follows₁).sub 1 proper.2.1 (expression_keeps _ _ _).outline rfl rfl
    have third := (ready.mono follows₁).sub 2 proper.2.2
      ((expression_keeps _ _ _).outline.trans (expression_keeps _ _ _).outline) rfl rfl
    by_cases truthy : v.truthy = true
    · rw [if_pos truthy]
      exact ih.evaluate order₁ second
    · rw [if_neg truthy]
      exact ih.evaluate order₁ third
  | .variable name depth =>
    -- The access that is noted is that of the binding the walk has found for the name.
    have resolved := Site.resolved_variable place name depth before
    rw [resolved]
    exact .access order₀ (ready.accessed accepted order₀ proper.1 (.inl ⟨depth, rfl⟩)
      (.inl (congrArg Part.expression resolved))) fun w₁ order₁ _ => .lookUp order₁
  | .this keyword depth =>
    obtain ⟨body, receiver⟩ := place
    obtain ⟨isThis, rfl⟩ := proper
    cases receiver with
    -- Outside of methods `this` is no local name, so it is looked up among the globals.
    | none | static =>
      exact .access order₀ (ready.accessedFar order₀ (.inr (.inl rfl))) fun w₁ order₁ _ => .lookUp order₁
    | object =>
      exact .access order₀ (ready.accessedThis order₀ isThis.2 rfl (.inr (.inl rfl)))
        fun w₁ order₁ _ => .lookUp order₁
  | .assign name value depth =>
    refine (ih.evaluate order₀ (ready.sub 0 proper.2.1 rfl rfl rfl)).bind
      fun v w₁ order₁ follows₁ fits => ?_
    replace ready := ready.mono follows₁
    have resolved := Site.resolved_assign place name value depth before
    show Safe ran w₁ (Watched.access _ name
      (distance? name.lexeme (expression place value before).2.scopes) >>= fun _ =>
        Watched.lift (Run.assign name (distance? name.lexeme
          (expression place value before).2.scopes) v) >>= fun _ => pure v) _
    -- The distance is counted behind the value, where the same scopes are open as in front of it.
    rw [Site.distance?_behind]
    refine .access order₁ (ready.accessed accepted order₁ proper.1 (.inr ⟨value, depth, rfl⟩)
      (.inr (.inr ⟨_, congrArg Part.expression resolved⟩))) fun w₂ order₂ follows₂ => ?_
    have fits := fits.mono follows₂.grows
    exact (Safe.assign order₂ fits fun w₃ _ follows₃ => fits.mono follows₃.grows).bind
      fun _ w₃ order₃ _ fits => .pure order₃ fits
  | .call callee paren arguments =>
    refine (ih.evaluate order₀ (ready.sub 0 proper.1 rfl rfl rfl)).bind
      fun v w₁ order₁ follows₁ fits => ?_
    have second := (ready.mono follows₁).sub 1 proper.2.2 (expression_keeps _ _ _).outline rfl rfl
    refine (ih.evaluateAll order₁ second).bind fun vs w₂ order₂ follows₂ allFit => ?_
    replace fits := fits.mono follows₂.grows
    -- Only what is callable is called, and only with as many values as it has parameters.
    cases v with
    | callable c =>
      show Safe ran w₂ (if vs.length = c.arity then _ else _) _
      split
      · rename_i arity
        refine .asCall order₂ fun w₃ order₃ follows₃ => ?_
        have argumentsFit := fun v mem => (allFit v mem).mono follows₃.grows
        exact (ih.call order₃ (fits.mono follows₃.grows) argumentsFit arity).weaken
          fun v w₄ _ _ fits w₅ grows _ => fits.mono grows
      · exact .fail (e := .runtime ⟨.arity c.arity vs.length, paren⟩) order₂ rfl
    | _ => exact .fail (e := .runtime ⟨.notCallable, paren⟩) order₂ rfl
  | .property object name =>
    exact (ih.evaluate order₀ (ready.sub 0 proper.1 rfl rfl rfl)).bind
      fun v w₁ order₁ follows₁ fits => .member order₁ fits
  | .setProperty object name value =>
    have first := ready.sub 0 proper.1 (expression_keeps _ _ _).outline rfl rfl
    refine (ih.evaluate order₀ first).bind fun v w₁ order₁ follows₁ fits => ?_
    cases v with
    | object id c =>
      have second := (ready.mono follows₁).sub 1 proper.2.2 rfl rfl rfl
      refine (ih.evaluate order₁ second).bind fun u w₂ order₂ follows₂ fits => ?_
      exact (Safe.setField order₂ fits fun w₃ _ follows₃ => fits.mono follows₃.grows).bind
        fun _ w₃ order₃ _ fits => .pure order₃ fits
    | _ => exact .fail (e := .runtime ⟨.noFields, name⟩) order₁ rfl
  | .lambda code =>
    have sound := ready.sound.child 0 proper.2
    refine (Safe.newClosure order₀ sound rfl).bind fun f w₁ order₁ follows₁ made => ?_
    have stands := (ready.mono follows₁).stands
    rw [follows₁.current] at stands
    exact .pure order₁ (made.fits stands.chain stands.receives)

theorem evaluateAll_safe (ih : SafeAll ran limit n) {es : List Expr} {place : Surroundings}
    {before : Resolution} {closing : List Locals} (order : InOrder ran w)
    (ready : Ready ran w ⟨.expressions es, place, before, closing⟩) :
    Safe ran w
      (Watched.evaluateAll limit (n + 1) ⟨.expressions es, place, before, closing⟩
        (Resolve.expressions place es before).1)
      fun vs w' => ∀ v ∈ vs, ValueFits ran w' v := by
  have proper := ready.sound.proper
  cases es with
  | nil => exact .pure order fun v mem => by cases mem
  | cons e es =>
    refine (ih.evaluate order (ready.sub 0 proper.1 rfl rfl rfl)).bind
      fun v w₁ order₁ follows₁ fits => ?_
    have second := (ready.mono follows₁).sub 1 proper.2 (expression_keeps _ _ _).outline rfl rfl
    refine (ih.evaluateAll order₁ second).bind fun vs w₂ order₂ follows₂ allFit => ?_
    exact .pure order₂ (List.forall_mem_cons.mpr ⟨fits.mono follows₂.grows, allFit⟩)

/-! Statements -/

/-- Behind a part that adds nothing to the open scopes the run stands as before it. -/
theorem Ready.behind {p : Site} (h : Ready ran w p) (keeps : p.after.outline = p.before.outline) :
    FlowFits ran p w .normal :=
  h.stands.update (by rw [keeps]) (by rw [keeps])
    (fun x _ found => .inl (by rwa [Resolution.top, keeps] at found))
    (by rw [Resolution.top, keeps]; rfl) rfl rfl

/-- How a part of such a part ends is how the part ends. -/
theorem FlowFits.outward {p q : Site} {w' : World} {flow : Flow} (h : Ready ran w p)
    (follows : w.Follows w') (keeps : p.after.outline = p.before.outline)
    (fits : FlowFits ran q w' flow) : FlowFits ran p w' flow := by
  cases flow with
  | normal => exact (h.mono follows).behind keeps
  | returned v => exact fits

/-- A part that ends where another one ends, and in the same open scopes, ends as that does. -/
theorem FlowFits.last {p q : Site} {flow : Flow} (fits : FlowFits ran q w flow)
    (behind : q.after = p.after) (closing : q.closing = p.closing)
    (receiver : q.place.receiver = p.place.receiver) : FlowFits ran p w flow := by
  cases flow with
  | normal =>
    obtain ⟨chain, receives⟩ := fits
    dsimp only at chain receives
    rw [behind] at chain receives
    exact ⟨closing ▸ chain, fun object => receives (receiver.trans object)⟩
  | returned v => exact fits

theorem Stands.enter {e e' : Nat} {p q : Site} {s : Bindings Bool} {c : Locals}
    (h : Stands w e p) (link : w.machine.environments.outer? e' = some e)
    (known : w.scopes e' = some c) (outline : q.before.outline = s :: p.before.outline)
    (closing : q.closing = c :: p.closing) (receiver : q.place.receiver = p.place.receiver)
    (binds : ∀ x, s.find? x = some true → (w.machine.environments.findHere? e' x).isSome)
    (free : s.binds Keyword.this.word = false) : Stands w e' q := by
  constructor
  · rw [outline, closing]
    exact ⟨known, fun x found _ => binds x found, e, link, h.chain⟩
  · intro object
    rw [outline, Receives, free]
    exact ⟨e, link, h.receives (receiver ▸ object)⟩

theorem Stands.declared {e : Nat} {p q : Site} {name : Token} (h : Stands w e p)
    (isName : name.IsName)
    (bound : (w.machine.environments.findHere? e name.lexeme).isSome)
    (outline : q.before.outline = introduce name.lexeme p.before.outline)
    (closing : q.closing = p.closing) (receiver : q.place.receiver = p.place.receiver) :
    Stands w e q := by
  have length : q.before.outline.length = p.before.outline.length := by
    rw [outline, length_introduce]
  have tail : q.before.outline.tail = p.before.outline.tail := by
    rw [outline, tail_introduce]
  by_cases none : p.before.outline = []
  · have same : q.before.outline = p.before.outline := by rw [outline, none]; rfl
    exact h.update length tail (fun x _ found => .inl (by rwa [Resolution.top, ← same]))
      (by rw [Resolution.top, same]; rfl) closing receiver
  have found (x : String) : q.before.top.find? x =
      if name.lexeme = x then some true else p.before.top.find? x := by
    rw [Resolution.top, outline]
    exact find?_introduce name.lexeme x none
  refine h.update length tail (fun x _ finished => ?_) ?_ closing receiver
  · rw [found] at finished
    split at finished
    · rename_i same
      exact .inr (same ▸ bound)
    · exact .inl finished
  · rw [Bindings.binds, found, if_neg (isName.lexeme_ne .this)]
    rfl

/-- The scope of the current environment has the names that are bound there on the way. -/
theorem Ready.closes {p : Site} (h : Ready ran w p) (order : InOrder ran w) {x : String}
    (introduced : p.before.outline ≠ [] → (p.after.top.find? x).isSome) :
    ∀ c, w.scopes w.machine.current = some c → c.binds x := by
  intro c known
  have chain := h.stands.chain
  have closes := h.sound.closes x
  cases outline : p.before.outline with
  | nil =>
    rw [outline] at chain
    cases closing : p.closing with
    | nil =>
      rw [closing] at chain
      have atGlobals : w.machine.current = Machine.globals := chain
      rw [atGlobals, order.globals] at known
      cases known
    | cons c cs => rw [closing] at chain; exact chain.elim
  | cons s ss =>
    rw [outline] at chain introduced
    cases closing : p.closing with
    | nil => rw [closing] at chain; exact chain.elim
    | cons c' cs =>
      rw [closing] at chain closes
      obtain ⟨instanceOf, _⟩ := chain
      cases instanceOf.symm.trans known
      exact closes (introduced (List.cons_ne_nil s ss))

/-- A name that was introduced is among the names of the innermost scope from then on. -/
theorem introduced_top {r r' r'' : Resolution} {x : String}
    (outline : r'.outline = introduce x r.outline) (grows : Resolution.Grows r' r'')
    (open_ : r.outline ≠ []) : (r''.top.find? x).isSome := by
  apply grows.names
  rw [Resolution.top, outline, find?_introduce x x open_, if_pos rfl]
  rfl

/-- A part binds a name in the end. What it binds it to may refer to the name, which is bound by then. -/
theorem declares_safe {p : Site} {name : Token} {r : Resolution} {v : Value} (order : InOrder ran w)
    (ready : Ready ran w p) (isName : name.IsName)
    (outline : r.outline = introduce name.lexeme p.before.outline) (keeps : Resolution.Keeps r p.after)
    (fits : ∀ w', w.Follows w' → Stands w' w.machine.current { p with before := r } →
      ValueFits ran w' v) :
    Safe ran w (Watched.lift (Run.define name.lexeme v) >>= fun _ => pure Flow.normal)
      fun flow w' => FlowFits ran p w' flow := by
  have closes := ready.closes order (introduced_top outline keeps.grows)
  refine (Safe.define (Q := fun _ w' => FlowFits ran p w' .normal) order (ready.current_lt order)
    closes (fun w₁ follows bound => fits w₁ follows ?_) fun w₁ _ follows bound => ?_).bind
    fun _ w₁ order₁ _ fits => .pure order₁ fits
  · rw [follows.current] at bound
    exact (ready.stands.mono follows.grows).declared isName bound outline rfl rfl
  · exact (ready.mono follows).stands.declared isName bound (keeps.outline.trans outline) rfl rfl

/-- The statements of a block run in a new environment, which is left behind them. -/
theorem block_safe (ih : SafeAll ran limit n) {body : List Stmt} {place : Surroundings}
    {before : Resolution} {closing : List Locals} (order : InOrder ran w)
    (ready : Ready ran w ⟨.statement (.block body), place, before, closing⟩) :
    Safe ran w
      (Watched.lift Run.current >>= fun outer => Watched.lift (Run.newEnvironment outer []) >>= fun scope =>
        Watched.within scope (Watched.executeAll limit n
          (Site.child ⟨.statement (.block body), place, before, closing⟩ 0)
          (Resolve.statements place body (openScope [] before).2).1))
      fun flow w' => FlowFits ran ⟨.statement (.block body), place, before, closing⟩ w' flow := by
  have proper := ready.sound.proper
  have keeps := (statement_keeps place (.block body) rfl proper before).outline
  have sound := ready.sound.child 0 proper
  refine Safe.bind (Q := fun outer w' => outer = w.machine.current ∧ w' = w)
    (.step w rfl order (.refl w) ⟨rfl, rfl⟩) fun outer w' _ _ same => ?_
  obtain ⟨rfl, rfl⟩ := same
  refine .newEnvironment order
    (Site.innermost (Resolve.statements place body) (openScope [] before).2)
    (ready.current_lt order) (fun x v found => by cases found)
    (fun x bound => by cases bound) fun e w₁ order₁ follows₁ link known here => ?_
  refine .within order₁ fun w₂ order₂ grows₂ there => ?_
  have stands := (ready.stands.mono follows₁.grows).mono grows₂
  have inside : Ready ran w₂
      (Site.child ⟨.statement (.block body), place, before, closing⟩ 0) := ⟨sound, by
    rw [there]
    exact stands.enter (grows₂.outer _ _ link) (grows₂.scopes _ _ known) rfl rfl rfl
      (fun x found => by cases found) rfl⟩
  refine (ih.executeAll order₂ inside).weaken fun flow w₃ _ _ fits w₄ grows₄ follows₄ => ?_
  cases flow with
  | normal => exact (ready.mono (follows₁.trans follows₄)).behind keeps
  | returned v => exact ValueFits.mono grows₄ fits

theorem execute_safe (ih : SafeAll ran limit n) {s : Stmt} {place : Surroundings}
    {before : Resolution} {closing : List Locals} (order : InOrder ran w)
    (ready : Ready ran w ⟨.statement s, place, before, closing⟩) :
    Safe ran w
      (Watched.execute limit (n + 1) ⟨.statement s, place, before, closing⟩
        (Resolve.statement place s before).1)
      fun flow w' => FlowFits ran ⟨.statement s, place, before, closing⟩ w' flow := by
  refine Safe.reach order (ready.reached order rfl) fun w₀ order₀ follows₀ => ?_
  replace ready := ready.mono follows₀
  have proper := ready.sound.proper
  match s with
  | .expression value =>
    have keeps := (expression_keeps place value before).outline
    exact (ih.evaluate order₀ (ready.sub 0 proper rfl rfl rfl)).bind
      fun v w₁ order₁ follows₁ _ => .pure order₁ ((ready.mono follows₁).behind keeps)
  | .print value =>
    have keeps := (expression_keeps place value before).outline
    refine (ih.evaluate order₀ (ready.sub 0 proper rfl rfl rfl)).bind
      fun v w₁ order₁ follows₁ _ => ?_
    refine (Safe.still (Q := fun _ _ => True) order₁ (.writeLine _) fun _ _ _ _ => trivial).bind
      fun _ w₂ order₂ follows₂ _ => ?_
    exact .pure order₂ ((ready.mono (follows₁.trans follows₂)).behind keeps)
  | .declare d =>
    exact (ih.declareAll order₀ (ready.sub 0 ⟨proper, trivial⟩ rfl rfl rfl)).weaken
      fun flow w₁ _ _ fits => fits.last rfl rfl rfl
  | .declareAll ds =>
    exact (ih.declareAll order₀ (ready.sub 0 proper.2 rfl rfl rfl)).weaken
      fun flow w₁ _ _ fits => fits.last rfl rfl rfl
  | .block body => exact block_safe ih order₀ ready
  | .conditional condition whenTrue none =>
    have keeps := (statement_keeps place (.conditional condition whenTrue none) rfl proper before).outline
    refine (ih.evaluate order₀ (ready.sub 0 proper.1 rfl rfl rfl)).bind
      fun v w₁ order₁ follows₁ _ => ?_
    replace ready := ready.mono follows₁
    have second := ready.sub 1 proper.2.2 (expression_keeps _ _ _).outline rfl rfl
    by_cases truthy : v.truthy = true
    · rw [if_pos truthy]
      exact (ih.execute order₁ second).weaken fun flow w₂ _ follows₂ fits =>
        .outward ready follows₂ keeps fits
    · rw [if_neg truthy]
      exact .pure order₁ (ready.behind keeps)
  | .conditional condition whenTrue (some whenFalse) =>
    have keeps := (statement_keeps place (.conditional condition whenTrue (some whenFalse)) rfl proper
      before).outline
    refine (ih.evaluate order₀ (ready.sub 0 proper.1 rfl rfl rfl)).bind
      fun v w₁ order₁ follows₁ _ => ?_
    replace ready := ready.mono follows₁
    have second := ready.sub 1 proper.2.1.2 (expression_keeps _ _ _).outline rfl rfl
    have third := ready.sub 2 proper.2.2.2
      ((expression_keeps _ _ _).trans
        (statement_keeps place whenTrue proper.2.1.1 proper.2.1.2 _)).outline rfl rfl
    by_cases truthy : v.truthy = true
    · rw [if_pos truthy]
      exact (ih.execute order₁ second).weaken fun flow w₂ _ follows₂ fits =>
        .outward ready follows₂ keeps fits
    · rw [if_neg truthy]
      exact (ih.execute order₁ third).weaken fun flow w₂ _ follows₂ fits =>
        .outward ready follows₂ keeps fits
  | .loop condition body =>
    have keeps := (statement_keeps place (.loop condition body) rfl proper before).outline
    refine (ih.evaluate order₀ (ready.sub 0 proper.1 rfl rfl rfl)).bind
      fun v w₁ order₁ follows₁ _ => ?_
    replace ready := ready.mono follows₁
    have second := ready.sub 1 proper.2.2 (expression_keeps _ _ _).outline rfl rfl
    by_cases truthy : v.truthy = true
    · rw [if_pos truthy]
      refine (ih.execute order₁ second).bind fun flow w₂ order₂ follows₂ fits => ?_
      cases flow with
      -- Going round is another run of the whole statement, which stands where it did.
      | normal => exact ih.execute order₂ (ready.mono follows₂)
      | returned u => exact .pure order₂ fits
    · rw [if_neg truthy]
      exact .pure order₁ (ready.behind keeps)
  | .declareFunction ⟨name, params, body⟩ =>
    have sound := ready.sound.child 0 proper.2
    -- The closure is made first and links to the environment in which its name is bound afterwards.
    have outline := outline_declared name false (Keeps.pure ()) before
    have keeps := function_keeps ⟨.function, place.receiver⟩ ⟨name, params, body⟩
      (define name (declare name false before).2).2
    refine (Safe.newClosure order₀ sound rfl).bind fun f w₁ order₁ follows₁ made => ?_
    rw [← follows₁.current] at made
    exact declares_safe order₁ (ready.mono follows₁) proper.1 outline keeps fun w₂ follows₂ stands =>
      (made.mono follows₂.grows).fits stands.chain stands.receives
  | .returns keyword none => exact .pure order₀ trivial
  | .returns keyword (some value) =>
    have keeps := ((checkReturn_keeps place.body keyword before).trans
      (checkReturnValue_keeps place.body keyword _)).outline
    exact (ih.evaluate order₀ (ready.sub 0 proper keeps rfl rfl)).bind
      fun v w₁ order₁ follows₁ fits => .pure order₁ fits
  | .declareClass name ms ss =>
    have outline := outline_declared name false (Keeps.pure ()) before
    have keeps := scoped_keeps [⟨"this", name.line, true, false, false⟩]
      ((methods_keeps ms).grows.bind fun _ => (statics_keeps ss).grows)
      (define name (declare name false before).2).2
    have inner := (methods_keeps ms (Site.openClass name before).2).outline
    refine (Safe.newClass (Site.innermost (statics ss) (methods ms (Site.openClass name before).2).2)
      rfl order₀ ready.sound (ready.current_lt order₀)).bind
      fun made w₁ order₁ follows₁ ⟨methodsMade, e, link, known, staticsMade⟩ => ?_
    rw [← follows₁.current] at methodsMade link
    refine declares_safe order₁ (ready.mono follows₁) proper.1 outline keeps
      fun w₂ follows₂ stands => ⟨fun f mem => ?_, fun f mem => ?_⟩
    · exact ((methodsMade f mem).mono follows₂.grows).methodFits (Site.openClass_outline _ _) rfl
        stands.chain
    · refine ((staticsMade f mem).mono follows₂.grows).fits ?_ (fun object => by cases object)
      show Chain _ _ e (methods ms (Site.openClass name before).2).2.outline _
      rw [inner, Site.openClass_outline]
      refine ⟨follows₂.grows.scopes _ _ known, fun x found ne => ?_, _,
        follows₂.grows.outer _ _ link, stands.chain⟩
      -- The scope has nothing but `this`.
      simp only [Bindings.find?] at found
      split at found
      · rename_i same
        exact (ne same.symm).elim
      · cases found

theorem executeAll_safe (ih : SafeAll ran limit n) {ss : List Stmt} {place : Surroundings}
    {before : Resolution} {closing : List Locals} (order : InOrder ran w)
    (ready : Ready ran w ⟨.statements ss, place, before, closing⟩) :
    Safe ran w
      (Watched.executeAll limit (n + 1) ⟨.statements ss, place, before, closing⟩
        (Resolve.statements place ss before).1)
      fun flow w' => FlowFits ran ⟨.statements ss, place, before, closing⟩ w' flow := by
  have proper := ready.sound.proper
  cases ss with
  | nil => exact .pure order (ready.behind rfl)
  | cons s ss =>
    refine (ih.execute order (ready.sub 0 proper.1 rfl rfl rfl)).bind
      fun flow w₁ order₁ follows₁ fits => ?_
    cases flow with
    | normal =>
      have rest := ready.sound.child 1 proper.2
      exact (ih.executeAll order₁ ⟨rest, fits.chain, fits.receives⟩).weaken
        fun flow w₂ _ _ fits => fits.last rfl rfl rfl
    | returned v => exact .pure order₁ fits

/-- While its initializer runs a variable is bound by the walk, but counts as incomplete. -/
theorem Stands.declaring {e : Nat} {p q : Site} {name : Token} (h : Stands w e p)
    (isName : name.IsName)
    (outline : q.before.outline = (declare name true p.before).2.outline)
    (closing : q.closing = p.closing) (receiver : q.place.receiver = p.place.receiver) :
    Stands w e q := by
  rw [outline_declare] at outline
  cases around : p.before.outline with
  | nil =>
    rw [around] at outline
    have same : q.before.outline = p.before.outline := outline.trans around.symm
    exact ⟨by rw [same, closing]; exact h.chain,
      fun object => by rw [same]; exact h.receives (receiver ▸ object)⟩
  | cons s ss =>
    rw [around] at outline
    refine h.update (by rw [outline, around]; rfl) (by rw [outline, around]; rfl)
      (fun x _ found => .inl ?_) ?_ closing receiver
    · rw [Resolution.top, outline, List.headD_cons, find?_declareIn] at found
      rw [Resolution.top, around]
      split at found
      · cases found
      · exact found
    · rw [Resolution.top, Resolution.top, outline, around, List.headD_cons, List.headD_cons,
        Bindings.binds, find?_declareIn, if_neg (isName.lexeme_ne .this)]
      rfl

theorem define_safe (ih : SafeAll ran limit n) {d : Declarator} {ds : List Declarator}
    {place : Surroundings} {before : Resolution} {closing : List Locals} {v : Value}
    (order : InOrder ran w) (ready : Ready ran w ⟨.declarators (d :: ds), place, before, closing⟩)
    (outline : (declarator place d before).2.outline = introduce d.name.lexeme before.outline)
    (isName : d.name.IsName) (fits : ValueFits ran w v) :
    Safe ran w
      (Watched.lift (Run.define d.name.lexeme v) >>= fun _ => Watched.declareAll limit n
        ⟨.declarators ds, place, (declarator place d before).2, closing⟩
        (Resolve.declarators place ds (declarator place d before).2).1)
      fun flow w' => FlowFits ran ⟨.declarators (d :: ds), place, before, closing⟩ w' flow := by
  have sound : Site.Sound ran ⟨.declarators ds, place, (declarator place d before).2, closing⟩ := by
    have child := ready.sound.child 1
    obtain ⟨name, _ | initial⟩ := d <;> exact child ready.sound.proper.2
  have closes := ready.closes order (introduced_top outline (declarators_grows place ds _))
  refine (Safe.define (Q := fun _ w' => Stands w' w'.machine.current
      ⟨.declarators ds, place, (declarator place d before).2, closing⟩) order
    (ready.current_lt order) closes (fun w₁ follows₁ _ => fits.mono follows₁.grows)
    fun w₁ _ follows₁ bound => ?_).bind fun _ w₁ order₁ _ stands => ?_
  · exact (ready.mono follows₁).stands.declared isName bound outline rfl rfl
  · exact (ih.declareAll order₁ ⟨sound, stands⟩).weaken
      fun flow w₂ _ _ fits => fits.last rfl rfl rfl

theorem declareAll_safe (ih : SafeAll ran limit n) {ds : List Declarator} {place : Surroundings}
    {before : Resolution} {closing : List Locals} (order : InOrder ran w)
    (ready : Ready ran w ⟨.declarators ds, place, before, closing⟩) :
    Safe ran w
      (Watched.declareAll limit (n + 1) ⟨.declarators ds, place, before, closing⟩
        (Resolve.declarators place ds before).1)
      fun flow w' => FlowFits ran ⟨.declarators ds, place, before, closing⟩ w' flow := by
  have proper := ready.sound.proper
  match ds with
  | [] => exact .pure order (ready.behind rfl)
  | ⟨name, none⟩ :: ds =>
    have outline := outline_declared name true (Keeps.pure ()) before
    exact (Safe.pure (Q := fun v w' => v = Value.nil) order rfl).bind
      fun v w₁ order₁ follows₁ same =>
        define_safe ih order₁ (ready.mono follows₁) outline proper.1 (same ▸ trivial)
  | ⟨name, some initial⟩ :: ds =>
    have outline := outline_declared name true (expression_keeps place initial) before
    have sound := ready.sound.child 0 proper.1.2
    have stands := ready.stands.declaring (q := Site.child
      ⟨.declarators (⟨name, some initial⟩ :: ds), place, before, closing⟩ 0) proper.1.1 rfl rfl rfl
    exact (ih.evaluate order ⟨sound, stands⟩).bind fun v w₁ order₁ follows₁ fits =>
      define_safe ih order₁ (ready.mono follows₁) outline proper.1.1 fits

/-! Calls -/

theorem declareParams_names {x : String} : ∀ (params : List Token) (r : Resolution),
    r.outline ≠ [] → ((((declareParams params r).2.top.find? x).isSome ↔
      (∃ t ∈ params, t.lexeme = x) ∨ (r.top.find? x).isSome))
  | [], r, _ => by
    show (r.top.find? x).isSome ↔ _
    simp
  | p :: ps, r, open_ => by
    have outline : (define p (declare p false r).2).2.outline = introduce p.lexeme r.outline :=
      outline_declared p false (Keeps.pure ()) r
    have still : (define p (declare p false r).2).2.outline ≠ [] := by
      intro none
      have length := congrArg List.length (outline.symm.trans none)
      rw [length_introduce] at length
      exact open_ (List.eq_nil_of_length_eq_zero length)
    have found := find?_introduce p.lexeme x open_
    rw [← outline] at found
    show ((declareParams ps (define p (declare p false r).2).2).2.top.find? x).isSome ↔ _
    rw [declareParams_names ps _ still, Resolution.top, found]
    by_cases same : p.lexeme = x
    · simp [same]
    · simp [same, Resolution.top]

/-- The body of a function runs in an instance of its scope, where all parameters are bound. -/
theorem callFunction_safe (ih : SafeAll ran limit n) {f : Closure} {arguments : List Value}
    (order : InOrder ran w) (fits : FunctionFits ran w f)
    (allFit : ∀ v ∈ arguments, ValueFits ran w v) (arity : arguments.length = f.arity) :
    Safe ran w (Watched.call limit (n + 1) (.function f) arguments)
      fun v w' => ValueFits ran w' v := by
  obtain ⟨⟨_, place, before, closing⟩, origin, stands⟩ := fits
  obtain ⟨⟨name, params, body⟩, part, resolved⟩ := origin.code
  cases part
  let site : Site := ⟨.function ⟨name, params, body⟩, place, before, closing⟩
  have proper := origin.sound.proper
  have sound : (site.child 0).Sound ran := origin.sound.child 0 proper.2
  have code : f.code = ⟨name, params,
      (Resolve.statements place body (Site.openBody params before).2).1⟩ := resolved.symm
  have names (x : String) : ((Site.openBody params before).2.top.find? x).isSome ↔
      ∃ t ∈ params, t.lexeme = x := by
    have names := declareParams_names (x := x) params (openScope [] before).2 (List.cons_ne_nil _ _)
    have fresh : (openScope [] before).2.top.find? x = none := rfl
    exact names.trans (by simp [fresh])
  have bound {x : String} (param : ∃ t ∈ params, t.lexeme = x) :
      ((Run.bindParams params arguments).find? x).isSome :=
    bound_bindParams params arguments [] (by rw [arity, Closure.arity, code]) (.inl param)
  -- The site that a watched call looks up is the one that the closure comes from.
  refine Safe.bind (Q := fun q w' => q = some site ∧ w' = w)
    (.step w rfl order (.refl w) ⟨origin.known, rfl⟩) fun q w' _ _ same => ?_
  obtain ⟨rfl, rfl⟩ := same
  rw [code]
  refine .newEnvironment order
    (Site.innermost (Resolve.statements place body) (Site.openBody params before).2)
    (stands.chain.lt_size order) (fun x v found => ?_) (fun x found => ?_)
    fun e w₁ order₁ follows₁ link known here => ?_
  · rcases of_find?_bindParams params arguments [] found with ⟨_, given⟩ | found
    · exact allFit v given
    · cases found
  · obtain ⟨v, found⟩ := Option.isSome_iff_exists.mp found
    rcases of_find?_bindParams params arguments [] found with ⟨param, _⟩ | found
    · exact sound.closes x ((statements_grows place body _).names x ((names x).mpr param))
    · cases found
  · refine Safe.bind (Q := fun flow w' => ValueFits ran w' flow.value)
      (.within order₁ fun w₂ order₂ grows₂ there => ?_) fun flow w₃ order₃ _ fits => ?_
    · obtain ⟨s, outline, _⟩ := Site.openBody_outline params before
      have top : (Site.openBody params before).2.top = s := by
        rw [Resolution.top, outline, List.headD_cons]
      -- The new environment is an instance of the scope of the body, in which only the parameters are bound.
      have inside : Ready ran w₂ (site.child 0) := ⟨sound, by
        rw [there]
        refine ((stands.mono follows₁.grows).mono grows₂).enter (grows₂.outer _ _ link)
          (grows₂.scopes _ _ known) outline rfl rfl (fun x found => ?_) ?_
        · have param := (names x).mp (by rw [top, found]; rfl)
          exact grows₂.bound _ _ (by rw [here]; exact bound param)
        · rw [← Bool.not_eq_true, ← top]
          intro this
          obtain ⟨t, mem, same⟩ := (names _).mp this
          exact (proper.1.2 t mem).lexeme_ne .this same⟩
      refine (ih.executeAll order₂ inside).weaken fun flow w₃ _ _ fits w₄ grows₄ _ => ?_
      cases flow with
      | normal => trivial
      | returned v => exact ValueFits.mono grows₄ fits
    · split
      · exact .receiver order₃
      · exact .pure order₃ fits

theorem call_safe (ih : SafeAll ran limit n) {c : Callable} {arguments : List Value}
    (order : InOrder ran w) (fits : ValueFits ran w (.callable c))
    (allFit : ∀ v ∈ arguments, ValueFits ran w v) (arity : arguments.length = c.arity) :
    Safe ran w (Watched.call limit (n + 1) c arguments) fun v w' => ValueFits ran w' v := by
  match c with
  | .function f => exact callFunction_safe ih order fits allFit arity
  | .native .clock =>
    show Safe ran w (Watched.lift (Run.readClock >>= fun x => pure (Value.number x))) _
    rw [Watched.lift_bind]
    exact (Safe.still (Q := fun _ _ => True) order .readClock
      fun _ _ _ _ => trivial).bind fun _ w₁ order₁ _ _ => .pure order₁ trivial
  | .native .print =>
    show Safe ran w (Watched.lift (Run.printAll arguments >>= fun _ => pure Value.nil)) _
    rw [Watched.lift_bind]
    exact (Safe.still (Q := fun _ _ => True) order (.printAll arguments)
      fun _ _ _ _ => trivial).bind fun _ w₁ order₁ _ _ => .pure order₁ trivial
  | .ofClass c =>
    have classFits : ClassFits ran w c := fits
    refine (Safe.newInstance (Q := fun _ _ => True) order fun _ _ _ _ => trivial).bind
      fun id w₁ order₁ follows₁ _ => ?_
    have object : ValueFits ran w₁ (.object id c) := classFits.mono follows₁.grows
    cases method : c.method? Class.initializerName with
    | none => exact .pure order₁ object
    | some f =>
      have methodFits := (classFits.1 f (Closure.mem_of_lastNamed? method)).mono follows₁.grows
      refine (Safe.bindThis order₁ methodFits object).bind
        fun g w₂ order₂ follows₂ ⟨functionFits, code⟩ => ?_
      have same : arguments.length = (Callable.function g).arity := by
        rw [arity]
        show c.arity = g.code.params.length
        rw [code, Class.arity, method]
        rfl
      have given := fun v mem => (allFit v mem).mono (follows₁.trans follows₂).grows
      have functionFits : ValueFits ran w₂ (.callable (.function g)) := functionFits
      exact (ih.call order₂ functionFits given same).bind
        fun _ w₃ order₃ follows₃ _ => .pure order₃ (object.mono (follows₂.trans follows₃).grows)

/-- Whatever runs leaves the world in order. -/
theorem safeAll (accepted : ∀ program ∈ ran, (Resolution.ofProgram program).2.errors = [])
    (limit : Option Nat) : ∀ n, SafeAll ran limit n
  | 0 => ⟨fun order _ => .starved order, fun order _ => .starved order, fun order _ => .starved order,
      fun order _ => .starved order, fun order _ => .starved order,
      fun order _ _ _ => .starved order⟩
  | n + 1 =>
    have ih := safeAll accepted limit n
    ⟨evaluate_safe accepted ih, evaluateAll_safe ih, execute_safe ih, executeAll_safe ih,
      declareAll_safe ih, call_safe ih⟩

end

end LoxLang
