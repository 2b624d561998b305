import LoxLang.Proofs.Receivers.Sessions
/-!
Methods keep their receivers. A method that is read from an instance becomes a function with an
environment of its own, which binds `this` to the instance and nothing else, from then on and for the
rest of the session.

What is proved: wherever such a function is called, in whatever state, each `this` that belongs to the
method comes to the instance; an initializer that is called returns it; and a class that is called
returns an instance that there was not before (`Session.receivers_kept`).
-/
namespace LoxLang

variable {limit : Option Nat} {n : Nat} {m m' : Machine} {α β : Type}

/-- There is an instance of the number, or something is bound to one or has one in a field. -/
def Machine.Knows (m : Machine) (i : Nat) : Prop :=
  i < m.instances.size ∨ ∃ c, (∃ e x, m.environments.findHere? e x = some (.object i c)) ∨
    ∃ j x, (m.fields j).find? x = some (.object i c)

/-- In a faithful machine nothing refers to an instance that there is not. -/
theorem Machine.Faithful.lt_of_knows (h : m.Faithful) {i : Nat} (knows : m.Knows i) :
    i < m.instances.size := by
  rcases knows with lt | ⟨c, ⟨e, x, bound⟩ | ⟨j, x, field⟩⟩
  · exact lt
  · exact (h.bound e x _ bound).1
  · exact (h.field j x _ field).1

/-! Reading methods -/

theorem Closure.name_of_lastNamed? {x : String} {fs : List Closure} {f : Closure}
    (h : lastNamed? x fs = some f) : f.name = x :=
  eq_of_beq (List.find?_some (p := fun f : Closure => f.name == x) h)

namespace Run

/-- If two runs one after the other give a value, the first of them gave one. -/
theorem ok_of_bind {r : Run α} {next : α → Run β} {b : β} (ok : (r >>= next) m = .ok b m') :
    ∃ a m₁, r m = .ok a m₁ ∧ next a m₁ = .ok b m' := by
  rw [bind_apply] at ok
  cases eq : r m with
  | ok a m₁ =>
    rw [eq] at ok
    exact ⟨a, m₁, rfl, ok⟩
  | fail f m₁ =>
    rw [eq] at ok
    cases ok
  | starved =>
    rw [eq] at ok
    cases ok

theorem of_bindThis {f g : Closure} {v : Value} (bound : bindThis f v m = .ok g m') :
    m'.BindsThis g.scope v ∧ g.code = f.code ∧ g.initializer = f.initializer := by
  cases bound
  exact ⟨m.bindsThis_push (some f.scope) v, rfl, rfl⟩

/-- A method gets the instance it is read from: one more environment binds `this` to it. -/
theorem property_of_method {i : Nat} {c : Class} {name : Token} {method : Closure}
    (unset : (m.fields i).find? name.lexeme = none) (found : c.method? name.lexeme = some method) :
    property i c name m = .ok
      (.callable (.function { method with id := m.nextId, scope := m.environments.size }))
      { m with
        environments := m.environments.push (some method.scope) [("this", .object i c)]
        nextId := m.nextId + 1 } := by
  unfold property
  rw [bind_apply, field?, unset]
  dsimp only
  rw [found]
  rfl

/-- Evaluating a property of an instance, from what is evaluated in front of the point. -/
theorem evaluate_property {object : Expr} {name : Token} {i : Nat} {c : Class} {method : Closure}
    (evaluated : evaluate limit n object m = .ok (.object i c) m')
    (unset : (m'.fields i).find? name.lexeme = none) (found : c.method? name.lexeme = some method) :
    evaluate limit (n + 1) (.property object name) m = .ok
      (.callable (.function { method with id := m'.nextId, scope := m'.environments.size }))
      { m' with
        environments := m'.environments.push (some method.scope) [("this", .object i c)]
        nextId := m'.nextId + 1 } := by
  show (evaluate limit n object >>= fun v => member v name) m = _
  rw [bind_apply, evaluated]
  exact property_of_method unset found

end Run

/-! Calls -/

namespace Run

theorem beforeCall_keeps (limit : Option Nat) (n : Nat) {callee : Expr} {paren : Token}
    {arguments : List Expr} (h : m.Faithful)
    (clean : Keyword.this.word ∉ (Expr.call callee paren arguments).names) :
    Keeps m (beforeCall limit n callee arguments) fun r m' =>
      r.1.Faithful m' ∧ ∀ u ∈ r.2, u.Faithful m' := by
  rw [Expr.names, List.mem_append, not_or] at clean
  apply ((keepsAll limit n).evaluate callee h clean.1).bind
  intro v m₁ h₁ _ faithful
  apply ((keepsAll limit n).evaluateAll arguments h₁ clean.2).bind
  intro vs m₂ h₂ later given
  exact .pure h₂ ⟨faithful.mono later, given⟩

variable {callee : Expr} {paren : Token} {arguments : List Expr} {c : Callable} {vs : List Value}
  {v : Value} {m₁ m₂ : Machine} {k : Nat}

/-- A call that ends with a value calls what was evaluated before it, one call deeper. -/
theorem call_of_evaluate (ready : beforeCall limit n callee arguments m = .ok (.callable c, vs) m₁)
    (ok : evaluate limit k (.call callee paren arguments) m = .ok v m₂) :
    ∃ j m₃, call limit j c vs { m₁ with callDepth := m₁.callDepth + 1 } = .ok v m₃ ∧
      m₃.SameHeap m₂ := by
  cases k with
  | zero => cases ok
  | succ j =>
    obtain ⟨u, m₃, first, ok⟩ := ok_of_bind ok
    obtain ⟨us, m₄, second, ok⟩ := ok_of_bind ok
    have ready' : beforeCall limit j callee arguments m = .ok (u, us) m₄ := by
      unfold beforeCall
      rw [bind_apply, first]
      dsimp only
      rw [bind_apply, second]
      rfl
    -- The call was evaluated to some depth, and what is in front of it to another.
    have same := beforeCall_unique (n := j) (a := m₄) (k := n) (b := m₁) (by rw [ready']; rfl)
      (by rw [ready]; rfl)
    rw [ready', ready] at same
    cases same
    dsimp only at ok
    split at ok
    · unfold asCall at ok
      split at ok
      · cases ok
      · cases called : call limit j c vs { m₁ with callDepth := m₁.callDepth + 1 } with
        | ok w m₅ =>
          rw [called] at ok
          cases ok
          exact ⟨j, m₅, called, rfl, rfl⟩
        | fail e m₅ =>
          rw [called] at ok
          cases ok
        | starved =>
          rw [called] at ok
          cases ok
    · cases ok

theorem state?_bind_of_still {r : Run α} {next : α → Run β}
    (still : ∀ a m, (next a m).state? = some m) (m : Machine) :
    ((r >>= next) m).state? = (r m).state? := by
  rw [bind_apply]
  cases r m with
  | ok a m' => exact still a m'
  | fail e m' => rfl
  | starved => rfl

/-- A function runs its body in a new environment right inside its own, and ends as the body does. -/
theorem call_function (limit : Option Nat) (j : Nat) {f : Closure} (vs : List Value)
    (exists_ : f.scope < m.environments.size) : ∃ a : Machine, m.Before a ∧
      a.environments.ancestor? a.current 1 = some f.scope ∧
      (call limit (j + 1) (.function f) vs m).state? =
        (executeAll limit j f.code.body a).state?.map fun b => { b with current := m.current } := by
  let bindings := bindParams f.code.params vs
  let a : Machine :=
    { m with
      environments := m.environments.push (some f.scope) bindings
      current := m.environments.size }
  have link : a.environments.outer? a.current = some f.scope :=
    Forest.outer?_push_size m.environments exists_ bindings
  refine ⟨a, (Machine.Before.push (some f.scope) bindings).trans (.of_eq rfl rfl), ?_, ?_⟩
  · rw [Forest.ancestor?, link]
    rfl
  · show ((within m.environments.size (executeAll limit j f.code.body) >>= fun flow =>
      if f.initializer then receiver f.scope else pure flow.value)
        { m with environments := m.environments.push (some f.scope) bindings }).state? = _
    rw [state?_bind_of_still, state?_within]
    intro flow m'
    split <;> rfl

/-- A call of an initializer comes to what its environment binds `this` to, whatever the body returns. -/
theorem value_of_initializer {f : Closure} {j : Nat} (initializer : f.initializer = true)
    (h : m.Faithful) (faithful : f.Faithful m) (given : ∀ u ∈ vs, u.Faithful m) {receiver : Value}
    (binds : m.BindsThis f.scope receiver)
    (called : call limit j (.function f) vs m = .ok v m') : v = receiver := by
  have callee : (Value.callable (.function f)).Faithful m := faithful
  have later := (((keepsAll limit j).call h callee given).ok called).2.1
  cases j with
  | zero => cases called
  | succ j =>
    obtain ⟨scope, m₁, _, called⟩ := ok_of_bind called
    obtain ⟨flow, m₂, _, called⟩ := ok_of_bind called
    rw [if_pos initializer] at called
    cases called
    exact congrArg (Option.getD · .nil) (later.keeps binds).found

/-- A call of a class comes to the instance that it makes first. The initializer, if there is one, is
called with it, and returns it. -/
theorem call_class {c : Class} {j : Nat} (h : m.Faithful) (faithful : c.Faithful)
    (given : ∀ u ∈ vs, u.Faithful m) (called : call limit j (.ofClass c) vs m = .ok v m') :
    v = .object m.instances.size c ∧
      ∀ method, c.method? Class.initializerName = some method → ∃ f k m₁,
        f.code = method.code ∧ m.Before m₁ ∧ m₁.Before m' ∧ m₁.BindsThis f.scope v ∧
          call limit k (.function f) vs m₁ = .ok v m' := by
  cases j with
  | zero => cases called
  | succ j =>
    obtain ⟨i, m₁, made, called⟩ := ok_of_bind called
    obtain ⟨h₁, later, lt⟩ := (newInstance_keeps h).ok made
    obtain rfl : m.instances.size = i := by
      cases made
      rfl
    cases method : c.method? Class.initializerName with
    | none =>
      rw [method] at called
      cases called
      exact ⟨rfl, nofun⟩
    | some f =>
      rw [method] at called
      obtain ⟨g, m₂, bound, called⟩ := ok_of_bind called
      obtain ⟨w, m₃, called, value⟩ := ok_of_bind called
      cases value
      refine ⟨rfl, fun f' same => ?_⟩
      cases same
      -- The method is an initializer by its name, and is bound to the instance before it is called.
      obtain ⟨clean, initializer⟩ := faithful.methods f (Closure.mem_of_lastNamed? method)
      rw [Closure.name_of_lastNamed? method] at initializer
      obtain ⟨h₂, later₂, own⟩ := (bindThis_keeps h₁ clean ⟨lt, faithful⟩).ok bound
      have own : (Value.callable (.function g)).Faithful m₂ := own
      have given : ∀ u ∈ vs, u.Faithful m₂ := fun u mem => (given u mem).mono (later.trans later₂)
      have later₃ := (((keepsAll limit j).call h₂ own given).ok called).2.1
      obtain ⟨binds, code, still⟩ := of_bindThis bound
      obtain rfl := value_of_initializer (still.trans initializer) h₂ own given binds called
      exact ⟨g, j, m₂, code, later.trans later₂, later₃, binds, called⟩

end Run

/-! Occurrences of `this` -/

/-- The walk makes an occurrence of `this` of nothing else. -/
theorem Site.part_of_resolved_this {p : Site} {keyword : Token} {depth : Option Nat}
    (resolved : p.resolved = .expression (.this keyword depth)) :
    ∃ depth', p.part = .expression (.this keyword depth') := by
  obtain ⟨part, place, before, closing⟩ := p
  cases part with
  | expression e =>
    cases e with
    | this keyword' depth' =>
      obtain ⟨body, receiver⟩ := place
      cases receiver <;> cases resolved <;> exact ⟨_, rfl⟩
    | «variable» name depth' =>
      rw [resolved_of_variable rfl] at resolved
      cases resolved
    | _ => cases resolved
  | _ => cases resolved

theorem Forest.ancestor?_none {f : Forest α} : ∀ {d k e : Nat}, d ≤ k →
    f.ancestor? e d = none → f.ancestor? e k = none
  | 0, _, _, _, nowhere => by cases nowhere
  | d + 1, 0, _, le, _ => absurd le (Nat.not_succ_le_zero d)
  | d + 1, k + 1, e, le, nowhere => by
    unfold ancestor? at nowhere ⊢
    cases link : f.outer? e with
    | none => rfl
    | some p =>
      rw [link] at nowhere
      exact ancestor?_none (Nat.le_of_succ_le_succ le) nowhere

theorem Forest.ancestor?_le {f : Forest α} : ∀ {d e a : Nat}, f.ancestor? e d = some a → a ≤ e
  | 0, _, _, found => by
    cases found
    exact Nat.le_refl _
  | d + 1, e, a, found => by
    unfold ancestor? at found
    cases link : f.outer? e with
    | none =>
      rw [link] at found
      cases found
    | some p =>
      rw [link] at found
      exact Nat.le_trans (ancestor?_le found) (Nat.le_of_lt (outer?_lt link))

theorem Site.Within.exists_way {program : List Stmt} {p : Site} (h : Site.Within program p) :
    ∃ way, p = siteAt program way := by
  induction h with
  | root => exact ⟨[], rfl⟩
  | child i _ ih =>
    obtain ⟨way, rfl⟩ := ih
    exact ⟨i :: way, rfl⟩

/-- Where the walk leads from one of the environments around an occurrence of `this`: to a body of a
class, if the environment binds `this`. -/
theorem Matches.ofClass {program : List Stmt} {way : List Nat} (proper : Stmt.AllProper program)
    (matched : Matches (siteAt program way) m) (faithful : m.Faithful) {d e : Nat} {v : Value}
    (ancestor : m.environments.ancestor? m.current d = some e) (binds : m.BindsThis e v) :
    ∃ s, (scopesAt program way)[d]? = some s ∧ s.ofClass = true := by
  have inside : d < (siteAt program way).before.scopes.length := by
    rcases Nat.lt_trichotomy d (siteAt program way).before.scopes.length with lt | same | gt
    · exact lt
    -- The globals come after the scopes, and do not bind `this`.
    · have globals := matched.globals
      rw [← same, ancestor] at globals
      cases globals
      have found := faithful.globals
      rw [binds.found] at found
      cases found
    · rw [Forest.ancestor?_none gt matched.ends] at ancestor
      cases ancestor
  obtain ⟨e', c, here, closing, closes⟩ := matched.scope d inside
  rw [ancestor] at here
  cases here
  have bound := closes Keyword.this.word (by rw [binds.found]; rfl)
  exact ofClass_of_closing proper way closing bound

/-- In a program without faults an occurrence of `this` has the position of the innermost body of a class
around it. -/
theorem depth_of_this {program : List Stmt} {way : List Nat} {keyword : Token} {depth : Option Nat}
    (proper : Stmt.AllProper program) (accepted : (Resolution.ofProgram program).2.errors = [])
    (resolved : (siteAt program way).resolved = .expression (.this keyword depth)) :
    keyword.lexeme = Keyword.this.word ∧ depth = (scopesAt program way).findIdx? Scope.ofClass := by
  obtain ⟨depth', part⟩ := Site.part_of_resolved_this resolved
  have occurrence := proper_siteAt proper way
  rw [part] at occurrence
  obtain ⟨⟨_, word⟩, rfl⟩ := occurrence
  have unreported {e : ScopeError} : e ∉ (siteAt program way).after.errors := by
    rw [Site.errors_after accepted (within_siteAt program way)]
    exact List.not_mem_nil
  have this_ := Site.resolved_of_this part
  cases receiver : (siteAt program way).place.receiver with
  | object =>
    rw [receiver, resolved, word, distance?_siteAt proper, findIdx?_this proper] at this_
    cases this_
    exact ⟨word, rfl⟩
  | static =>
    rw [receiver] at this_
    exact absurd this_.2 unreported
  | none =>
    rw [receiver] at this_
    exact absurd this_.2 unreported

/-- An occurrence of `this` stands for what is bound in the environment that is come to outward before
any body of a class. -/
theorem evaluate_this_of_ancestor {program : List Stmt} {way : List Nat} {keyword : Token}
    {depth : Option Nat} (proper : Stmt.AllProper program)
    (accepted : (Resolution.ofProgram program).2.errors = [])
    (resolved : (siteAt program way).resolved = .expression (.this keyword depth))
    (matched : Matches (siteAt program way) m) (faithful : m.Faithful) {d e : Nat} {v : Value}
    (ancestor : m.environments.ancestor? m.current d = some e) (binds : m.BindsThis e v)
    (outside : ∀ s ∈ (scopesAt program way).take d, s.ofClass = false) :
    Run.evaluate limit (n + 1) (.this keyword depth) m = .ok v m := by
  obtain ⟨word, nearest⟩ := depth_of_this proper accepted resolved
  have here : (scopesAt program way).findIdx? Scope.ofClass = some d := by
    obtain ⟨s, found, ofClass⟩ := matched.ofClass proper faithful ancestor binds
    obtain ⟨lt, rfl⟩ := List.getElem?_eq_some_iff.mp found
    refine List.findIdx?_eq_some_iff_getElem.mpr ⟨lt, ofClass, fun j before => ?_⟩
    have mem : (scopesAt program way)[j] ∈ (scopesAt program way).take d :=
      List.mem_take_iff_getElem.mpr ⟨j, by omega, rfl⟩
    simp [outside _ mem]
  have found : m.environments.findAt? m.current d keyword.lexeme = some v := by
    rw [Forest.findAt?, ancestor, word]
    exact binds.found
  rw [nearest, here]
  show Run.lookUp keyword (some d) m = .ok v m
  unfold Run.lookUp
  dsimp only
  rw [found]

/-! Sessions -/

namespace Session

variable {s : Session} {g : Log} {ran : List (List Stmt)}

theorem Input.proper_of_mem {input : Input} {tree : List Stmt} (h : tree ∈ input.programs) :
    Stmt.AllProper tree :=
  proper_of_parsed (parsed_of_toOption (Option.mem_toList.mp (List.mem_of_mem_filter h)))

/-- Every program that ran is made by the parser and without faults. -/
theorem History.sound (h : History s g ran) (input : Input) :
    ∀ program ∈ input.programs ++ ran,
      Stmt.AllProper program ∧ (Resolution.ofProgram program).2.errors = [] := by
  have old : ∀ program ∈ ran, Stmt.AllProper program := by
    induction h with
    | initial => nofun
    | @step _ _ _ _ _ _ fuel input _ _ ih =>
      intro program mem
      rcases List.mem_append.mp mem with new | old
      · exact Input.proper_of_mem new
      · exact ih program old
    | drained _ _ _ ih => exact ih
  intro program mem
  rcases List.mem_append.mp mem with new | mem
  · exact ⟨Input.proper_of_mem new, Input.accepted_of_mem new⟩
  · exact ⟨old program mem, h.settled.2 program mem⟩

/-- What was watched keeps the receiver of a function. -/
structure KeepsReceiver (watched : Option (Status × Session) × Log) (programs : List (List Stmt))
    (f : Closure) (receiver : Value) : Prop where
  /-- As soon as there is the environment of the function, it binds `this` to the receiver and binds
  nothing else. -/
  bound : ∀ a, Passes (some maxCallDepth) watched.2.marks a → f.scope < a.environments.size →
    a.BindsThis f.scope receiver
  /-- So it does after the last step. -/
  kept : ∀ status s', watched.1 = some (status, s') → s'.machine.BindsThis f.scope receiver
  /-- In every such state, a call of the function runs its body right inside the environment. -/
  called : ∀ a, Passes (some maxCallDepth) watched.2.marks a → f.scope < a.environments.size →
    ∀ depth j vs, ∃ b : Machine, a.Before b ∧
      b.environments.ancestor? b.current 1 = some f.scope ∧
      (Run.call (some maxCallDepth) (j + 1) (.function f) vs { a with callDepth := depth }).state? =
        (Run.executeAll (some maxCallDepth) j f.code.body b).state?.map fun m =>
          { m with current := a.current }
  /-- In the body, and in the functions that are made there, `this` comes to the receiver: wherever
  outward from the run the environment is come to before the body of any class. -/
  occurrence : ∀ p keyword depth m, .reached p (.expression (.this keyword depth)) m ∈ watched.2.marks →
    ∃ program ∈ programs, ∃ way, p = siteAt program way ∧
      ∀ d, m.environments.ancestor? m.current d = some f.scope →
        (∀ s ∈ (scopesAt program way).take d, s.ofClass = false) →
          ∀ n, Run.evaluate (some maxCallDepth) (n + 1) (.this keyword depth) m = .ok receiver m
  /-- An initializer that is called returns the receiver. -/
  returned : f.initializer = true → ∀ p callee paren arguments m,
    .reached p (.expression (.call callee paren arguments)) m ∈ watched.2.marks →
      ∀ n k vs v m₁ m₂,
        Run.beforeCall (some maxCallDepth) n callee arguments m =
            .ok (.callable (.function f), vs) m₁ →
          Run.evaluate (some maxCallDepth) k (.call callee paren arguments) m = .ok v m₂ → v = receiver

/-- Every state that is told of is faithful. -/
theorem faithful_of_passes {marks : List Mark} (line : Timeline limit marks)
    (passes : Passes limit marks m) : m.Faithful := by
  obtain ⟨mark, mem, moment⟩ := passes
  obtain ⟨faithful, clean⟩ := line.faithful mark mem
  cases moment with
  | noted => exact faithful
  | ended ended =>
    exact (((Run.keepsAll limit _).evaluate _ faithful (clean _ _ _ rfl)).ended ended).1
  | called ended =>
    exact ((Run.beforeCall_keeps limit _ faithful (clean _ _ _ rfl)).ended ended).1

/-- The state before a call that is noted is told of. The call runs in one that differs in the depth of
calls only; that one is faithful, and so are what is called and what it is given. -/
theorem before_noted_call {marks : List Mark} (line : Timeline limit marks) {p : Site} {callee : Expr}
    {paren : Token} {arguments : List Expr}
    (mem : .reached p (.expression (.call callee paren arguments)) m ∈ marks) {u : Value}
    {vs : List Value} {m₁ : Machine}
    (ready : Run.beforeCall limit n callee arguments m = .ok (u, vs) m₁) :
    let inside : Machine := { m₁ with callDepth := m₁.callDepth + 1 }
    Passes limit marks m₁ ∧ m.Before m₁ ∧ m₁.Before inside ∧ inside.Faithful ∧ u.Faithful inside ∧
      ∀ w ∈ vs, w.Faithful inside := by
  intro inside
  obtain ⟨faithful, clean⟩ := line.faithful _ mem
  have moment : (Mark.reached p (.expression (.call callee paren arguments)) m).Moment limit m₁ :=
    .called (congrArg Outcome.state? ready)
  obtain ⟨faithful, later, own, given⟩ :=
    (Run.beforeCall_keeps limit n faithful (clean p _ m rfl)).ok ready
  have deeper : m₁.Before inside := .of_eq rfl rfl
  exact ⟨⟨_, mem, moment⟩, later, deeper, faithful.congr rfl rfl rfl, own.mono deeper,
    fun w mem => (given w mem).mono deeper⟩

/-- If the environment of a function binds `this` to an instance once, the function keeps it. -/
theorem History.keepsReceiver (h : History s g ran) (fuel : Nat) (input : Input) {f : Closure} {i : Nat}
    {c : Class} {a : Machine} (passes : Passes (some maxCallDepth) (input.watch fuel s g).2.marks a)
    (binds : a.BindsThis f.scope (.object i c)) :
    KeepsReceiver (input.watch fuel s g) (input.programs ++ ran) f (.object i c) := by
  obtain ⟨line, ends⟩ := Input.continues h.lined fuel input
  have bound : ∀ b, Passes (some maxCallDepth) (input.watch fuel s g).2.marks b →
      f.scope < b.environments.size → b.BindsThis f.scope (.object i c) :=
    fun b passes' lt => Machine.Before.agree (line.line a b passes passes') binds lt
  refine ⟨bound, fun status s' ended => ?_, fun b _ lt depth j vs => ?_,
    fun p keyword depth m mem => ?_,
    fun initializer p callee paren arguments m mem n k vs v m₁ m₂ ready ok => ?_⟩
  · exact ((ends status s' ended).before a passes).keeps binds
  · have deeper : b.Before { b with callDepth := depth } := .of_eq rfl rfl
    have exists_ : f.scope < { b with callDepth := depth }.environments.size := lt
    obtain ⟨inside, later, here, state⟩ := Run.call_function (some maxCallDepth) j vs exists_
    exact ⟨inside, deeper.trans later, here, state⟩
  · obtain ⟨⟨program, ran, within⟩, resolved, matched⟩ := h.fits fuel input _ mem
    obtain ⟨way, rfl⟩ := within.exists_way
    obtain ⟨proper, accepted⟩ := h.sound input program ran
    refine ⟨program, ran, way, rfl, fun d ancestor outside n => ?_⟩
    have faithful := (line.faithful _ mem).1
    -- Outward the numbers fall, so the environment is there already.
    have lt := Nat.lt_of_le_of_lt (Forest.ancestor?_le ancestor) faithful.exists_current
    exact evaluate_this_of_ancestor proper accepted resolved matched faithful ancestor
      (bound m ⟨_, mem, .noted _⟩ lt) outside
  · obtain ⟨passes₁, _, _, inside, own, given⟩ := before_noted_call line mem ready
    have own : f.Faithful _ := own
    obtain ⟨j, c', here⟩ := own.receiver initializer
    obtain ⟨k', m₃, called, _⟩ := Run.call_of_evaluate ready ok
    exact Run.value_of_initializer initializer inside own given (bound m₁ passes₁ here.lt_size) called

/-- In what was noted, an instance is known of only after a state. -/
def KnownAfter (marks : List Mark) (m : Machine) (i : Nat) : Prop :=
  ∀ a, Passes (some maxCallDepth) marks a → a.Knows i → m.Before a ∧ ¬ a.Before m

/-- Methods keep their receivers. Reading a method of an instance gives a function whose environment
binds `this` to the instance and nothing else, and that keeps its receiver in all that is run before
and after. A call of a class makes an instance that is not known of in any earlier state, and returns
it; the initializer, if there is one, is called with it as its receiver, and returns it too. -/
theorem receivers_kept (h : History s g ran) (fuel : Nat) (input : Input) :
    let watched := input.watch fuel s g
    let programs := input.programs ++ ran
    (∀ p object name m, .reached p (.expression (.property object name)) m ∈ watched.2.marks →
      ∀ n i c m₁ method, Run.evaluate (some maxCallDepth) n object m = .ok (.object i c) m₁ →
        (m₁.fields i).find? name.lexeme = none → c.method? name.lexeme = some method →
          ∃ f m₂, Run.evaluate (some maxCallDepth) (n + 1) (.property object name) m =
              .ok (.callable (.function f)) m₂ ∧
            f.code = method.code ∧ (name.lexeme = Class.initializerName → f.initializer = true) ∧
            f.scope = m₁.environments.size ∧ m₂.BindsThis f.scope (.object i c) ∧
            KeepsReceiver watched programs f (.object i c)) ∧
    ∀ p callee paren arguments m,
      .reached p (.expression (.call callee paren arguments)) m ∈ watched.2.marks →
        ∀ n k c vs v m₁ m₂,
          Run.beforeCall (some maxCallDepth) n callee arguments m =
              .ok (.callable (.ofClass c), vs) m₁ →
            Run.evaluate (some maxCallDepth) k (.call callee paren arguments) m = .ok v m₂ →
              v = .object m₁.instances.size c ∧
              KnownAfter watched.2.marks m₁ m₁.instances.size ∧
              (∀ later earlier, watched.2.marks =
                  later ++ .reached p (.expression (.call callee paren arguments)) m :: earlier →
                ∀ mark ∈ earlier, ¬ mark.state.Knows m₁.instances.size) ∧
              ∀ method, c.method? Class.initializerName = some method → ∃ f j m₃ m₄,
                f.code = method.code ∧ m₁.Before m₃ ∧ m₃.BindsThis f.scope v ∧
                  Run.call (some maxCallDepth) j (.function f) vs m₃ = .ok v m₄ ∧
                  m₄.SameHeap m₂ ∧ KeepsReceiver watched programs f v := by
  intro watched programs
  obtain ⟨line, _⟩ := Input.continues h.lined fuel input
  refine ⟨fun p object name m mem n i c m₁ method evaluated unset found => ?_,
    fun p callee paren arguments m mem n k c vs v m₁ m₂ ready ok => ?_⟩
  · have read := Run.evaluate_property evaluated unset found
    have moment := Mark.Moment.ended (p := p) (congrArg Outcome.state? read)
    have binds := m₁.bindsThis_push (some method.scope) (.object i c)
    refine ⟨_, _, read, rfl, fun named => ?_, rfl, binds,
      h.keepsReceiver fuel input ⟨_, mem, moment⟩ binds⟩
    obtain ⟨faithful, clean⟩ := line.faithful _ mem
    have clean := clean p (.property object name) m rfl
    -- Whether a method is an initializer was marked when its class was made, after its name.
    have evaluated := ((Run.keepsAll _ n).evaluate object faithful clean).ok evaluated
    have own := evaluated.2.2.2.methods method (Closure.mem_of_lastNamed? found)
    show method.initializer = true
    rw [own.2, Closure.name_of_lastNamed? found, named]
    rfl
  · obtain ⟨passes₁, later₁, deeper, inside, ofClass, given⟩ := before_noted_call line mem ready
    obtain ⟨j, m₃, called, same⟩ := Run.call_of_evaluate ready ok
    obtain ⟨value, initializers⟩ := Run.call_class inside ofClass given called
    have known : KnownAfter watched.2.marks m₁ m₁.instances.size := by
      intro a passes knows
      -- The number is the next one to be given: a state that comes before has no instance of it.
      have first : ¬ a.Before m₁ := by
        intro before
        have lt := (faithful_of_passes line passes).lt_of_knows knows
        exact absurd (Nat.lt_of_lt_of_le lt before.instances) (Nat.lt_irrefl _)
      exact ⟨(line.line a m₁ passes passes₁).resolve_left first, first⟩
    refine ⟨value, known, fun later earlier split mark here knows => ?_, fun method found => ?_⟩
    -- Whatever was noted before the call is a state that the call begins with or an earlier one.
    · have order := line.order
      rw [split, List.pairwise_append, List.pairwise_cons] at order
      have before : mark.state.Before m := order.2.1.1 mark here
      have mem' : mark ∈ watched.2.marks := by
        rw [split]
        exact List.mem_append_right later (List.mem_cons_of_mem _ here)
      exact (known mark.state ⟨mark, mem', .noted mark⟩ knows).2 (before.trans later₁)
    · obtain ⟨f, j', m₄, code, later, later', binds, call⟩ := initializers method found
      have moment := Mark.Moment.ended (p := p) (congrArg Outcome.state? ok)
      have there := (later'.trans same.before).keeps binds
      refine ⟨f, j', m₄, m₃, code, deeper.trans later, binds, call, same, ?_⟩
      rw [value] at there ⊢
      exact h.keepsReceiver fuel input ⟨_, mem, moment⟩ there

end Session

/-! A session with an initializer -/

namespace Mark

/-- The environment of the function that is made if a method is read at the mark. -/
def methodScope? : Mark → Option Nat
  | reached _ (.expression (.property object name)) m =>
    match Run.evaluate (some maxCallDepth) 40 object m with
    | .ok (.object i c) m₁ =>
      if (m₁.fields i).find? name.lexeme = none ∧ (c.method? name.lexeme).isSome then
        some m₁.environments.size
      else none
    | _ => none
  | _ => none

/-- Whether the mark is of a `this` that leads two environments outward, to this one. -/
def isThisIn (e : Nat) : Mark → Bool
  | reached _ (.expression (.this _ depth)) m =>
    decide (depth = some 2) && decide (m.environments.ancestor? m.current 2 = some e)
  | _ => false

/-- Whether the mark is of a call of a class with an initializer, of which there is no instance yet,
and no other instance. -/
def isFirstInstance : Mark → Bool
  | reached _ (.expression (.call callee paren arguments)) m =>
    match Run.beforeCall (some maxCallDepth) 40 callee arguments m,
        Run.evaluate (some maxCallDepth) 40 (.call callee paren arguments) m with
    | .ok (.callable (.ofClass c), _) m₁, .ok _ _ =>
      decide (m₁.instances.size = 0) && (c.method? Class.initializerName).isSome
    | _, _ => false
  | _ => false

theorem of_methodScope? {mark : Mark} {e : Nat} (h : mark.methodScope? = some e) :
    ∃ p object name m i c m₁ method, mark = reached p (.expression (.property object name)) m ∧
      Run.evaluate (some maxCallDepth) 40 object m = .ok (.object i c) m₁ ∧
      (m₁.fields i).find? name.lexeme = none ∧ c.method? name.lexeme = some method ∧
      m₁.environments.size = e := by
  unfold methodScope? at h
  split at h
  · rename_i p object name m
    split at h
    · rename_i i c m₁ evaluated
      split at h
      · rename_i both
        obtain ⟨method, found⟩ := Option.isSome_iff_exists.mp both.2
        cases h
        exact ⟨p, object, name, m, i, c, m₁, method, rfl, evaluated, both.1, found, rfl⟩
      · cases h
    · cases h
  · cases h

theorem of_isThisIn {mark : Mark} {e : Nat} (h : mark.isThisIn e = true) :
    ∃ p keyword m, mark = reached p (.expression (.this keyword (some 2))) m ∧
      m.environments.ancestor? m.current 2 = some e := by
  unfold isThisIn at h
  split at h
  · rename_i p keyword depth m
    rw [Bool.and_eq_true, decide_eq_true_eq, decide_eq_true_eq] at h
    obtain ⟨rfl, ancestor⟩ := h
    exact ⟨p, keyword, m, rfl, ancestor⟩
  · cases h

theorem of_isFirstInstance {mark : Mark} (h : mark.isFirstInstance = true) :
    ∃ p callee paren arguments m c vs v m₁ m₂ method,
      mark = reached p (.expression (.call callee paren arguments)) m ∧
      Run.beforeCall (some maxCallDepth) 40 callee arguments m =
        .ok (.callable (.ofClass c), vs) m₁ ∧
      Run.evaluate (some maxCallDepth) 40 (.call callee paren arguments) m = .ok v m₂ ∧
      m₁.instances.size = 0 ∧ c.method? Class.initializerName = some method := by
  unfold isFirstInstance at h
  split at h
  · rename_i p callee paren arguments m
    split at h
    · rename_i c vs m₁ v m₂ ready ok
      rw [Bool.and_eq_true, decide_eq_true_eq] at h
      obtain ⟨method, found⟩ := Option.isSome_iff_exists.mp h.2
      exact ⟨p, callee, paren, arguments, m, c, vs, v, m₁, m₂, method, rfl, ready, ok, h.1, found⟩
    · cases h
  · cases h

end Mark

namespace Session

/-- An initializer that is read from an instance, kept in a variable and called in a later line: `this`
in a lambda in its body comes to the instance. When the class was called, it was called with the
instance and returned it. -/
theorem receivers_kept_stored : ∃ s g,
    let marks := ((Input.line "f()").watch 40 s g).2.marks
    (∃ p keyword m i c, .reached p (.expression (.this keyword (some 2))) m ∈ marks ∧
      Run.evaluate (some maxCallDepth) 1 (.this keyword (some 2)) m = .ok (.object i c) m) ∧
    ∃ p callee paren arguments m m₁ c method f j vs m₂ m₃,
      .reached p (.expression (.call callee paren arguments)) m ∈ marks ∧
        Run.evaluate (some maxCallDepth) 40 (.call callee paren arguments) m =
          .ok (.object 0 c) m₁ ∧
        c.method? Class.initializerName = some method ∧ f.code = method.code ∧
        Run.call (some maxCallDepth) j (.function f) vs m₂ = .ok (.object 0 c) m₃ := by
  let make : Input := .program "class C{init(){(lambda()this)();}}var f=C().init;"
  let start := Session.initial .unlimited .unlimited fun _ => 0
  let made := make.watch 40 start Log.empty
  have ends : made.1.any (fun r =>
      let marks := ((Input.line "f()").watch 40 r.2 made.2).2.marks
      marks.any (fun mark => mark.methodScope?.any fun e => marks.any (Mark.isThisIn e)) &&
        marks.any Mark.isFirstInstance) = true := by
    decide +kernel
  obtain ⟨⟨status, s⟩, ended, checks⟩ := (Option.any_eq_true _ _).mp ends
  rw [Bool.and_eq_true, List.any_eq_true, List.any_eq_true] at checks
  obtain ⟨⟨mark, mem, reads⟩, made', mem', calls⟩ := checks
  have history : History s made.2 (make.programs ++ []) :=
    .step 40 make (.initial .unlimited .unlimited fun _ => 0) (Prod.ext ended rfl)
  obtain ⟨reading, calling⟩ := receivers_kept history 40 (.line "f()")
  refine ⟨s, made.2, ?_, ?_⟩
  · obtain ⟨e, read, occurs⟩ := (Option.any_eq_true _ _).mp reads
    obtain ⟨p, object, name, m, i, c, m₁, method, rfl, evaluated, unset, found, rfl⟩ :=
      Mark.of_methodScope? read
    obtain ⟨f, _, _, _, _, scope, _, keeps⟩ :=
      reading p object name m mem 40 i c m₁ method evaluated unset found
    obtain ⟨mark', mem', occurs⟩ := List.any_eq_true.mp occurs
    obtain ⟨p', keyword, m', rfl, ancestor⟩ := Mark.of_isThisIn occurs
    obtain ⟨program, ran, way, rfl, this_⟩ := keeps.occurrence p' keyword (some 2) m' mem'
    refine ⟨_, keyword, m', i, c, mem', this_ 2 (scope ▸ ancestor) ?_ 0⟩
    obtain ⟨_, resolved, _⟩ := history.fits 40 (.line "f()") _ mem'
    obtain ⟨proper, accepted⟩ := history.sound (.line "f()") program ran
    have nearest := (depth_of_this proper accepted resolved).2
    obtain ⟨_, _, before⟩ := List.findIdx?_eq_some_iff_getElem.mp nearest.symm
    intro s mem
    obtain ⟨j, lt, rfl⟩ := List.mem_take_iff_getElem.mp mem
    exact Bool.eq_false_iff.mpr (before j (Nat.lt_of_lt_of_le lt (Nat.min_le_left ..)))
  · obtain ⟨p, callee, paren, arguments, m, c, vs, v, m₁, m₂, method, rfl, ready, ok, first, found⟩ :=
      Mark.of_isFirstInstance calls
    obtain ⟨rfl, _, _, initializers⟩ :=
      calling p callee paren arguments m mem' 40 40 c vs v m₁ m₂ ready ok
    obtain ⟨f, j, m₃, m₄, code, _, _, call, _, _⟩ := initializers method found
    rw [first] at ok call
    exact ⟨p, callee, paren, arguments, m, m₂, c, method, f, j, vs, m₃, m₄, mem', ok, found, code,
      call⟩

end Session

end LoxLang
