import LoxLang.Proofs.Resolution.Walk
import LoxLang.Proofs.Running.World
/-!
Worlds in order. In a world in order all functions stand where they were made, no environment binds
what its scope does not, and what was noted of the run fits (`Mark.Fits`): at every node that is
reached the environments mirror the scopes the walk had open there, and a name with a distance is
bound there.

What is proved: the marks fit where the run stands as it should (`Stands.matches`), and `Safe`, which
says of a watched run that it leaves the world in order, is closed under the ways runs are put
together.
-/
namespace LoxLang

/-- From the current environment outward there is one environment for each scope that is open at a
site, which binds no name but those that the scope has when it is closed, and then the globals. -/
structure Matches (p : Site) (m : Machine) : Prop where
  scope : ∀ i, i < p.before.scopes.length → ∃ e c,
    m.environments.ancestor? m.current i = some e ∧ p.closing[i]? = some c ∧
      ∀ x, (m.environments.findHere? e x).isSome → c.binds x
  globals : m.environments.ancestor? m.current p.before.scopes.length = some Machine.globals
  ends : m.environments.ancestor? m.current (p.before.scopes.length + 1) = none

/-- A name can be read and assigned where its distance leads. -/
def Bound (m : Machine) (name : Token) (d : Nat) : Prop :=
  (∃ v, Run.lookUp name (some d) m = .ok v m) ∧
    ∀ v, ∃ m', Run.assign name (some d) v m = .ok () m'

/-- What is noted agrees with the walk over one of the programs. -/
def Mark.Fits (ran : List (List Stmt)) : Mark → Prop
  | .reached p part m =>
    (∃ program ∈ ran, Site.Within program p) ∧ p.resolved = part ∧ Matches p m
  | .accessed p name depth m =>
    ∃ program ∈ ran, Site.Within program p ∧ p.Names name depth ∧ Matches p m ∧
      ∀ d, depth = some d → (m.environments.ancestor? m.current d).isSome ∧
        (Bound m name d ∨ Site.InOwnInitializer program p name.lexeme d)

structure InOrder (ran : List (List Stmt)) (w : World) : Prop where
  nonempty : 0 < w.machine.environments.size
  bound : ∀ e x v, w.machine.environments.findHere? e x = some v → ValueFits ran w v
  fields : ∀ i x v, (w.machine.fields i).find? x = some v → ValueFits ran w v
  fresh : ∀ id, w.machine.nextId ≤ id → w.log.origins id = none
  instances : ∀ e c, w.scopes e = some c → e < w.machine.environments.size ∧
    ∀ x, (w.machine.environments.findHere? e x).isSome → c.binds x
  globals : w.scopes Machine.globals = none
  marks : ∀ mark ∈ w.log.marks, mark.Fits ran

/-- A watched run that starts in a world in order leaves it in order, and gives a value of which
something is known. Also of a run that used up its depth the marks fit. -/
def Safe {α : Type} (ran : List (List Stmt)) (w : World) (r : Watched α) (Q : α → World → Prop) :
    Prop :=
  match r w.log w.machine with
  | (.ok a m, g) => ∃ scopes, InOrder ran ⟨g, m, scopes⟩ ∧ w.Follows ⟨g, m, scopes⟩ ∧
      Q a ⟨g, m, scopes⟩
  | (.fail _ m, g) => ∃ scopes, InOrder ran ⟨g, m, scopes⟩ ∧ w.Follows ⟨g, m, scopes⟩
  | (.starved, g) => ∀ mark ∈ g.marks, mark.Fits ran

/-- The run is at a site, and the environments are those the code there needs. -/
structure Ready (ran : List (List Stmt)) (w : World) (p : Site) : Prop where
  sound : p.Sound ran
  stands : Stands w w.machine.current p

variable {ran : List (List Stmt)} {w : World} {α β : Type}

/-! More programs -/

/-- What belongs to programs that ran belongs to them when more have run. -/
theorem Site.Sound.more {ran' : List (List Stmt)} (more : ran ⊆ ran') {p : Site}
    (h : p.Sound ran) : p.Sound ran' := by
  obtain ⟨program, mem, within⟩ := h.within
  exact ⟨⟨program, more mem, within⟩, h.proper, h.closes⟩

theorem FunctionFits.more {ran' : List (List Stmt)} (more : ran ⊆ ran') {f : Closure} :
    FunctionFits ran w f → FunctionFits ran' w f
  | ⟨p, origin, stands⟩ => ⟨p, ⟨origin.known, origin.code, origin.sound.more more⟩, stands⟩

theorem ClassFits.more {ran' : List (List Stmt)} (more : ran ⊆ ran') {c : Class}
    (h : ClassFits ran w c) : ClassFits ran' w c := by
  refine ⟨fun f mem => ?_, fun f mem => (h.2 f mem).more more⟩
  obtain ⟨p, ss, c', cs, origin, rest⟩ := h.1 f mem
  exact ⟨p, ss, c', cs, ⟨origin.known, origin.code, origin.sound.more more⟩, rest⟩

theorem ValueFits.more {ran' : List (List Stmt)} (more : ran ⊆ ran') {v : Value}
    (h : ValueFits ran w v) : ValueFits ran' w v := by
  unfold ValueFits at h ⊢
  split
  · exact FunctionFits.more more h
  · exact ClassFits.more more h
  · exact ClassFits.more more h
  · trivial

theorem Mark.Fits.more {ran' : List (List Stmt)} (more : ran ⊆ ran') : ∀ {mark : Mark},
    mark.Fits ran → mark.Fits ran'
  | .reached _ _ _, ⟨⟨program, mem, within⟩, rest⟩ => ⟨⟨program, more mem, within⟩, rest⟩
  | .accessed _ _ _ _, ⟨program, mem, rest⟩ => ⟨program, more mem, rest⟩

theorem InOrder.more {ran' : List (List Stmt)} (more : ran ⊆ ran') (h : InOrder ran w) :
    InOrder ran' w :=
  ⟨h.nonempty, fun e x v found => (h.bound e x v found).more more,
    fun i x v found => (h.fields i x v found).more more, h.fresh, h.instances, h.globals,
    fun mark mem => (h.marks mark mem).more more⟩

/-! What fits -/

theorem Stands.matches (order : InOrder ran w) {p : Site} (h : Stands w w.machine.current p) :
    Matches p w.machine := by
  obtain ⟨globals, ends⟩ := h.chain.ancestor
  rw [Resolution.length_outline] at globals ends
  refine ⟨fun i lt => ?_, globals, ends⟩
  rw [← Resolution.length_outline] at lt
  obtain ⟨e, c, ancestor, closing, instanceOf, _⟩ :=
    h.chain.instanceAt (List.getElem?_eq_getElem lt)
  exact ⟨e, c, ancestor, closing, (order.instances e c instanceOf).2⟩

theorem bound_of_ancestor {m : Machine} {name : Token} {d e : Nat}
    (ancestor : m.environments.ancestor? m.current d = some e)
    (bound : (m.environments.findHere? e name.lexeme).isSome) : Bound m name d := by
  obtain ⟨v, found⟩ := Option.isSome_iff_exists.mp bound
  have findAt : m.environments.findAt? m.current d name.lexeme = some v := by
    rw [Forest.findAt?, ancestor]
    exact found
  have holderAt : m.environments.holderAt? m.current d name.lexeme = some e := by
    rw [Forest.holderAt?, ancestor]
    simp [Option.filter, bound]
  constructor
  · exact ⟨v, by simp only [Run.lookUp, findAt]⟩
  · intro v
    exact ⟨{ m with environments := m.environments.define e name.lexeme v },
      by simp only [Run.assign, holderAt]⟩

/-- A name that is read or assigned where the run stands as it should. -/
theorem Ready.accessed (accepted : ∀ program ∈ ran, (Resolution.ofProgram program).2.errors = [])
    (order : InOrder ran w) {p : Site} (ready : Ready ran w p) {name : Token}
    (isName : name.IsName) (uses : p.Uses name)
    (names : p.Names name (Resolve.distance? name.lexeme p.before.scopes)) :
    (Mark.accessed p name (Resolve.distance? name.lexeme p.before.scopes) w.machine).Fits ran := by
  obtain ⟨program, mem, within⟩ := ready.sound.within
  refine ⟨program, mem, within, names, ready.stands.matches order, fun d found => ?_⟩
  obtain ⟨s, isOpen, finished⟩ :=
    Site.finished_or_initializing (accepted program mem) within uses found
  obtain ⟨e, c, ancestor, _, _, binds⟩ := ready.stands.chain.instanceAt isOpen
  refine ⟨by rw [ancestor]; rfl, ?_⟩
  rcases finished with finished | own
  · exact .inl (bound_of_ancestor ancestor (binds _ finished (isName.lexeme_ne .this)))
  · exact .inr own

theorem Ready.accessedFar (order : InOrder ran w) {p : Site} (ready : Ready ran w p) {name : Token}
    (names : p.Names name none) : (Mark.accessed p name none w.machine).Fits ran := by
  obtain ⟨program, mem, within⟩ := ready.sound.within
  exact ⟨program, mem, within, names, ready.stands.matches order, fun _ => nofun⟩

theorem Ready.accessedThis (order : InOrder ran w) {p : Site} (ready : Ready ran w p)
    {keyword : Token} (this : keyword.lexeme = Keyword.this.word)
    (object : p.place.receiver = .object)
    (names : p.Names keyword (Resolve.distance? keyword.lexeme p.before.scopes)) :
    (Mark.accessed p keyword (Resolve.distance? keyword.lexeme p.before.scopes) w.machine).Fits
      ran := by
  obtain ⟨program, mem, within⟩ := ready.sound.within
  refine ⟨program, mem, within, names, ready.stands.matches order, fun d found => ?_⟩
  obtain ⟨d', e, nearest, ancestor, bound⟩ := (ready.stands.receives object).ancestor
  rw [Site.distance?_eq, this, nearest] at found
  cases found
  refine ⟨by rw [ancestor]; rfl, .inl (bound_of_ancestor ancestor ?_)⟩
  rw [this]
  exact bound

/-! Ways to put runs together -/

namespace Safe

theorem weaken {r : Watched α} {Q Q' : α → World → Prop} (h : Safe ran w r Q)
    (h' : ∀ a w', InOrder ran w' → w.Follows w' → Q a w' → Q' a w') : Safe ran w r Q' := by
  unfold Safe at h ⊢
  split
  · rename_i eq
    rw [eq] at h
    obtain ⟨scopes, order, grows, q⟩ := h
    exact ⟨scopes, order, grows, h' _ _ order grows q⟩
  · rename_i eq
    rw [eq] at h
    exact h
  · rename_i eq
    rw [eq] at h
    exact h

theorem pure {a : α} {Q : α → World → Prop} (order : InOrder ran w) (h : Q a w) :
    Safe ran w (pure a) Q :=
  ⟨w.scopes, order, .refl w, h⟩

theorem fail {e : Failure} {Q : α → World → Prop} {r : Run α} (order : InOrder ran w)
    (h : r w.machine = .fail e w.machine) : Safe ran w (Watched.lift r) Q := by
  unfold Safe Watched.lift
  rw [h]
  exact ⟨w.scopes, order, .refl w⟩

theorem starved {Q : α → World → Prop} (order : InOrder ran w) :
    Safe ran w (Watched.lift Run.starved) Q :=
  order.marks

theorem bind {r : Watched α} {next : α → Watched β} {Q : α → World → Prop}
    {Q' : β → World → Prop} (h : Safe ran w r Q)
    (h' : ∀ a w', InOrder ran w' → w.Follows w' → Q a w' → Safe ran w' (next a) Q') :
    Safe ran w (r >>= next) Q' := by
  show Safe ran w (Watched.bind r next) Q'
  unfold Safe Watched.bind at *
  cases eq : r w.log w.machine with
  | mk outcome g =>
    rw [eq] at h
    cases outcome with
    | ok a m =>
      obtain ⟨scopes, order, grows, q⟩ := h
      have rest := h' a ⟨g, m, scopes⟩ order grows q
      dsimp only at rest ⊢
      split
      · rename_i eq'
        rw [eq'] at rest
        obtain ⟨scopes', order', grows', q'⟩ := rest
        exact ⟨scopes', order', grows.trans grows', q'⟩
      · rename_i eq'
        rw [eq'] at rest
        obtain ⟨scopes', order', grows'⟩ := rest
        exact ⟨scopes', order', grows.trans grows'⟩
      · rename_i eq'
        rw [eq'] at rest
        exact rest
    | fail e m => exact h
    | starved => exact h

theorem step {r : Watched α} {Q : α → World → Prop} {a : α} (w' : World)
    (h : r w.log w.machine = (.ok a w'.machine, w'.log)) (order : InOrder ran w')
    (follows : w.Follows w') (q : Q a w') : Safe ran w r Q := by
  unfold Safe
  rw [h]
  exact ⟨w'.scopes, order, follows, q⟩

end Safe

/-! What machines do -/

theorem Run.assign_cases (name : Token) (depth : Option Nat) (v : Value) (m : Machine) :
    Run.assign name depth v m = .fail (.runtime ⟨.undefinedVariable, name⟩) m ∨
      ∃ e, (m.environments.findHere? e name.lexeme).isSome ∧ Run.assign name depth v m =
        .ok () { m with environments := m.environments.define e name.lexeme v } := by
  unfold Run.assign
  dsimp only
  split
  · rename_i e found
    refine .inr ⟨e, ?_, rfl⟩
    cases depth with
    | some d => exact Forest.isSome_of_holderAt? found
    | none => exact Forest.isSome_of_holder? found
  · exact .inl rfl

theorem Run.lookUp_cases (name : Token) (depth : Option Nat) (m : Machine) :
    Run.lookUp name depth m = .fail (.runtime ⟨.undefinedVariable, name⟩) m ∨
      ∃ v e, m.environments.findHere? e name.lexeme = some v ∧
        Run.lookUp name depth m = .ok v m := by
  unfold Run.lookUp
  dsimp only
  split
  · rename_i v found
    cases depth with
    | some d =>
      obtain ⟨e, here⟩ := Forest.findHere?_of_findAt? found
      exact .inr ⟨v, e, here, rfl⟩
    | none =>
      obtain ⟨e, here⟩ := Forest.findHere?_of_find? found
      exact .inr ⟨v, e, here, rfl⟩
  · exact .inl rfl

/-- What is new in a world that has grown has to be in order. -/
theorem InOrder.grow {w' : World} (order : InOrder ran w) (grows : w.Grows w')
    (bound : ∀ e x v, w'.machine.environments.findHere? e x = some v →
      (∃ e x, w.machine.environments.findHere? e x = some v) ∨ ValueFits ran w' v)
    (fields : ∀ i x v, (w'.machine.fields i).find? x = some v →
      (∃ i x, (w.machine.fields i).find? x = some v) ∨ ValueFits ran w' v)
    (fresh : ∀ id, w'.machine.nextId ≤ id → w'.log.origins id = none)
    (instances : ∀ e c, w'.scopes e = some c → e < w'.machine.environments.size ∧
      ∀ x, (w'.machine.environments.findHere? e x).isSome → c.binds x)
    (globals : w'.scopes Machine.globals = none)
    (marks : ∀ mark ∈ w'.log.marks, mark.Fits ran) : InOrder ran w' where
  nonempty := Nat.lt_of_lt_of_le order.nonempty grows.size
  bound e x v found := by
    rcases bound e x v found with ⟨e', x', old⟩ | fits
    · exact (order.bound e' x' v old).mono grows
    · exact fits
  fields i x v found := by
    rcases fields i x v found with ⟨i', x', old⟩ | fits
    · exact (order.fields i' x' v old).mono grows
    · exact fits
  fresh := fresh
  instances := instances
  globals := globals
  marks := marks

theorem InOrder.congr (order : InOrder ran w) (w' : World)
    (environments : w'.machine.environments = w.machine.environments)
    (instances : w'.machine.instances = w.machine.instances)
    (nextId : w.machine.nextId ≤ w'.machine.nextId) (origins : w'.log.origins = w.log.origins)
    (scopes : w'.scopes = w.scopes) (marks : ∀ mark ∈ w'.log.marks, mark.Fits ran) :
    InOrder ran w' ∧ w.Grows w' := by
  have grows : w.Grows w' := by
    constructor
    · exact Nat.le_of_eq (by rw [environments])
    · rw [environments]; exact fun _ _ h => h
    · rw [environments]; exact fun _ _ h => h
    · rw [origins]; exact fun _ _ h => h
    · rw [scopes]; exact fun _ _ h => h
  refine ⟨order.grow grows (fun e x v found => ?_) (fun i x v found => ?_) ?_ ?_ ?_ marks, grows⟩
  · exact .inl ⟨e, x, environments ▸ found⟩
  · refine .inl ⟨i, x, ?_⟩
    rw [Machine.fields, instances] at found
    exact found
  · rw [origins]
    exact fun id le => order.fresh id (Nat.le_trans nextId le)
  · rw [environments, scopes]
    exact order.instances
  · rw [scopes]
    exact order.globals

namespace Safe

theorem quiet {r : Run α} {Q : α → World → Prop} {a : α} {m : Machine} (order : InOrder ran w)
    (h : r w.machine = .ok a m) (environments : m.environments = w.machine.environments)
    (instances : m.instances = w.machine.instances) (nextId : w.machine.nextId ≤ m.nextId)
    (current : m.current = w.machine.current) (q : ∀ w', InOrder ran w' → w.Follows w' → Q a w') :
    Safe ran w (Watched.lift r) Q := by
  obtain ⟨order', grows⟩ := order.congr ⟨w.log, m, w.scopes⟩ environments instances nextId
    rfl rfl order.marks
  exact step _ (by rw [Watched.lift, h]) order' ⟨grows, current⟩ (q _ order' ⟨grows, current⟩)

theorem reach {p : Site} {part : Part} {next : Unit → Watched β} {Q : β → World → Prop}
    (order : InOrder ran w) (fits : (Mark.reached p part w.machine).Fits ran)
    (h : ∀ w', InOrder ran w' → w.Follows w' → Safe ran w' (next ()) Q) :
    Safe ran w (Watched.reach p part >>= next) Q := by
  obtain ⟨order', grows⟩ := order.congr
    ⟨{ w.log with marks := .reached p part w.machine :: w.log.marks }, w.machine, w.scopes⟩
    rfl rfl Nat.le.refl rfl rfl (List.forall_mem_cons.mpr ⟨fits, order.marks⟩)
  exact bind (Q := fun _ _ => True) (step _ rfl order' ⟨grows, rfl⟩ trivial)
    fun _ w' order follows _ => h w' order follows

theorem access {p : Site} {name : Token} {depth : Option Nat} {next : Unit → Watched β}
    {Q : β → World → Prop} (order : InOrder ran w)
    (fits : (Mark.accessed p name depth w.machine).Fits ran)
    (h : ∀ w', InOrder ran w' → w.Follows w' → Safe ran w' (next ()) Q) :
    Safe ran w (Watched.access p name depth >>= next) Q := by
  obtain ⟨order', grows⟩ := order.congr
    ⟨{ w.log with marks := .accessed p name depth w.machine :: w.log.marks }, w.machine,
      w.scopes⟩
    rfl rfl Nat.le.refl rfl rfl (List.forall_mem_cons.mpr ⟨fits, order.marks⟩)
  exact bind (Q := fun _ _ => True) (step _ rfl order' ⟨grows, rfl⟩ trivial)
    fun _ w' order follows _ => h w' order follows

/-- A run in another environment; what is known at its end has to outlast the way back. -/
theorem within {r : Watched α} {e : Nat} {Q : α → World → Prop} (order : InOrder ran w)
    (h : ∀ w', InOrder ran w' → w.Grows w' → w'.machine.current = e →
      Safe ran w' r fun a w'' => ∀ w₃, w''.Grows w₃ → w.Follows w₃ → Q a w₃) :
    Safe ran w (Watched.within e r) Q := by
  obtain ⟨order', grows⟩ := order.congr
    ⟨w.log, { w.machine with current := e }, w.scopes⟩ rfl rfl Nat.le.refl rfl rfl order.marks
  have inner := h _ order' grows rfl
  unfold Safe Watched.within at *
  dsimp only at inner ⊢
  cases eq : r w.log { w.machine with current := e } with
  | mk outcome g =>
    rw [eq] at inner
    cases outcome with
    | ok a m =>
      obtain ⟨scopes, ended, follows, q⟩ := inner
      obtain ⟨order'', grows'⟩ := ended.congr
        ⟨g, { m with current := w.machine.current }, scopes⟩ rfl rfl Nat.le.refl rfl rfl ended.marks
      have back : w.Follows ⟨g, { m with current := w.machine.current }, scopes⟩ :=
        ⟨(grows.trans follows.grows).trans grows', rfl⟩
      exact ⟨scopes, order'', back, q _ grows' back⟩
    | fail f m =>
      obtain ⟨scopes, ended, follows⟩ := inner
      obtain ⟨order'', grows'⟩ := ended.congr
        ⟨g, { m with current := w.machine.current }, scopes⟩ rfl rfl Nat.le.refl rfl rfl ended.marks
      exact ⟨scopes, order'', (grows.trans follows.grows).trans grows', rfl⟩
    | starved => exact inner

theorem asCall {r : Watched α} {limit : Option Nat} {paren : Token} {Q : α → World → Prop}
    (order : InOrder ran w)
    (h : ∀ w', InOrder ran w' → w.Follows w' →
      Safe ran w' r fun a w'' => ∀ w₃, w''.Grows w₃ → w.Follows w₃ → Q a w₃) :
    Safe ran w (Watched.asCall limit paren r) Q := by
  obtain ⟨order', grows⟩ := order.congr
    ⟨w.log, { w.machine with callDepth := w.machine.callDepth + 1 }, w.scopes⟩
    rfl rfl Nat.le.refl rfl rfl order.marks
  have inner := h _ order' ⟨grows, rfl⟩
  unfold Safe Watched.asCall at *
  dsimp only at inner ⊢
  by_cases full : limit.any (· ≤ w.machine.callDepth) = true
  · rw [if_pos full]
    exact ⟨w.scopes, order, .refl w⟩
  rw [if_neg full]
  cases eq : r w.log { w.machine with callDepth := w.machine.callDepth + 1 } with
  | mk outcome g =>
    rw [eq] at inner
    cases outcome with
    | ok a m =>
      obtain ⟨scopes, ended, follows, q⟩ := inner
      obtain ⟨order'', grows'⟩ := ended.congr
        ⟨g, { m with callDepth := m.callDepth - 1 }, scopes⟩ rfl rfl Nat.le.refl rfl rfl ended.marks
      have back : w.Follows ⟨g, { m with callDepth := m.callDepth - 1 }, scopes⟩ :=
        ⟨(grows.trans follows.grows).trans grows', follows.current⟩
      exact ⟨scopes, order'', back, q _ grows' back⟩
    | fail f m =>
      obtain ⟨scopes, ended, follows⟩ := inner
      obtain ⟨order'', grows'⟩ := ended.congr
        ⟨g, { m with callDepth := m.callDepth - 1 }, scopes⟩ rfl rfl Nat.le.refl rfl rfl ended.marks
      exact ⟨scopes, order'', (grows.trans follows.grows).trans grows', follows.current⟩
    | starved => exact inner

/-- A new environment is an instance of the scope it is made for. -/
theorem newEnvironment {outer : Nat} {bindings : Bindings Value} {next : Nat → Watched β}
    {Q : β → World → Prop} (order : InOrder ran w) (c : Locals)
    (exists_ : outer < w.machine.environments.size)
    (fits : ∀ x v, bindings.find? x = some v → ValueFits ran w v)
    (binds : ∀ x, (bindings.find? x).isSome → c.binds x)
    (h : ∀ e w', InOrder ran w' → w.Follows w' → w'.machine.environments.outer? e = some outer →
      w'.scopes e = some c →
        (∀ x, w'.machine.environments.findHere? e x = bindings.find? x) → Safe ran w' (next e) Q) :
    Safe ran w (Watched.lift (Run.newEnvironment outer bindings) >>= next) Q := by
  let f := w.machine.environments
  -- The machine gets the environment; the world remembers by its number which scope it belongs to.
  let w' : World := ⟨w.log, { w.machine with environments := f.push (some outer) bindings },
    fun i => if i = f.size then some c else w.scopes i⟩
  have grows : w.Grows w' := by
    refine ⟨?_, fun e o link => ?_, fun e x bound => ?_, fun _ _ h => h, fun e c' known => ?_⟩
    · exact Nat.le_of_lt (by simp [w', f])
    · exact (Forest.outer?_push_of_lt (Forest.lt_size_of_outer? link) _ _).trans link
    · show ((f.push (some outer) bindings).findHere? e x).isSome
      rw [Forest.findHere?_push_of_lt (Forest.lt_size_of_findHere? bound)]
      exact bound
    · have old := (order.instances e c' known).1
      exact (if_neg (Nat.ne_of_lt old)).trans known
  -- Every value in an environment was in one before, or it is among those that the new one begins with.
  have order' : InOrder ran w' := by
    refine order.grow grows (fun e x v found => ?_) (fun i x v found => .inl ⟨i, x, found⟩)
      order.fresh (fun e c' known => ?_) ?_ order.marks
    · rcases Forest.findHere?_push found with old | ⟨_, new⟩
      · exact .inl ⟨e, x, old⟩
      · exact .inr ((fits x v new).mono grows)
    · show e < (f.push (some outer) bindings).size ∧
        ∀ x, ((f.push (some outer) bindings).findHere? e x).isSome → c'.binds x
      rw [Forest.size_push]
      by_cases new : e = f.size
      · have same : (if e = f.size then some c else w.scopes e) = some c' := known
        rw [if_pos new] at same
        cases same
        subst new
        refine ⟨Nat.lt_succ_self _, fun x bound => binds x ?_⟩
        rwa [Forest.findHere?_push_size] at bound
      · have same : (if e = f.size then some c else w.scopes e) = some c' := known
        rw [if_neg new] at same
        obtain ⟨old, old_binds⟩ := order.instances e c' same
        refine ⟨Nat.lt_succ_of_lt old, fun x bound => old_binds x ?_⟩
        rwa [Forest.findHere?_push_of_lt old] at bound
    · exact (if_neg (Nat.ne_of_lt order.nonempty)).trans order.globals
  refine bind (Q := fun e w'' => e = f.size ∧ w'' = w') ?_ fun e w'' order follows same => ?_
  · exact step w' rfl order' ⟨grows, rfl⟩ ⟨rfl, rfl⟩
  · obtain ⟨rfl, rfl⟩ := same
    refine h f.size w' order follows ?_ (if_pos rfl) fun x => ?_
    · exact Forest.outer?_push_size f exists_ bindings
    · exact Forest.findHere?_push_size f _ bindings x

end Safe

def World.define (w : World) (e : Nat) (x : String) (v : Value) : World :=
  { w with machine := { w.machine with environments := w.machine.environments.define e x v } }

theorem World.grows_define (w : World) (e : Nat) (x : String) (v : Value) :
    w.Grows (w.define e x v) := by
  refine ⟨?_, fun i o link => ?_, fun i y bound => ?_, fun _ _ h => h, fun _ _ h => h⟩
  · exact Nat.le_of_eq (Forest.size_define _ _ _ _).symm
  · exact (Forest.outer?_define _ _ _ _ _).trans link
  · show ((w.machine.environments.define e x v).findHere? i y).isSome
    rw [Forest.findHere?_define]
    split
    · rfl
    · exact bound

theorem World.bound_define {w : World} {e : Nat} (exists_ : e < w.machine.environments.size)
    (x : String) (v : Value) : ((w.define e x v).machine.environments.findHere? e x).isSome := by
  show ((w.machine.environments.define e x v).findHere? e x).isSome
  rw [Forest.findHere?_define, if_pos ⟨exists_, rfl, rfl⟩]
  rfl

/-- A binding of a name that the scope has, to a value that fits then. -/
theorem InOrder.define {e : Nat} {x : String} {v : Value} (order : InOrder ran w)
    (closes : ∀ c, w.scopes e = some c → c.binds x)
    (fits : ValueFits ran (w.define e x v) v) : InOrder ran (w.define e x v) := by
  refine order.grow (w.grows_define e x v) (fun i y u found => ?_)
    (fun i y u found => .inl ⟨i, y, found⟩) order.fresh (fun i c known => ?_) order.globals
    order.marks
  · have found : (w.machine.environments.define e x v).findHere? i y = some u := found
    rw [Forest.findHere?_define] at found
    split at found
    · cases found
      exact .inr fits
    · exact .inl ⟨i, y, found⟩
  · obtain ⟨old, old_binds⟩ := order.instances i c known
    show i < (w.machine.environments.define e x v).size ∧
      ∀ y, ((w.machine.environments.define e x v).findHere? i y).isSome → c.binds y
    rw [Forest.size_define]
    refine ⟨old, fun y bound => ?_⟩
    rw [Forest.findHere?_define] at bound
    split at bound
    · rename_i here
      obtain ⟨_, rfl, rfl⟩ := here
      exact closes c known
    · exact old_binds y bound

namespace Safe

theorem define {x : String} {v : Value} {Q : Unit → World → Prop} (order : InOrder ran w)
    (exists_ : w.machine.current < w.machine.environments.size)
    (closes : ∀ c, w.scopes w.machine.current = some c → c.binds x)
    (fits : ∀ w', w.Follows w' → (w'.machine.environments.findHere? w'.machine.current x).isSome →
      ValueFits ran w' v)
    (q : ∀ w', InOrder ran w' → w.Follows w' →
      (w'.machine.environments.findHere? w'.machine.current x).isSome → Q () w') :
    Safe ran w (Watched.lift (Run.define x v)) Q := by
  have follows : w.Follows (w.define w.machine.current x v) := ⟨w.grows_define _ _ _, rfl⟩
  have bound := World.bound_define exists_ x v
  have order' := order.define closes (fits _ follows bound)
  exact step (w.define w.machine.current x v) rfl order' follows (q _ order' follows bound)

theorem assign {name : Token} {depth : Option Nat} {v : Value} {Q : Unit → World → Prop}
    (order : InOrder ran w) (fits : ValueFits ran w v)
    (q : ∀ w', InOrder ran w' → w.Follows w' → Q () w') :
    Safe ran w (Watched.lift (Run.assign name depth v)) Q := by
  rcases Run.assign_cases name depth v w.machine with failed | ⟨e, bound, assigned⟩
  · exact fail order failed
  · have follows : w.Follows (w.define e name.lexeme v) := ⟨w.grows_define _ _ _, rfl⟩
    have order' := order.define (fun c known => (order.instances e c known).2 _ bound)
      (fits.mono follows.grows)
    refine step (w.define e name.lexeme v) ?_ order' follows (q _ order' follows)
    rw [Watched.lift, assigned]
    rfl

theorem lookUp {name : Token} {depth : Option Nat} (order : InOrder ran w) :
    Safe ran w (Watched.lift (Run.lookUp name depth)) fun v w' => ValueFits ran w' v := by
  rcases Run.lookUp_cases name depth w.machine with failed | ⟨v, e, here, found⟩
  · exact fail order failed
  · exact step w (by rw [Watched.lift, found]) order (.refl w) (order.bound e _ v here)

theorem receiver {e : Nat} (order : InOrder ran w) :
    Safe ran w (Watched.lift (Run.receiver e)) fun v w' => ValueFits ran w' v := by
  refine step w rfl order (.refl w) ?_
  cases found : w.machine.environments.findHere? e "this" with
  | none => trivial
  | some v => exact order.bound e _ v found

theorem newInstance {Q : Nat → World → Prop} (order : InOrder ran w)
    (q : ∀ id w', InOrder ran w' → w.Follows w' → Q id w') :
    Safe ran w (Watched.lift Run.newInstance) Q := by
  let w' : World := ⟨w.log, { w.machine with instances := w.machine.instances.push [] }, w.scopes⟩
  have grows : w.Grows w' :=
    ⟨Nat.le_refl _, fun _ _ h => h, fun _ _ h => h, fun _ _ h => h, fun _ _ h => h⟩
  have order' : InOrder ran w' := by
    refine order.grow grows (fun e x v found => .inl ⟨e, x, found⟩) (fun i x v found => ?_)
      order.fresh order.instances order.globals order.marks
    have found : ((w.machine.instances.push []).getD i []).find? x = some v := found
    rw [fields_push] at found
    exact .inl ⟨i, x, found⟩
  exact step w' rfl order' ⟨grows, rfl⟩ (q _ _ order' ⟨grows, rfl⟩)

theorem setField {id : Nat} {x : String} {v : Value} {Q : Unit → World → Prop}
    (order : InOrder ran w) (fits : ValueFits ran w v)
    (q : ∀ w', InOrder ran w' → w.Follows w' → Q () w') :
    Safe ran w (Watched.lift (Run.setField id x v)) Q := by
  let w' : World :=
    ⟨w.log, { w.machine with instances := w.machine.instances.modify id (·.put x v) }, w.scopes⟩
  have grows : w.Grows w' :=
    ⟨Nat.le_refl _, fun _ _ h => h, fun _ _ h => h, fun _ _ h => h, fun _ _ h => h⟩
  have order' : InOrder ran w' := by
    refine order.grow grows (fun e y u found => .inl ⟨e, y, found⟩) (fun i y u found => ?_)
      order.fresh order.instances order.globals order.marks
    have found : ((w.machine.instances.modify id (·.put x v)).getD i []).find? y = some u := found
    rw [find?_fields_modify] at found
    split at found
    · cases found
      exact .inr (fits.mono grows)
    · exact .inl ⟨i, y, found⟩
  exact step w' rfl order' ⟨grows, rfl⟩ (q _ order' ⟨grows, rfl⟩)

end Safe

end LoxLang
