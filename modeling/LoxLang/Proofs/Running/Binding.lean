import LoxLang.Proofs.Nesting.Blocks
import LoxLang.Proofs.Running.Control
import LoxLang.Proofs.Running.World
/-!
Where names are bound. A name is bound in the environment that a declaration runs in, or by a call in a new one
for its parameters. An assignment binds no name, it gives one that is bound another value.

What is proved:
  1. whatever runs and however it ends, an expression or a call leaves every environment with the names that it
     bound, and a statement every environment but the one that it runs in (`Run.confinedAll`);
  2. a statement that is no declaration leaves that one so as well (`Run.execute_confined_of_nested`);
  3. a block in which nothing is declared has an environment that binds nothing (`Run.block_vacant`), and
     nothing that runs later outside of it binds a name there (`Run.execute_vacant`).

`Run.Confined` is closed under the ways runs are put together.
-/
namespace LoxLang

variable {α β : Type} {limit : Option Nat} {n : Nat} {own : Bool}

/-- The environments that were there bind the names that they bound. With `own` the one that statements run in
may bind more. -/
structure Machine.Confined (own : Bool) (m m' : Machine) : Prop where
  size : m.environments.size ≤ m'.environments.size
  current : m'.current = m.current
  bound : ∀ e < m.environments.size, (own = true → e ≠ m.current) → ∀ x,
    (m'.environments.findHere? e x).isSome = (m.environments.findHere? e x).isSome

namespace Machine.Confined

variable {m m' m'' : Machine}

theorem refl (m : Machine) : m.Confined own m := ⟨Nat.le_refl _, rfl, fun _ _ _ _ => rfl⟩

theorem trans (h : m.Confined own m') (h' : m'.Confined own m'') : m.Confined own m'' where
  size := Nat.le_trans h.size h'.size
  current := h'.current.trans h.current
  bound e lt other x :=
    (h'.bound e (Nat.lt_of_lt_of_le lt h.size) (h.current ▸ other) x).trans (h.bound e lt other x)

end Machine.Confined

namespace Run

/-- However the run ends, no name is bound in an environment that was there; with `own`, in none but the one
that statements run in. -/
def Confined (own : Bool) (r : Run α) : Prop :=
  ∀ m m' : Machine, (r m).state? = some m' → m.Confined own m'

namespace Confined

variable {r : Run α} {next : α → Run β}

theorem elsewhere (h : Confined false r) : Confined own r := fun m m' ended =>
  ⟨(h m m' ended).size, (h m m' ended).current, fun e lt _ => (h m m' ended).bound e lt nofun⟩

theorem of_step (h : ∀ m, ∃ m', (r m).state? = some m' ∧ m'.environments = m.environments ∧
    m'.current = m.current) : Confined own r := by
  intro m m' ended
  obtain ⟨m₁, ended', same, current⟩ := h m
  rw [ended'] at ended
  cases ended
  exact ⟨Nat.le_of_eq (by rw [same]), current, fun e _ _ x => by rw [same]⟩

theorem pure (a : α) : Confined own (pure a : Run α) := .of_step fun m => ⟨m, rfl, rfl, rfl⟩

theorem starved : Confined own (Run.starved : Run α) := fun _ _ ended => nomatch ended

theorem bind (h : Confined own r) (h' : ∀ a, Confined own (next a)) : Confined own (r >>= next) := by
  intro m m' ended
  rcases ended_bind ended with ⟨f, failed⟩ | ⟨a, m₁, first, ended⟩
  · exact h m m' (by rw [failed]; rfl)
  · exact (h m m₁ (by rw [first]; rfl)).trans (h' a m₁ m' ended)

theorem within (environment : Nat) (h : Confined false r) : Confined own (within environment r) := by
  intro m m' ended
  obtain ⟨m₁, inside, rfl⟩ := ended_within ended
  have confined := h _ m₁ inside
  exact ⟨confined.size, rfl, fun e lt _ => confined.bound e lt nofun⟩

/-- What is bound in a new environment is bound in none that was there. -/
theorem inside {outer : Nat} {bindings : Bindings Value} (h : Confined true r) :
    Confined own (Run.newEnvironment outer bindings >>= fun scope => Run.within scope r) := by
  intro m m' ended
  obtain ⟨m₁, inside, rfl⟩ := ended_within ended
  have confined := h _ m₁ inside
  have larger : m.environments.size < (m.environments.push (some outer) bindings).size :=
    Nat.lt_of_lt_of_eq (Nat.lt_succ_self _) (Forest.size_push _ _ _).symm
  refine ⟨Nat.le_trans (Nat.le_of_lt larger) confined.size, rfl, fun e lt _ x => ?_⟩
  have kept := confined.bound e (Nat.lt_trans lt larger) (fun _ => Nat.ne_of_lt lt) x
  exact kept.trans (congrArg Option.isSome (Forest.findHere?_push_of_lt lt _ _ x))

theorem asCall (paren : Token) (h : Confined own r) : Confined own (asCall limit paren r) := by
  intro m m' ended
  rcases ended_asCall ended with rfl | ⟨m₁, inside, rfl⟩
  · exact .refl m'
  · have confined := h _ m₁ inside
    exact ⟨confined.size, confined.current, confined.bound⟩

end Confined

/-! Steps -/

theorem fault_confined (token : Token) (f : RuntimeFault) : Confined own (fault token f : Run α) :=
  .of_step fun m => ⟨m, rfl, rfl, rfl⟩

theorem lift_confined (token : Token) (r : Except RuntimeFault α) : Confined own (lift token r) := by
  cases r with
  | ok a => exact .pure a
  | error f => exact fault_confined token f

theorem current_confined : Confined own current := .of_step fun m => ⟨m, rfl, rfl, rfl⟩

theorem newInstance_confined : Confined own newInstance := .of_step fun _ => ⟨_, rfl, rfl, rfl⟩

theorem newEnvironment_confined (outer : Nat) (bindings : Bindings Value) :
    Confined own (newEnvironment outer bindings) := by
  intro m m' ended
  cases ended
  refine ⟨Nat.le_of_lt ?_, rfl, fun e lt _ x => ?_⟩
  · exact Nat.lt_of_lt_of_eq (Nat.lt_succ_self _) (Forest.size_push _ _ _).symm
  · exact congrArg Option.isSome (Forest.findHere?_push_of_lt lt _ _ x)

theorem lookUp_confined (name : Token) (depth : Option Nat) : Confined own (lookUp name depth) := by
  refine .of_step fun m => ?_
  unfold lookUp
  dsimp only
  split
  · exact ⟨m, rfl, rfl, rfl⟩
  · exact ⟨m, rfl, rfl, rfl⟩

theorem receiver_confined (environment : Nat) : Confined own (receiver environment) :=
  .of_step fun m => ⟨m, rfl, rfl, rfl⟩

theorem setField_confined (id : Nat) (name : String) (v : Value) : Confined own (setField id name v) :=
  .of_step fun _ => ⟨_, rfl, rfl, rfl⟩

theorem writeLine_confined (text : String) : Confined own (writeLine text) := by
  refine .of_step fun m => ?_
  unfold writeLine
  split
  · exact ⟨_, rfl, rfl, rfl⟩
  · exact ⟨_, rfl, rfl, rfl⟩

theorem define_confined (name : String) (v : Value) : Confined true (define name v) := by
  intro m m' ended
  cases ended
  refine ⟨Nat.le_of_eq (Forest.size_define _ _ _ _).symm, rfl, fun e _ other x => ?_⟩
  rw [Forest.findHere?_define, if_neg fun here => other rfl here.2.1.symm]

theorem isSome_define {f : Forest Value} {holder : Nat} {name : String} (v : Value)
    (bound : (f.findHere? holder name).isSome) (e : Nat) (x : String) :
    ((f.define holder name v).findHere? e x).isSome = (f.findHere? e x).isSome := by
  rw [Forest.findHere?_define]
  split
  · rename_i here
    obtain ⟨_, rfl, rfl⟩ := here
    exact bound.symm
  · rfl

theorem assign_confined (name : Token) (depth : Option Nat) (v : Value) :
    Confined own (assign name depth v) := by
  intro m m' ended
  unfold assign at ended
  dsimp only at ended
  split at ended
  · rename_i holder held
    have bound : (m.environments.findHere? holder name.lexeme).isSome := by
      cases depth with
      | some d => exact Forest.isSome_of_holderAt? held
      | none => exact Forest.isSome_of_holder? held
    cases ended
    exact ⟨Nat.le_of_eq (Forest.size_define _ _ _ _).symm, rfl, fun e _ _ x => isSome_define v bound e x⟩
  · cases ended
    exact .refl m

theorem confined_builds : Builds fun r => Confined false r where
  pure := .pure
  bind := .bind
  within := .within
  newId := .of_step fun _ => ⟨_, rfl, rfl, rfl⟩
  current := current_confined
  newEnvironment := newEnvironment_confined
  field? _ _ := .of_step fun m => ⟨m, rfl, rfl, rfl⟩
  writeLine := writeLine_confined
  readClock := .of_step fun _ => ⟨_, rfl, rfl, rfl⟩

/-! Expressions, statements and calls -/

/-- What is proved of all runs of one depth. -/
structure ConfinedAll (limit : Option Nat) (n : Nat) : Prop where
  evaluate : ∀ e, Confined false (evaluate limit n e)
  evaluateAll : ∀ es, Confined false (evaluateAll limit n es)
  execute : ∀ s, Confined true (execute limit n s)
  executeAll : ∀ ss, Confined true (executeAll limit n ss)
  declareAll : ∀ ds, Confined true (declareAll limit n ds)
  call : ∀ c vs, Confined false (call limit n c vs)

theorem evaluate_confined (ih : ConfinedAll limit n) (e : Expr) :
    Confined false (evaluate limit (n + 1) e) := by
  cases e with
  | literal value => exact .pure _
  | group inner => exact ih.evaluate inner
  | unary op right => exact (ih.evaluate right).bind fun _ => lift_confined _ _
  | binary left op right =>
    exact (ih.evaluate left).bind fun _ => (ih.evaluate right).bind fun _ => lift_confined _ _
  | logical left op right =>
    refine (ih.evaluate left).bind fun v => ?_
    split
    · exact .pure v
    · exact ih.evaluate right
  | ternary condition whenTrue whenFalse =>
    refine (ih.evaluate condition).bind fun v => ?_
    split
    · exact ih.evaluate whenTrue
    · exact ih.evaluate whenFalse
  | «variable» name depth => exact lookUp_confined _ _
  | «this» keyword depth => exact lookUp_confined _ _
  | assign name value depth =>
    exact (ih.evaluate value).bind fun v => (assign_confined name depth v).bind fun _ => .pure v
  | call callee paren arguments =>
    refine (ih.evaluate callee).bind fun v => (ih.evaluateAll arguments).bind fun vs => ?_
    cases v with
    | callable c =>
      dsimp only
      split
      · exact (ih.call c vs).asCall paren
      · exact fault_confined _ _
    | _ => exact fault_confined _ _
  | property object name =>
    exact (ih.evaluate object).bind fun v =>
      confined_builds.member v (fault_confined _ _) (fault_confined _ _)
  | setProperty object name value =>
    refine (ih.evaluate object).bind fun v => ?_
    cases v with
    | object i c =>
      exact (ih.evaluate value).bind fun w => (setField_confined i name.lexeme w).bind fun _ => .pure w
    | _ => exact fault_confined _ _
  | lambda code => exact (confined_builds.newClosure code false).bind fun _ => .pure _

theorem evaluateAll_confined (ih : ConfinedAll limit n) (es : List Expr) :
    Confined false (evaluateAll limit (n + 1) es) := by
  cases es with
  | nil => exact .pure _
  | cons e es => exact (ih.evaluate e).bind fun v => (ih.evaluateAll es).bind fun vs => .pure _

/-- A block binds nothing outside of itself. -/
theorem block_confined (ih : ConfinedAll limit n) (body : List Stmt) :
    Confined own (execute limit (n + 1) (.block body)) :=
  current_confined.bind fun _ => (ih.executeAll body).inside

theorem execute_confined (ih : ConfinedAll limit n) (s : Stmt) :
    Confined true (execute limit (n + 1) s) := by
  cases s with
  | expression value => exact (ih.evaluate value).elsewhere.bind fun _ => .pure _
  | print value =>
    exact (ih.evaluate value).elsewhere.bind fun v => (writeLine_confined v.text).bind fun _ => .pure _
  | declare d => exact ih.declareAll [d]
  | declareAll ds => exact ih.declareAll ds
  | block body => exact block_confined ih body
  | conditional condition whenTrue whenFalse =>
    refine (ih.evaluate condition).elsewhere.bind fun v => ?_
    split
    · exact ih.execute whenTrue
    · cases whenFalse with
      | none => exact .pure _
      | some whenFalse => exact ih.execute whenFalse
  | loop condition body =>
    refine (ih.evaluate condition).elsewhere.bind fun v => ?_
    split
    · refine (ih.execute body).bind fun flow => ?_
      cases flow with
      | normal => exact ih.execute (.loop condition body)
      | returned v => exact .pure _
    · exact .pure _
  | declareFunction code =>
    exact (confined_builds.newClosure code false).elsewhere.bind fun _ =>
      (define_confined _ _).bind fun _ => .pure _
  | returns keyword value =>
    cases value with
    | none => exact .pure _
    | some value => exact (ih.evaluate value).elsewhere.bind fun _ => .pure _
  | declareClass name methods statics =>
    exact (confined_builds.newClass name.lexeme methods statics).elsewhere.bind fun _ =>
      (define_confined _ _).bind fun _ => .pure _

theorem executeAll_confined (ih : ConfinedAll limit n) (ss : List Stmt) :
    Confined true (executeAll limit (n + 1) ss) := by
  cases ss with
  | nil => exact .pure _
  | cons s ss =>
    refine (ih.execute s).bind fun flow => ?_
    cases flow with
    | normal => exact ih.executeAll ss
    | returned v => exact .pure _

theorem declareAll_confined (ih : ConfinedAll limit n) (ds : List Declarator) :
    Confined true (declareAll limit (n + 1) ds) := by
  cases ds with
  | nil => exact .pure _
  | cons d ds =>
    obtain ⟨name, initial⟩ := d
    cases initial with
    | none => exact (Confined.pure _).bind fun v => (define_confined _ v).bind fun _ => ih.declareAll ds
    | some e =>
      exact (ih.evaluate e).elsewhere.bind fun v => (define_confined _ v).bind fun _ => ih.declareAll ds

theorem call_confined (ih : ConfinedAll limit n) (c : Callable) (vs : List Value) :
    Confined false (call limit (n + 1) c vs) := by
  cases c with
  | function f =>
    have body : Confined false (newEnvironment f.scope (bindParams f.code.params vs) >>= fun scope =>
        within scope (executeAll limit n f.code.body)) := (ih.executeAll f.code.body).inside
    have value (flow : Flow) :
        Confined false (if f.initializer then receiver f.scope else Pure.pure flow.value) := by
      split
      · exact receiver_confined _
      · exact .pure _
    have whole := body.bind value
    rwa [bind_assoc] at whole
  | native native => exact confined_builds.callNative native vs
  | ofClass c =>
    refine newInstance_confined.bind fun id => ?_
    cases c.method? Class.initializerName with
    | none => exact .pure _
    | some f =>
      exact (confined_builds.bindThis f _).bind fun g => (ih.call (.function g) vs).bind fun _ => .pure _

/-- Whatever runs binds names where it runs at most. -/
theorem confinedAll (limit : Option Nat) : ∀ n, ConfinedAll limit n
  | 0 => by constructor <;> intros <;> exact .starved
  | n + 1 =>
    have ih := confinedAll limit n
    ⟨evaluate_confined ih, evaluateAll_confined ih, execute_confined ih, executeAll_confined ih,
      declareAll_confined ih, call_confined ih⟩

/-! Statements that are no declarations -/

/-- What stands in a marked scope is no declaration, and so it binds nothing in it. -/
theorem execute_confined_of_nested : ∀ (n : Nat) {marks : List Bool} {s s' : Stmt},
    Stmt.Nested (true :: marks) s s' → Confined false (execute limit n s')
  | 0, _, _, _, _ => .starved
  | n + 1, _, _, _, nested => by
    have all := confinedAll limit n
    cases nested with
    | declare unmarked => cases unmarked
    | declareAll unmarked => cases unmarked
    | declareFunction unmarked => cases unmarked
    | declareClass _ unmarked => cases unmarked
    | enclosed bare => exact block_confined all _
    | bare bare =>
      have whole := bare
      cases bare with
      | expression value => exact (all.evaluate _).bind fun _ => .pure _
      | print value => exact (all.evaluate _).bind fun v => (writeLine_confined v.text).bind fun _ => .pure _
      | block body => exact block_confined all _
      | onlyIf condition whenTrue =>
        refine (all.evaluate _).bind fun v => ?_
        split
        · exact execute_confined_of_nested n whenTrue
        · exact .pure _
      | orElse condition whenTrue whenFalse =>
        refine (all.evaluate _).bind fun v => ?_
        split
        · exact execute_confined_of_nested n whenTrue
        · exact execute_confined_of_nested n whenFalse
      | loop condition body =>
        refine (all.evaluate _).bind fun v => ?_
        split
        · refine (execute_confined_of_nested n body).bind fun flow => ?_
          cases flow with
          -- Going round is another run of the whole loop.
          | normal => exact execute_confined_of_nested n (.bare whole)
          | returned v => exact .pure _
        · exact .pure _
      | returns keyword => exact .pure _
      | returnsValue keyword value => exact (all.evaluate _).bind fun _ => .pure _

theorem executeAll_confined_of_each : ∀ (n : Nat) {ss : List Stmt},
    (∀ s ∈ ss, ∀ k, Confined false (execute limit k s)) → Confined false (executeAll limit n ss)
  | 0, _, _ => .starved
  | _ + 1, [], _ => .pure _
  | n + 1, s :: ss, each => by
    refine (each s List.mem_cons_self n).bind fun flow => ?_
    cases flow with
    | normal => exact executeAll_confined_of_each n fun s mem => each s (List.mem_cons_of_mem _ mem)
    | returned v => exact .pure _

end Run

/-! Environments that bind nothing -/

/-- There is such an environment, and it binds nothing. -/
structure Machine.Vacant (m : Machine) (e : Nat) : Prop where
  lt : e < m.environments.size
  none : ∀ x, m.environments.findHere? e x = none

theorem Machine.Vacant.of_confined {m m' : Machine} {e : Nat} (h : m.Vacant e) (confined : m.Confined own m')
    (other : own = true → e ≠ m.current) : m'.Vacant e := by
  refine ⟨Nat.lt_of_lt_of_le h.lt confined.size, fun x => ?_⟩
  have kept := confined.bound e h.lt other x
  rw [h.none] at kept
  exact Option.isNone_iff_eq_none.mp (by rw [← Option.not_isSome, kept]; rfl)

namespace Run

/-- A block whose statements bind nothing where they stand has an environment that binds nothing. -/
theorem block_vacant {body : List Stmt} (each : ∀ s ∈ body, ∀ k, Confined false (execute limit k s))
    {m m' : Machine} (ended : (execute limit n (.block body) m).state? = some m') :
    m'.Vacant m.environments.size := by
  cases n with
  | zero => cases ended
  | succ n =>
    obtain ⟨m₁, inside, rfl⟩ := ended_within ended
    have entered : Machine.Vacant
        { m with environments := m.environments.push (some m.current) [], current := m.environments.size }
        m.environments.size :=
      ⟨Nat.lt_of_lt_of_eq (Nat.lt_succ_self _) (Forest.size_push _ _ _).symm,
        fun x => Forest.findHere?_push_size _ _ _ x⟩
    have vacant := entered.of_confined (executeAll_confined_of_each n each _ m₁ inside) nofun
    exact ⟨vacant.lt, vacant.none⟩

/-- An environment that binds nothing goes on to do so, until statements run in it again. -/
theorem execute_vacant {s : Stmt} {m m' : Machine} {e : Nat} (vacant : m.Vacant e) (other : e ≠ m.current)
    (ended : (execute limit n s m).state? = some m') : m'.Vacant e :=
  vacant.of_confined ((confinedAll limit n).execute s m m' ended) fun _ => other

end Run

end LoxLang
