import LoxLang.Session
import LoxLang.Proofs.Running.World
/-!
More depth changes no answer. A run that has come to an end within some depth comes to the same end
within every greater one (`Run.interpret_deepens`, `Session.run_deepens`), so that what is said of one
depth at which a run ends is said of the run.

`Run.Deepens` compares two runs that differ in the depth they are given. It is closed under the ways runs
are put together, and the induction is on the lesser of the two depths.
-/
namespace LoxLang

variable {α β : Type} {limit : Option Nat} {n k : Nat}

namespace Run

/-- Where the first run ends, the second one comes to the same end. -/
def Deepens (r r' : Run α) : Prop := ∀ m, r m = .starved ∨ r' m = r m

namespace Deepens

variable {r r' : Run α} {next next' : α → Run β}

theorem refl (r : Run α) : Deepens r r := fun _ => .inr rfl

theorem starved : Deepens Run.starved r := fun _ => .inl rfl

theorem bind (h : Deepens r r') (h' : ∀ a, Deepens (next a) (next' a)) :
    Deepens (r >>= next) (r' >>= next') := by
  intro m
  rw [bind_apply, bind_apply]
  rcases h m with none | same
  · rw [none]
    exact .inl rfl
  · rw [same]
    cases r m with
    | ok a m' => exact h' a m'
    | fail e m' => exact .inr rfl
    | starved => exact .inl rfl

theorem after (r : Run α) (h : ∀ a, Deepens (next a) (next' a)) :
    Deepens (r >>= next) (r >>= next') := (refl r).bind h

theorem within (e : Nat) (h : Deepens r r') : Deepens (within e r) (within e r') := by
  intro m
  unfold Run.within
  rcases h { m with current := e } with none | same
  · rw [none]
    exact .inl rfl
  · rw [same]
    exact .inr rfl

theorem asCall (paren : Token) (h : Deepens r r') :
    Deepens (asCall limit paren r) (asCall limit paren r') := by
  intro m
  unfold Run.asCall
  split
  · exact .inr rfl
  · rcases h { m with callDepth := m.callDepth + 1 } with none | same
    · rw [none]
      exact .inl rfl
    · rw [same]
      exact .inr rfl

end Deepens

/-- What is proved of all runs of two depths at once. -/
structure DeepensAll (limit : Option Nat) (n k : Nat) : Prop where
  evaluate : ∀ e, Deepens (Run.evaluate limit n e) (Run.evaluate limit k e)
  evaluateAll : ∀ es, Deepens (Run.evaluateAll limit n es) (Run.evaluateAll limit k es)
  execute : ∀ s, Deepens (Run.execute limit n s) (Run.execute limit k s)
  executeAll : ∀ ss, Deepens (Run.executeAll limit n ss) (Run.executeAll limit k ss)
  declareAll : ∀ ds, Deepens (Run.declareAll limit n ds) (Run.declareAll limit k ds)
  call : ∀ c vs, Deepens (Run.call limit n c vs) (Run.call limit k c vs)

theorem evaluate_deepens (ih : DeepensAll limit n k) (e : Expr) :
    Deepens (evaluate limit (n + 1) e) (evaluate limit (k + 1) e) := by
  cases e with
  | literal value => exact .refl _
  | group inner => exact ih.evaluate inner
  | unary op right =>
    apply (ih.evaluate right).bind
    intro v
    exact .refl _
  | binary left op right =>
    apply (ih.evaluate left).bind
    intro v
    apply (ih.evaluate right).bind
    intro w
    exact .refl _
  | logical left op right =>
    apply (ih.evaluate left).bind
    intro v
    -- Both runs have the same left value, so they agree on whether there is more to evaluate.
    split
    · exact .refl _
    · exact ih.evaluate right
  | ternary condition whenTrue whenFalse =>
    apply (ih.evaluate condition).bind
    intro v
    split
    · exact ih.evaluate whenTrue
    · exact ih.evaluate whenFalse
  | «variable» name depth => exact .refl _
  | «this» keyword depth => exact .refl _
  | assign name value depth =>
    apply (ih.evaluate value).bind
    intro v
    exact .refl _
  | call callee paren arguments =>
    apply (ih.evaluate callee).bind
    intro v
    apply (ih.evaluateAll arguments).bind
    intro vs
    cases v with
    | callable c =>
      dsimp only
      split
      · exact (ih.call c vs).asCall paren
      · exact .refl _
    | _ => exact .refl _
  | property object name =>
    apply (ih.evaluate object).bind
    intro v
    exact .refl _
  | setProperty object name value =>
    apply (ih.evaluate object).bind
    intro v
    cases v with
    | object i c =>
      apply (ih.evaluate value).bind
      intro w
      exact .refl _
    | _ => exact .refl _
  | lambda code => exact .refl _

theorem evaluateAll_deepens (ih : DeepensAll limit n k) (es : List Expr) :
    Deepens (evaluateAll limit (n + 1) es) (evaluateAll limit (k + 1) es) := by
  cases es with
  | nil => exact .refl _
  | cons e es =>
    apply (ih.evaluate e).bind
    intro v
    apply (ih.evaluateAll es).bind
    intro vs
    exact .refl _

theorem declareAll_deepens (ih : DeepensAll limit n k) (ds : List Declarator) :
    Deepens (declareAll limit (n + 1) ds) (declareAll limit (k + 1) ds) := by
  cases ds with
  | nil => exact .refl _
  | cons d ds =>
    obtain ⟨name, initial⟩ := d
    -- What is bound is evaluated within the depth; that it is bound takes none.
    have others : ∀ v, Deepens
        (define name.lexeme v >>= fun _ => declareAll limit n ds)
        (define name.lexeme v >>= fun _ => declareAll limit k ds) := by
      intro v
      apply Deepens.after
      intro _
      exact ih.declareAll ds
    cases initial with
    | none => exact .after _ others
    | some e => exact (ih.evaluate e).bind others

theorem execute_deepens (ih : DeepensAll limit n k) (s : Stmt) :
    Deepens (execute limit (n + 1) s) (execute limit (k + 1) s) := by
  cases s with
  | expression value =>
    apply (ih.evaluate value).bind
    intro v
    exact .refl _
  | print value =>
    apply (ih.evaluate value).bind
    intro v
    exact .refl _
  | declare d => exact ih.declareAll [d]
  | declareAll ds => exact ih.declareAll ds
  | block body =>
    apply Deepens.after
    intro here
    apply Deepens.after
    intro scope
    exact (ih.executeAll body).within scope
  | conditional condition whenTrue whenFalse =>
    apply (ih.evaluate condition).bind
    intro v
    split
    · exact ih.execute whenTrue
    · cases whenFalse with
      | none => exact .refl _
      | some whenFalse => exact ih.execute whenFalse
  | loop condition body =>
    apply (ih.evaluate condition).bind
    intro v
    split
    · apply (ih.execute body).bind
      intro flow
      -- The loop is run again, one unit of depth below.
      cases flow with
      | normal => exact ih.execute (.loop condition body)
      | returned v => exact .refl _
    · exact .refl _
  | declareFunction code => exact .refl _
  | returns keyword value =>
    cases value with
    | none => exact .refl _
    | some value =>
      apply (ih.evaluate value).bind
      intro v
      exact .refl _
  | declareClass name methods statics => exact .refl _

theorem executeAll_deepens (ih : DeepensAll limit n k) (ss : List Stmt) :
    Deepens (executeAll limit (n + 1) ss) (executeAll limit (k + 1) ss) := by
  cases ss with
  | nil => exact .refl _
  | cons s ss =>
    apply (ih.execute s).bind
    intro flow
    cases flow with
    | normal => exact ih.executeAll ss
    | returned v => exact .refl _

theorem call_deepens (ih : DeepensAll limit n k) (c : Callable) (vs : List Value) :
    Deepens (call limit (n + 1) c vs) (call limit (k + 1) c vs) := by
  cases c with
  | function f =>
    apply Deepens.after
    intro scope
    apply ((ih.executeAll f.code.body).within scope).bind
    intro flow
    exact .refl _
  | native native => exact .refl _
  | ofClass c =>
    apply Deepens.after
    intro i
    cases c.method? Class.initializerName with
    | none => exact .refl _
    | some f =>
      -- The initializer is called one unit of depth below; what it returns is dropped.
      apply Deepens.after
      intro bound
      apply (ih.call (.function bound) vs).bind
      intro v
      exact .refl _

/-- By induction on the lesser depth; the other one is given up in step with it. -/
theorem deepens_all (limit : Option Nat) : ∀ {n k : Nat}, n ≤ k → DeepensAll limit n k := by
  intro n
  induction n with
  | zero =>
    intro k _
    exact ⟨fun _ => .starved, fun _ => .starved, fun _ => .starved, fun _ => .starved,
      fun _ => .starved, fun _ _ => .starved⟩
  | succ n ih =>
    intro k le
    obtain ⟨j, rfl⟩ : ∃ j, k = j + 1 := ⟨k - 1, by omega⟩
    have ih := ih (Nat.le_of_succ_le_succ le)
    exact ⟨evaluate_deepens ih, evaluateAll_deepens ih, execute_deepens ih, executeAll_deepens ih,
      declareAll_deepens ih, call_deepens ih⟩

theorem executeProgram_deepens (limit : Option Nat) (le : n ≤ k) (program : List Stmt) :
    Deepens (executeProgram limit n program) (executeProgram limit k program) := by
  induction program with
  | nil => exact .refl _
  | cons s ss ih =>
    apply ((deepens_all limit le).execute s).bind
    intro flow
    exact ih

theorem interpret_deepens (limit : Option Nat) (le : n ≤ k) (program : List Stmt) :
    Deepens (interpret limit n program) (interpret limit k program) := by
  intro m
  unfold interpret
  rcases executeProgram_deepens limit le program m with none | same
  · rw [none]
    exact .inl rfl
  · rw [same]
    exact .inr rfl

end Run

namespace Session

variable {s : Session} {source : String} {r : Status × Session}

theorem execute_deepens {program : List Stmt} (le : n ≤ k)
    (ran : s.execute n program = some r) : s.execute k program = some r := by
  unfold execute at ran ⊢
  dsimp only [report] at ran ⊢
  split at ran
  · rename_i clean
    rw [if_pos clean]
    rcases Run.interpret_deepens (some maxCallDepth) le (Resolution.ofProgram program).1 s.machine
      with none | same
    · rw [none] at ran
      cases ran
    · rw [same]
      exact ran
  · rename_i faulty
    rw [if_neg faulty]
    exact ran

/-- A source that was run is run the same within a greater depth. -/
theorem run_deepens (le : n ≤ k) (ran : s.run n source = some r) : s.run k source = some r := by
  unfold run finish at ran ⊢
  dsimp only at ran ⊢
  split at ran
  · exact ran
  · split at ran
    · rename_i clean
      rw [if_pos clean]
      exact execute_deepens le ran
    · rename_i faulty
      rw [if_neg faulty]
      exact ran

end Session

end LoxLang
