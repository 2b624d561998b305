import LoxLang.Proofs.Receivers.Sessions
import LoxLang.Proofs.Running.Building
/-!
Faults of runs belong to expressions. `Expr.Raises` says which faults an expression can raise itself, each
at a token of its own; what its parts raise is not among them.

What is proved: whenever a run fails with a fault, it came by an expression that raises it
(`Watched.blames_interpret`). `Watched.Blames` says so of a watched run, up to faults that are left for what
is around it, and is closed under the ways runs are put together.
-/
namespace LoxLang

variable {α β : Type} {limit : Option Nat} {n : Nat}

/-- The expression itself can raise the fault, at the token that it keeps for that. -/
def Expr.Raises (error : RuntimeError) : Expr → Prop
  | .unary op _ => error.token = op ∧ ∃ v : Value, v.unary? op.kind = .error error.fault
  | .binary _ op _ => error.token = op ∧ ∃ v w : Value, v.binary? op.kind w = .error error.fault
  | .variable name _ | .this name _ | .assign name _ _ =>
    error.token = name ∧ error.fault = .undefinedVariable
  | .call _ paren _ =>
    error.token = paren ∧ (error.fault = .notCallable ∨ error.fault = .stackOverflow ∨
      ∃ expected given, error.fault = .arity expected given)
  | .property _ name =>
    error.token = name ∧ (error.fault = .noProperties ∨ error.fault = .undefinedProperty)
  | .setProperty _ name _ => error.token = name ∧ error.fault = .noFields
  | _ => False

/-! Steps that note nothing -/

namespace Run

def Faults (own : RuntimeError → Prop) (r : Run α) : Prop :=
  ∀ m error m', r m = .fail (.runtime error) m' → own error

namespace Faults

variable {own : RuntimeError → Prop} {r : Run α} {next : α → Run β}

theorem of_step (h : ∀ m, ∃ a m', r m = .ok a m') : Faults own r := by
  intro m error m' failed
  obtain ⟨a, m₁, ok⟩ := h m
  rw [ok] at failed
  cases failed

theorem starved : Faults own (Run.starved : Run α) := by
  rintro m error m' ⟨⟩

theorem pure (a : α) : Faults own (pure a : Run α) := of_step fun m => ⟨a, m, rfl⟩

theorem define (name : String) (v : Value) : Faults own (define name v) :=
  of_step fun _ => ⟨_, _, rfl⟩

theorem fault {token : Token} {f : RuntimeFault} (h : own ⟨f, token⟩) :
    Faults own (fault token f : Run α) := by
  rintro m error m' ⟨⟩
  exact h

theorem lift {token : Token} {result : Except RuntimeFault α}
    (h : ∀ f, result = .error f → own ⟨f, token⟩) : Faults own (lift token result) := by
  intro m error m' failed
  cases result with
  | ok a => cases failed
  | error f =>
    cases failed
    exact h f rfl

theorem bind (h : Faults own r) (h' : ∀ a, Faults own (next a)) : Faults own (r >>= next) := by
  intro m error m' failed
  rw [bind_apply] at failed
  cases first : r m with
  | ok a m₁ =>
    rw [first] at failed
    exact h' a m₁ error m' failed
  | fail e m₁ =>
    rw [first] at failed
    cases failed
    exact h m error m' first
  | starved =>
    rw [first] at failed
    cases failed

theorem within (environment : Nat) (h : Faults own r) : Faults own (within environment r) := by
  intro m error m' failed
  unfold Run.within at failed
  dsimp only at failed
  cases inside : r { m with current := environment } with
  | fail e m₁ =>
    rw [inside] at failed
    cases failed
    exact h _ error m₁ inside
  | ok a m₁ =>
    rw [inside] at failed
    cases failed
  | starved =>
    rw [inside] at failed
    cases failed

theorem lookUp {name : Token} {depth : Option Nat} (h : own ⟨.undefinedVariable, name⟩) :
    Faults own (lookUp name depth) := by
  intro m error m' failed
  unfold Run.lookUp at failed
  dsimp only at failed
  cases depth <;> (split at failed <;> cases failed) <;> exact h

theorem assign {name : Token} {depth : Option Nat} {v : Value} (h : own ⟨.undefinedVariable, name⟩) :
    Faults own (assign name depth v) := by
  intro m error m' failed
  unfold Run.assign at failed
  dsimp only at failed
  cases depth <;> (split at failed <;> cases failed) <;> exact h

theorem writeLine (text : String) : Faults own (writeLine text) := by
  intro m error m' failed
  unfold Run.writeLine at failed
  split at failed <;> cases failed

theorem flush : Faults own Run.flush := by
  intro m error m' failed
  unfold Run.flush at failed
  split at failed <;> cases failed

theorem builds : Builds fun r => Faults own r where
  pure := pure
  bind := bind
  within := within
  newId := of_step fun _ => ⟨_, _, rfl⟩
  current := of_step fun _ => ⟨_, _, rfl⟩
  newEnvironment _ _ := of_step fun _ => ⟨_, _, rfl⟩
  field? _ _ := of_step fun _ => ⟨_, _, rfl⟩
  writeLine := writeLine
  readClock := of_step fun _ => ⟨_, _, rfl⟩

end Faults

end Run

/-! Watched runs -/

/-- The run came by an expression that raises the fault. -/
def Log.Blames (g : Log) (error : RuntimeError) : Prop :=
  ∃ p e m, .reached p (.expression e) m ∈ g.marks ∧ e.Raises error

namespace Watched

/-- What was noted stays noted; and if the run fails with a fault that is not left for what is around it,
it came by an expression that raises the fault. -/
structure Blames (own : RuntimeError → Prop) (w : Watched α) : Prop where
  notes : ∀ g m, g.marks ⊆ (w g m).2.marks
  raised : ∀ g m error m', (w g m).1 = .fail (.runtime error) m' →
    own error ∨ (w g m).2.Blames error

namespace Blames

variable {own own' : RuntimeError → Prop} {w : Watched α} {next : α → Watched β}

theorem imp (h : Blames own w) (imp : ∀ error, own error → own' error) : Blames own' w :=
  ⟨h.notes, fun g m error m' failed => (h.raised g m error m' failed).imp_left (imp error)⟩

theorem closed (h : Blames (fun _ => False) w) : Blames own w := h.imp fun _ => False.elim

theorem silent {r : Run α} (erases : Erases w r) (silent : w.Silent) (faults : r.Faults own) :
    Blames own w where
  notes g m := by
    rw [silent g m]
    exact List.Subset.refl g.marks
  raised g m error m' failed := .inl (faults m error m' ((erases g m).symm.trans failed))

theorem lift {r : Run α} (faults : r.Faults own) : Blames own (lift r) :=
  silent (.lift r) (.lift r) faults

theorem pure (a : α) : Blames own (pure a : Watched α) := lift (.pure a)

theorem bind (h : Blames own w) (h' : ∀ a, Blames own (next a)) : Blames own (w >>= next) := by
  constructor
  · intro g m
    have first := h.notes g m
    rcases bind_cases w next g m with
      ⟨a, m₁, g₁, eq, rest⟩ | ⟨f, m₁, g₁, eq, rest⟩ | ⟨g₁, eq, rest⟩
    · rw [eq] at first
      rw [rest]
      exact List.Subset.trans first ((h' a).notes g₁ m₁)
    · rw [eq] at first
      rw [rest]
      exact first
    · rw [eq] at first
      rw [rest]
      exact first
  · intro g m error m' failed
    have first := h.raised g m error m'
    rcases bind_cases w next g m with
      ⟨a, m₁, g₁, eq, rest⟩ | ⟨f, m₁, g₁, eq, rest⟩ | ⟨g₁, eq, rest⟩
    · rw [rest] at failed ⊢
      exact (h' a).raised g₁ m₁ error m' failed
    · rw [rest] at failed ⊢
      rw [eq] at first
      cases failed
      exact first rfl
    · rw [rest] at failed
      cases failed

theorem within (h : Blames own w) (environment : Nat) : Blames own (within environment w) := by
  have eq (g : Log) (m : Machine) : (Watched.within environment w g m).2 =
      (w g { m with current := environment }).2 := by
    unfold Watched.within
    rcases w g { m with current := environment } with ⟨_ | _ | _, _⟩ <;> rfl
  constructor
  · intro g m
    rw [eq]
    exact h.notes g _
  · intro g m error m' failed
    rw [eq]
    have inside := h.raised g { m with current := environment } error
    unfold Watched.within at failed
    dsimp only at failed
    cases ran : w g { m with current := environment } with
    | mk outcome g₁ =>
    rw [ran] at failed inside
    cases outcome with
    | ok a m₁ => cases failed
    | fail f m₁ =>
      cases failed
      exact inside m₁ rfl
    | starved => cases failed

theorem asCall {paren : Token} (h : Blames own w) (overflow : own ⟨.stackOverflow, paren⟩) :
    Blames own (asCall limit paren w) := by
  constructor
  · intro g m
    have inside := h.notes g { m with callDepth := m.callDepth + 1 }
    unfold Watched.asCall
    split
    · exact List.Subset.refl g.marks
    · cases ran : w g { m with callDepth := m.callDepth + 1 } with
      | mk outcome g₁ =>
      rw [ran] at inside
      cases outcome <;> exact inside
  · intro g m error m' failed
    have inside := h.raised g { m with callDepth := m.callDepth + 1 } error
    unfold Watched.asCall at failed ⊢
    split at failed
    · cases failed
      exact .inl overflow
    · rename_i allowed
      rw [if_neg allowed]
      cases ran : w g { m with callDepth := m.callDepth + 1 } with
      | mk outcome g₁ =>
      rw [ran] at failed inside
      cases outcome with
      | ok a m₁ => cases failed
      | fail f m₁ =>
        cases failed
        exact inside m₁ rfl
      | starved => cases failed

theorem access {p : Site} {name : Token} {depth : Option Nat} : Blames own (access p name depth) :=
  ⟨fun _ _ => List.subset_cons_self _ _, fun _ _ _ _ failed => nomatch failed⟩

theorem originOf {id : Nat} : Blames own (originOf id) :=
  ⟨fun _ _ => List.Subset.refl _, fun _ _ _ _ failed => nomatch failed⟩

theorem reach {p : Site} {part : Part} {next : Unit → Watched α} (h : Blames own (next ())) :
    Blames own (reach p part >>= next) :=
  bind ⟨fun _ _ => List.subset_cons_self _ _, fun _ _ _ _ failed => nomatch failed⟩ fun _ => h

/-- What is left for an expression, the run came by. -/
theorem node {p : Site} {e : Expr} {next : Unit → Watched α}
    (h : Blames (fun error => e.Raises error) (next ())) :
    Blames own (Watched.reach p (.expression e) >>= next) := by
  refine ⟨(reach h).notes, fun g m error m' failed => .inr ?_⟩
  let g' : Log := { g with marks := .reached p (.expression e) m :: g.marks }
  rcases h.raised g' m error m' failed with own | inside
  · exact ⟨p, e, m, h.notes g' m List.mem_cons_self, own⟩
  · exact inside

end Blames

section

variable (limit : Option Nat)

/-- At some depth, every fault that a run fails with belongs to an expression it came by. -/
structure BlamesAll (n : Nat) : Prop where
  evaluate (p : Site) (e : Expr) : Blames (fun _ => False) (evaluate limit n p e)
  evaluateAll (p : Site) (es : List Expr) : Blames (fun _ => False) (evaluateAll limit n p es)
  execute (p : Site) (s : Stmt) : Blames (fun _ => False) (execute limit n p s)
  executeAll (p : Site) (ss : List Stmt) : Blames (fun _ => False) (executeAll limit n p ss)
  declareAll (p : Site) (ds : List Declarator) : Blames (fun _ => False) (declareAll limit n p ds)
  call (c : Callable) (arguments : List Value) : Blames (fun _ => False) (call limit n c arguments)

variable {limit}

theorem evaluate_blames (h : BlamesAll limit n) (p : Site) (e : Expr) :
    Blames (fun _ => False) (evaluate limit (n + 1) p e) := by
  -- What the expression raises itself is left for its mark; its parts leave nothing for it.
  refine .node ?_
  cases e with
  | literal value => exact .pure _
  | group inner => exact (h.evaluate _ _).closed
  | unary op right =>
    refine (h.evaluate _ _).closed.bind fun v => .lift (.lift fun f failed => ?_)
    exact ⟨rfl, v, failed⟩
  | binary left op right =>
    refine (h.evaluate _ _).closed.bind fun v => (h.evaluate _ _).closed.bind fun u => ?_
    exact .lift (.lift fun f failed => ⟨rfl, v, u, failed⟩)
  | logical left op right =>
    refine (h.evaluate _ _).closed.bind fun left => ?_
    split
    · exact .pure _
    · exact (h.evaluate _ _).closed
  | ternary condition whenTrue whenFalse =>
    refine (h.evaluate _ _).closed.bind fun condition => ?_
    split
    · exact (h.evaluate _ _).closed
    · exact (h.evaluate _ _).closed
  | «variable» name depth => exact Blames.access.bind fun _ => .lift (.lookUp ⟨rfl, rfl⟩)
  | «this» keyword depth => exact Blames.access.bind fun _ => .lift (.lookUp ⟨rfl, rfl⟩)
  | assign name value depth =>
    exact (h.evaluate _ _).closed.bind fun _ => Blames.access.bind fun _ =>
      (Blames.lift (.assign ⟨rfl, rfl⟩)).bind fun _ => .pure _
  | call callee paren arguments =>
    refine (h.evaluate _ _).closed.bind fun callee => (h.evaluateAll _ _).closed.bind fun arguments => ?_
    cases callee with
    | callable c =>
      dsimp only
      split
      · exact (h.call _ _).closed.asCall ⟨rfl, .inr (.inl rfl)⟩
      · exact .lift (.fault ⟨rfl, .inr (.inr ⟨_, _, rfl⟩)⟩)
    | _ => exact .lift (.fault ⟨rfl, .inl rfl⟩)
  | property object name =>
    refine (h.evaluate _ _).closed.bind fun v => .silent (.member v name) (.member v name) ?_
    exact Run.Faults.builds.member v (.fault ⟨rfl, .inr rfl⟩) (.fault ⟨rfl, .inl rfl⟩)
  | setProperty object name value =>
    refine (h.evaluate _ _).closed.bind fun object => ?_
    cases object with
    | object id c =>
      exact (h.evaluate _ _).closed.bind fun _ =>
        (Blames.lift (.of_step fun _ => ⟨_, _, rfl⟩)).bind fun _ => .pure _
    | _ => exact .lift (.fault ⟨rfl, rfl⟩)
  | lambda code =>
    exact (Blames.silent (.newClosure _ _ _) (.newClosure _ _ _)
      (Run.Faults.builds.newClosure code false)).bind fun _ => .pure _

theorem evaluateAll_blames (h : BlamesAll limit n) (p : Site) (es : List Expr) :
    Blames (fun _ => False) (evaluateAll limit (n + 1) p es) := by
  cases es with
  | nil => exact .pure _
  | cons e es => exact (h.evaluate _ _).bind fun _ => (h.evaluateAll _ _).bind fun _ => .pure _

theorem execute_blames (h : BlamesAll limit n) (p : Site) (s : Stmt) :
    Blames (fun _ => False) (execute limit (n + 1) p s) := by
  refine .reach ?_
  cases s with
  | expression value => exact (h.evaluate _ _).bind fun _ => .pure _
  | print value =>
    exact (h.evaluate _ _).bind fun _ => (Blames.lift (.writeLine _)).bind fun _ => .pure _
  | declare d => exact h.declareAll _ _
  | declareAll ds => exact h.declareAll _ _
  | block body =>
    exact (Blames.lift Run.Faults.builds.current).bind fun outer =>
      (Blames.lift (Run.Faults.builds.newEnvironment outer [])).bind fun _ => (h.executeAll _ _).within _
  | conditional condition whenTrue whenFalse =>
    refine (h.evaluate _ _).bind fun condition => ?_
    split
    · exact h.execute _ _
    · cases whenFalse with
      | some s => exact h.execute _ _
      | none => exact .pure _
  | loop condition body =>
    refine (h.evaluate _ _).bind fun again => ?_
    split
    · refine (h.execute _ _).bind fun flow => ?_
      cases flow with
      | normal => exact h.execute _ _
      | returned v => exact .pure _
    · exact .pure _
  | declareFunction code =>
    exact (Blames.silent (.newClosure _ _ _) (.newClosure _ _ _)
      (Run.Faults.builds.newClosure code false)).bind fun _ => (Blames.lift (.define _ _)).bind fun _ => .pure _
  | returns keyword value =>
    cases value with
    | none => exact .pure _
    | some value => exact (h.evaluate _ _).bind fun _ => .pure _
  | declareClass name methods statics =>
    exact (Blames.silent (.newClass _ _ _ _) (.newClass _ _ _ _)
      (Run.Faults.builds.newClass _ methods statics)).bind fun _ => (Blames.lift (.define _ _)).bind fun _ => .pure _

theorem executeAll_blames (h : BlamesAll limit n) (p : Site) (ss : List Stmt) :
    Blames (fun _ => False) (executeAll limit (n + 1) p ss) := by
  cases ss with
  | nil => exact .pure _
  | cons s ss =>
    refine (h.execute _ _).bind fun flow => ?_
    cases flow with
    | normal => exact h.executeAll _ _
    | returned v => exact .pure _

theorem declareAll_blames (h : BlamesAll limit n) (p : Site) (ds : List Declarator) :
    Blames (fun _ => False) (declareAll limit (n + 1) p ds) := by
  cases ds with
  | nil => exact .pure _
  | cons d ds =>
    -- Stated once: the value is `nil` in one case and comes from an expression in the other.
    have define (v : Value) : Blames (fun _ => False) (Watched.lift (Run.define d.name.lexeme v)) :=
      .lift (.define _ _)
    obtain ⟨name, initial⟩ := d
    cases initial with
    | none => exact (Blames.pure _).bind fun v => (define v).bind fun _ => h.declareAll _ _
    | some e => exact (h.evaluate _ _).bind fun v => (define v).bind fun _ => h.declareAll _ _

theorem call_blames (h : BlamesAll limit n) (c : Callable) (arguments : List Value) :
    Blames (fun _ => False) (call limit (n + 1) c arguments) := by
  cases c with
  | function f =>
    refine Blames.originOf.bind fun p =>
      (Blames.lift (Run.Faults.builds.newEnvironment _ _)).bind fun scope => ?_
    refine ((h.executeAll _ _).within _).bind fun flow => ?_
    split
    · exact .lift (.of_step fun _ => ⟨_, _, rfl⟩)
    · exact .pure _
  | native native => exact .lift (Run.Faults.builds.callNative native arguments)
  | ofClass c =>
    refine (Blames.lift (.of_step fun _ => ⟨_, _, rfl⟩)).bind fun id => ?_
    cases c.method? Class.initializerName with
    | some f =>
      exact (Blames.silent (.bindThis _ _) (.bindThis _ _) (Run.Faults.builds.bindThis f _)).bind fun _ =>
        (h.call _ _).bind fun _ => .pure _
    | none => exact .pure _

/-- Every fault that a run fails with belongs to an expression it came by. -/
theorem blamesAll (limit : Option Nat) : ∀ n, BlamesAll limit n
  | 0 => ⟨fun _ _ => .lift .starved, fun _ _ => .lift .starved, fun _ _ => .lift .starved,
      fun _ _ => .lift .starved, fun _ _ => .lift .starved, fun _ _ => .lift .starved⟩
  | n + 1 =>
    have h := blamesAll limit n
    ⟨evaluate_blames h, evaluateAll_blames h, execute_blames h, executeAll_blames h,
      declareAll_blames h, call_blames h⟩

theorem executeProgram_blames (limit : Option Nat) (n : Nat) : ∀ (p : Site) (ss : List Stmt),
    Blames (fun _ => False) (executeProgram limit n p ss)
  | _, [] => .pure ()
  | _, s :: ss =>
    ((blamesAll limit n).execute _ s).bind fun _ => executeProgram_blames limit n _ ss

/-- A program that fails with a fault came by an expression that raises the fault. -/
theorem blames_interpret {p : Site} {program : List Stmt} {g : Log} {m m' : Machine}
    {error : RuntimeError}
    (failed : (interpret limit n p program g m).1 = .fail (.runtime error) m') :
    (interpret limit n p program g m).2.Blames error := by
  have raised := (executeProgram_blames limit n p program).raised g m error
  have flushing : Run.Faults (fun _ => False) Run.flush := .flush
  unfold interpret at failed ⊢
  cases ran : executeProgram limit n p program g m with
  | mk outcome g₁ =>
  rw [ran] at failed raised
  cases outcome with
  | ok _ m₁ => exact (flushing m₁ error m' failed).elim
  | fail f m₁ =>
    dsimp only at failed ⊢
    cases flushed : Run.flush m₁ with
    | ok _ m₂ =>
      rw [flushed] at failed
      cases failed
      exact (raised m₁ rfl).resolve_left id
    | fail f' m₂ =>
      rw [flushed] at failed
      cases failed
      exact (flushing m₁ error m' flushed).elim
    | starved =>
      rw [flushed] at failed
      cases failed
  | starved => cases failed

end

end Watched

end LoxLang
