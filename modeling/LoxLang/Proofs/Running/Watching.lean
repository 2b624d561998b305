import LoxLang.Proofs.Running.Building
import LoxLang.Proofs.Running.Watched
/-!
What holds of every watched run. Something may be said of a watched run, and of the names that it may bind
where it starts, that is true of each step of a machine, passes from what a node does to the node, and is kept
by the ways in which watched runs are put together. It then holds of the evaluation of every expression and of
the execution of every statement, wherever they stand and whatever depth they are given (`Watched.every`), and
of every program (`Watched.executeProgram_every`).
-/
namespace LoxLang

/-- The names that a statement binds where it stands, be it in a branch or as the body of a loop. -/
def Stmt.binds : Stmt → List String
  | .declare d => [d.name.lexeme]
  | .declareAll ds => ds.map (·.name.lexeme)
  | .declareFunction code => [code.name.lexeme]
  | .declareClass name _ _ => [name.lexeme]
  | .conditional _ whenTrue none => binds whenTrue
  | .conditional _ whenTrue (some whenFalse) => binds whenTrue ++ binds whenFalse
  | .loop _ body => binds body
  | _ => []

namespace Watched

variable {α β : Type}

/-- What is said of a watched run, and of the names that it may bind where it starts, holds of steps and notes,
and is kept when watched runs are put together. A run that goes on in an environment of its own binds names
there only. -/
structure Composes (limit : Option Nat) (P : List String → {α : Type} → Watched α → Prop) : Prop where
  pure {α : Type} (a : α) : P [] (pure a : Watched α)
  more {α : Type} {w : Watched α} {names names' : List String} : names ⊆ names' → P names w → P names' w
  bind {α β : Type} {w : Watched α} {next : α → Watched β} {names : List String} :
    P names w → (∀ a, P names (next a)) → P names (w >>= next)
  within {α : Type} {w : Watched α} (environment : Nat) : P [] w → P [] (within environment w)
  inside {α : Type} {w : Watched α} {names : List String} (outer : Nat) (bindings : Bindings Value) :
    P names w →
      P [] (lift (Run.newEnvironment outer bindings) >>= fun scope => Watched.within scope w)
  asCall {α : Type} {w : Watched α} (paren : Token) : P [] w → P [] (asCall limit paren w)
  expression {n : Nat} {p : Site} {e : Expr} {rest : Watched Value} :
    (evaluate limit (n + 1) p e = reach p (.expression e) >>= fun _ => rest) → P [] rest →
      P [] (evaluate limit (n + 1) p e)
  statement {n : Nat} {p : Site} {s : Stmt} {rest : Watched Flow} :
    (execute limit (n + 1) p s = reach p (.statement s) >>= fun _ => rest) → P s.binds rest →
      P s.binds (execute limit (n + 1) p s)
  assignment {n : Nat} {p : Site} {name : Token} {value : Expr} {depth : Option Nat} :
    P [] (evaluate limit n (p.child 0) value) → P [] (evaluate limit (n + 1) p (.assign name value depth))
  access (p : Site) (name : Token) (depth : Option Nat) : P [] (access p name depth)
  noteOrigin (id : Nat) (p : Option Site) : P [] (noteOrigin id p)
  originOf (id : Nat) : P [] (originOf id)
  starved {α : Type} : P [] (lift Run.starved : Watched α)
  fault {α : Type} (token : Token) (f : RuntimeFault) : P [] (lift (Run.fault token f) : Watched α)
  newId : P [] (lift Run.newId)
  current : P [] (lift Run.current)
  newEnvironment (outer : Nat) (bindings : Bindings Value) : P [] (lift (Run.newEnvironment outer bindings))
  newInstance : P [] (lift Run.newInstance)
  define (name : String) (v : Value) : P [name] (lift (Run.define name v))
  lookUp (name : Token) (depth : Option Nat) : P [] (lift (Run.lookUp name depth))
  receiver (environment : Nat) : P [] (lift (Run.receiver environment))
  field? (id : Nat) (name : String) : P [] (lift (Run.field? id name))
  setField (id : Nat) (name : String) (v : Value) : P [] (lift (Run.setField id name v))
  writeLine (text : String) : P [] (lift (Run.writeLine text))
  readClock : P [] (lift Run.readClock)

theorem lift_within (environment : Nat) (r : Run α) :
    lift (Run.within environment r) = within environment (lift r) := by
  funext g m
  unfold lift within Run.within
  dsimp only
  cases r { m with current := environment } <;> rfl

theorem bind_assoc {γ : Type} (w : Watched α) (next : α → Watched β) (last : β → Watched γ) :
    w >>= next >>= last = w >>= fun a => next a >>= last := by
  funext g m
  show Watched.bind (Watched.bind w next) last g m =
    Watched.bind w (fun a => Watched.bind (next a) last) g m
  unfold Watched.bind
  rcases w g m with ⟨_ | _ | _, _⟩ <;> rfl

namespace Composes

variable {limit : Option Nat} {P : List String → {α : Type} → Watched α → Prop} {n : Nat} {names : List String}

theorem plain (h : Composes limit P) {w : Watched α} (binds : P [] w) : P names w :=
  h.more (List.nil_subset names) binds

theorem done (h : Composes limit P) (a : α) : P names (Pure.pure a : Watched α) := h.plain (h.pure a)

/-! Steps that are put together from others -/

theorem lift_ (h : Composes limit P) (token : Token) (r : Except RuntimeFault α) :
    P [] (lift (Run.lift token r)) := by
  cases r with
  | ok a => exact h.pure a
  | error f => exact h.fault token f

theorem builds (h : Composes limit P) : Run.Builds fun r => P [] (lift r) where
  pure := h.pure
  bind first next := by
    rw [lift_bind]
    exact h.bind first next
  within environment inside := by
    rw [lift_within]
    exact h.within environment inside
  newId := h.newId
  current := h.current
  newEnvironment := h.newEnvironment
  field? := h.field?
  writeLine := h.writeLine
  readClock := h.readClock

theorem newClosure (h : Composes limit P) (p : Site) (code : Function) (initializer : Bool) :
    P [] (newClosure p code initializer) :=
  h.bind (h.builds.newClosure code initializer) fun _ => h.bind (h.noteOrigin _ _) fun _ => h.pure _

theorem bindThis (h : Composes limit P) (f : Closure) (v : Value) : P [] (bindThis f v) :=
  h.bind (h.originOf _) fun _ => h.bind (h.builds.bindThis f v) fun _ =>
    h.bind (h.noteOrigin _ _) fun _ => h.pure _

theorem newClosures (h : Composes limit P) (initializer : String → Bool) : ∀ (p : Site) (fs : List Function),
    P [] (newClosures initializer p fs)
  | _, [] => h.pure []
  | p, _ :: fs => h.bind (h.newClosure _ _ _) fun _ =>
    h.bind (newClosures h initializer (p.child 1) fs) fun _ => h.pure _

theorem newClass (h : Composes limit P) (p : Site) (name : String) (methods statics : List Function) :
    P [] (newClass p name methods statics) := by
  refine h.bind (h.newClosures _ _ methods) fun methods => h.bind h.current fun outer => ?_
  refine h.bind (h.newEnvironment outer []) fun scope => ?_
  exact h.bind (h.within scope (h.newClosures _ _ statics)) fun statics => h.bind h.newId fun id => h.pure _

theorem property (h : Composes limit P) (id : Nat) (c : Class) (name : Token) :
    P [] (property id c name) := by
  refine h.bind (h.field? id name.lexeme) fun found => ?_
  cases found with
  | some v => exact h.pure v
  | none =>
    dsimp only
    split
    · exact h.bind (h.bindThis _ _) fun _ => h.pure _
    · exact h.pure _
    · exact h.fault _ _

theorem member (h : Composes limit P) (v : Value) (name : Token) : P [] (member v name) := by
  unfold Watched.member
  split
  · exact h.property _ _ _
  · split
    · exact h.pure _
    · exact h.fault _ _
  · exact h.fault _ _

end Composes

section

variable (limit : Option Nat) (P : List String → {α : Type} → Watched α → Prop)

/-- It holds of every watched run of one depth. Only statements bind names where they stand. -/
structure Every (n : Nat) : Prop where
  evaluate (p : Site) (e : Expr) : P [] (evaluate limit n p e)
  evaluateAll (p : Site) (es : List Expr) : P [] (evaluateAll limit n p es)
  execute (p : Site) (s : Stmt) : P s.binds (execute limit n p s)
  executeAll (p : Site) (ss : List Stmt) : P (ss.flatMap Stmt.binds) (executeAll limit n p ss)
  declareAll (p : Site) (ds : List Declarator) : P (ds.map (·.name.lexeme)) (declareAll limit n p ds)
  call (c : Callable) (arguments : List Value) : P [] (call limit n c arguments)

end

section

variable {limit : Option Nat} {P : List String → {α : Type} → Watched α → Prop} {n : Nat}

theorem evaluate_every (good : Composes limit P) (h : Every limit P n) (p : Site) (e : Expr) :
    P [] (evaluate limit (n + 1) p e) := by
  by_cases assigns : ∃ name value depth, e = .assign name value depth
  · obtain ⟨name, value, depth, rfl⟩ := assigns
    exact good.assignment (h.evaluate _ value)
  refine good.expression rfl ?_
  cases e with
  | literal value => exact good.pure _
  | group inner => exact h.evaluate _ inner
  | unary op right => exact good.bind (h.evaluate _ right) fun _ => good.lift_ _ _
  | binary left op right =>
    exact good.bind (h.evaluate _ left) fun _ => good.bind (h.evaluate _ right) fun _ => good.lift_ _ _
  | logical left op right =>
    refine good.bind (h.evaluate _ left) fun left => ?_
    split
    · exact good.pure _
    · exact h.evaluate _ right
  | ternary condition whenTrue whenFalse =>
    refine good.bind (h.evaluate _ condition) fun condition => ?_
    split
    · exact h.evaluate _ whenTrue
    · exact h.evaluate _ whenFalse
  | «variable» name depth => exact good.bind (good.access _ _ _) fun _ => good.lookUp _ _
  | «this» keyword depth => exact good.bind (good.access _ _ _) fun _ => good.lookUp _ _
  | assign name value depth => exact absurd ⟨name, value, depth, rfl⟩ assigns
  | call callee paren arguments =>
    refine good.bind (h.evaluate _ callee) fun callee => good.bind (h.evaluateAll _ arguments) fun values => ?_
    cases callee with
    | callable c =>
      dsimp only
      split
      · exact good.asCall paren (h.call c values)
      · exact good.fault _ _
    | _ => exact good.fault _ _
  | property object name => exact good.bind (h.evaluate _ object) fun object => good.member object name
  | setProperty object name value =>
    refine good.bind (h.evaluate _ object) fun object => ?_
    cases object with
    | object id c =>
      exact good.bind (h.evaluate _ value) fun value =>
        good.bind (good.setField id name.lexeme value) fun _ => good.pure _
    | _ => exact good.fault _ _
  | lambda code => exact good.bind (good.newClosure _ code false) fun _ => good.pure _

theorem evaluateAll_every (good : Composes limit P) (h : Every limit P n) (p : Site) (es : List Expr) :
    P [] (evaluateAll limit (n + 1) p es) := by
  cases es with
  | nil => exact good.pure _
  | cons e es =>
    exact good.bind (h.evaluate _ e) fun _ => good.bind (h.evaluateAll _ es) fun _ => good.pure _

/-- A statement that is run is noted first, and it holds of what follows. -/
theorem execute_starts (good : Composes limit P) (h : Every limit P n) (p : Site) (s : Stmt) :
    ∃ rest, (execute limit (n + 1) p s = reach p (.statement s) >>= fun _ => rest) ∧ P s.binds rest := by
  refine ⟨_, rfl, ?_⟩
  cases s with
  | expression value => exact good.bind (h.evaluate _ value) fun _ => good.pure _
  | print value =>
    exact good.bind (h.evaluate _ value) fun value => good.bind (good.writeLine value.text) fun _ => good.pure _
  | declare d => exact h.declareAll _ [d]
  | declareAll ds => exact h.declareAll _ ds
  | block body =>
    exact good.bind good.current fun outer => good.inside outer [] (h.executeAll _ body)
  | conditional condition whenTrue whenFalse =>
    refine good.bind (good.plain (h.evaluate _ condition)) fun condition => ?_
    cases whenFalse with
    | none =>
      dsimp only
      split
      · exact h.execute _ whenTrue
      · exact good.done _
    | some whenFalse =>
      dsimp only
      split
      · exact good.more (List.subset_append_left _ _) (h.execute _ whenTrue)
      · exact good.more (List.subset_append_right _ _) (h.execute _ whenFalse)
  | loop condition body =>
    refine good.bind (good.plain (h.evaluate _ condition)) fun again => ?_
    split
    · refine good.bind (h.execute _ body) fun flow => ?_
      cases flow with
      | normal => exact h.execute p (.loop condition body)
      | returned v => exact good.done _
    · exact good.done _
  | declareFunction code =>
    exact good.bind (good.plain (good.newClosure _ code false)) fun _ =>
      good.bind (good.define _ _) fun _ => good.done _
  | returns keyword value =>
    cases value with
    | none => exact good.pure _
    | some value => exact good.bind (h.evaluate _ value) fun _ => good.pure _
  | declareClass name methods statics =>
    exact good.bind (good.plain (good.newClass p _ methods statics)) fun _ =>
      good.bind (good.define _ _) fun _ => good.done _

theorem execute_every (good : Composes limit P) (h : Every limit P n) (p : Site) (s : Stmt) :
    P s.binds (execute limit (n + 1) p s) := by
  obtain ⟨rest, starts, holds⟩ := execute_starts good h p s
  exact good.statement starts holds

theorem executeAll_every (good : Composes limit P) (h : Every limit P n) (p : Site) (ss : List Stmt) :
    P (ss.flatMap Stmt.binds) (executeAll limit (n + 1) p ss) := by
  cases ss with
  | nil => exact good.pure _
  | cons s ss =>
    rw [List.flatMap_cons]
    refine good.bind (good.more (List.subset_append_left _ _) (h.execute _ s)) fun flow => ?_
    cases flow with
    | normal => exact good.more (List.subset_append_right _ _) (h.executeAll _ ss)
    | returned v => exact good.done _

theorem declareAll_every (good : Composes limit P) (h : Every limit P n) (p : Site) (ds : List Declarator) :
    P (ds.map (·.name.lexeme)) (declareAll limit (n + 1) p ds) := by
  cases ds with
  | nil => exact good.pure _
  | cons d ds =>
    obtain ⟨name, initial⟩ := d
    have bound (v : Value) : P (name.lexeme :: ds.map (·.name.lexeme)) (lift (Run.define name.lexeme v)) :=
      good.more (List.cons_subset_cons _ (List.nil_subset _)) (good.define _ v)
    have others : P (name.lexeme :: ds.map (·.name.lexeme)) (declareAll limit n (p.child 1) ds) :=
      good.more (List.subset_cons_self _ _) (h.declareAll _ ds)
    cases initial with
    | none => exact good.bind (good.done _) fun v => good.bind (bound v) fun _ => others
    | some e => exact good.bind (good.plain (h.evaluate _ e)) fun v => good.bind (bound v) fun _ => others

theorem call_every (good : Composes limit P) (h : Every limit P n) (c : Callable) (arguments : List Value) :
    P [] (call limit (n + 1) c arguments) := by
  cases c with
  | function f =>
    refine good.bind (good.originOf f.id) fun p => ?_
    have body := good.inside f.scope (Run.bindParams f.code.params arguments)
      (h.executeAll ((p.getD default).child 0) f.code.body)
    have value (flow : Flow) :
        P [] (if f.initializer then lift (Run.receiver f.scope) else Pure.pure flow.value) := by
      split
      · exact good.receiver _
      · exact good.pure _
    have whole := good.bind body value
    rwa [bind_assoc] at whole
  | native native => exact good.builds.callNative native arguments
  | ofClass c =>
    refine good.bind good.newInstance fun id => ?_
    cases c.method? Class.initializerName with
    | none => exact good.pure _
    | some f =>
      exact good.bind (good.bindThis f _) fun bound => good.bind (h.call (.function bound) arguments) fun _ =>
        good.pure _

/-- What holds of steps and notes, and is kept when watched runs are put together, holds of all. -/
theorem every (good : Composes limit P) : ∀ n, Every limit P n
  | 0 => by constructor <;> intros <;> exact good.plain good.starved
  | n + 1 =>
    have h := every good n
    ⟨evaluate_every good h, evaluateAll_every good h, execute_every good h, executeAll_every good h,
      declareAll_every good h, call_every good h⟩

theorem executeProgram_every (good : Composes limit P) (n : Nat) : ∀ (p : Site) (program : List Stmt),
    P (program.flatMap Stmt.binds) (executeProgram limit n p program)
  | _, [] => good.pure ()
  | p, s :: ss => by
    rw [List.flatMap_cons]
    exact good.bind (good.more (List.subset_append_left _ _) ((every good n).execute _ s)) fun _ =>
      good.more (List.subset_append_right _ _) (executeProgram_every good n (p.child 1) ss)

end

end Watched

end LoxLang
