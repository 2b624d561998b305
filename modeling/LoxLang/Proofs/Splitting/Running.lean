import LoxLang.Evaluation
import LoxLang.Proofs.Splitting.Machines
/-!
Runs on other lines. A run looks at lines when it fails and not before, so the run of a program whose
tokens were moved, on a machine whose tokens were moved by the same map, comes to what it came to, with
its tokens moved (`Run.interpret_moves`).

`Run.Moves` says so of two runs; each step of a run has it, and it is closed under the ways runs are put
together. That it holds of all programs is proved by induction on the depth that a run uses up.
-/
namespace LoxLang

def Flow.relocate (f : Nat → Nat) : Flow → Flow
  | .normal => .normal
  | .returned v => .returned (v.relocate f)

theorem Flow.value_relocate {f : Nat → Nat} (flow : Flow) :
    (flow.relocate f).value = flow.value.relocate f := by
  cases flow <;> rfl

namespace Run

variable {f : Nat → Nat} {limit : Option Nat} {n : Nat} {α β α' β' : Type}

/-- On a machine with its code on other lines, one run comes to what the other comes to, on these lines. -/
def Moves (f : Nat → Nat) (move : α → α') (r : Run α) (r' : Run α') : Prop :=
  ∀ m, r' (m.relocate f) = (r m).relocate f move

namespace Moves

variable {move : α → α'} {move' : β → β'} {r : Run α} {r' : Run α'}

theorem pure {a : α} {a' : α'} (same : move a = a') : Moves f move (pure a) (pure a') := by
  intro m
  rw [← same]
  rfl

theorem starved : Moves f move Run.starved Run.starved := fun _ => rfl

theorem fault (token : Token) (fault : RuntimeFault) :
    Moves f move (Run.fault token fault) (Run.fault (token.relocate f) fault) := fun _ => rfl

theorem bind {next : α → Run β} {next' : α' → Run β'} (h : Moves f move r r')
    (h' : ∀ a, Moves f move' (next a) (next' (move a))) :
    Moves f move' (r >>= next) (r' >>= next') := by
  intro m
  rw [bind_apply, bind_apply, h m]
  cases r m with
  | ok a m' => exact h' a m'
  | fail e m' => rfl
  | starved => rfl

theorem within (e : Nat) (h : Moves f move r r') : Moves f move (within e r) (within e r') := by
  intro m
  have inner : r' { m.relocate f with current := e } =
      (r { m with current := e }).relocate f move := h { m with current := e }
  unfold Run.within
  dsimp only
  rw [inner]
  cases r { m with current := e } <;> rfl

theorem asCall {limit : Option Nat} (paren : Token) (h : Moves f move r r') :
    Moves f move (asCall limit paren r) (asCall limit (paren.relocate f) r') := by
  intro m
  have inner : r' { m.relocate f with callDepth := (m.relocate f).callDepth + 1 } =
      (r { m with callDepth := m.callDepth + 1 }).relocate f move :=
    h { m with callDepth := m.callDepth + 1 }
  unfold Run.asCall
  show (if limit.any (· ≤ m.callDepth) then _ else _) = _
  split
  · rfl
  · rw [inner]
    cases r { m with callDepth := m.callDepth + 1 } <;> rfl

end Moves

/-! Steps -/

theorem lift_moves (token : Token) {r : Except RuntimeFault Value} (h : ∀ v, r = .ok v → v.Plain) :
    Moves f (Value.relocate f) (lift token r) (lift (token.relocate f) r) := by
  intro m
  cases r with
  | ok v =>
    show Outcome.ok v (m.relocate f) = .ok (v.relocate f) (m.relocate f)
    rw [(h v rfl).relocate]
  | error fault => rfl

theorem newId_moves : Moves f id newId newId := fun _ => rfl

theorem current_moves : Moves f id current current := fun _ => rfl

theorem newInstance_moves : Moves f id newInstance newInstance := by
  intro m
  simp only [newInstance, Outcome.relocate, Machine.relocate, Array.size_map, Array.map_push, id_eq]
  rfl

theorem newEnvironment_moves (outer : Nat) (bindings : Bindings Value) :
    Moves f id (newEnvironment outer bindings)
      (newEnvironment outer (bindings.mapValues (Value.relocate f))) := by
  intro m
  simp only [newEnvironment, Outcome.relocate, Machine.relocate, Forest.size_mapValues,
    Forest.push_mapValues, id_eq]

theorem define_moves (name : String) (v : Value) :
    Moves f id (define name v) (define name (v.relocate f)) := by
  intro m
  simp only [define, Outcome.relocate, Machine.relocate, Forest.define_mapValues, id_eq]

theorem lookUp_moves (name : Token) (depth : Option Nat) :
    Moves f (Value.relocate f) (lookUp name depth) (lookUp (name.relocate f) depth) := by
  intro m
  cases depth with
  | some d =>
    simp only [lookUp, Machine.relocate, Token.lexeme_relocate, Forest.findAt?_mapValues]
    cases m.environments.findAt? m.current d name.lexeme <;> rfl
  | none =>
    simp only [lookUp, Machine.relocate, Token.lexeme_relocate, Machine.globals, Forest.find?_zero,
      Forest.findHere?_mapValues]
    cases m.environments.findHere? 0 name.lexeme <;> rfl

theorem assign_moves (name : Token) (depth : Option Nat) (v : Value) :
    Moves f id (assign name depth v) (assign (name.relocate f) depth (v.relocate f)) := by
  intro m
  cases depth with
  | some d =>
    simp only [assign, Machine.relocate, Token.lexeme_relocate, Forest.holderAt?_mapValues]
    cases m.environments.holderAt? m.current d name.lexeme with
    | none => rfl
    | some e => simp only [Outcome.relocate, Machine.relocate, Forest.define_mapValues, id_eq]
  | none =>
    simp only [assign, Machine.relocate, Token.lexeme_relocate, Machine.globals,
      Forest.holder?_zero, Forest.findHere?_mapValues, Option.isSome_map]
    cases (m.environments.findHere? 0 name.lexeme).isSome with
    | false => rfl
    | true => 
      simp only [if_true, Outcome.relocate, Machine.relocate, Forest.define_mapValues, id_eq]

theorem receiver_moves (environment : Nat) :
    Moves f (Value.relocate f) (receiver environment) (receiver environment) := by
  intro m
  simp only [receiver, Outcome.relocate, Machine.relocate, Forest.findHere?_mapValues]
  cases m.environments.findHere? environment "this" <;> rfl

theorem field?_moves (i : Nat) (name : String) :
    Moves f (Option.map (Value.relocate f)) (field? i name) (field? i name) := by
  intro m
  simp only [field?, Machine.fields_relocate, Bindings.find?_mapValues]
  rfl

theorem setField_moves (i : Nat) (name : String) (v : Value) :
    Moves f id (setField i name v) (setField i name (v.relocate f)) := by
  intro m
  have changed : (m.instances.map (Bindings.mapValues (Value.relocate f))).modify i
      (·.put name (v.relocate f)) =
        (m.instances.modify i (·.put name v)).map (Bindings.mapValues (Value.relocate f)) := by
    apply Array.ext
    · simp
    · intro j lt lt'
      simp only [Array.getElem_modify, Array.getElem_map]
      split
      · exact Bindings.put_mapValues name v _
      · rfl
  simp only [setField, Outcome.relocate, Machine.relocate, changed, id_eq]

theorem writeLine_moves (text : String) : Moves f id (writeLine text) (writeLine text) := by
  intro m
  simp only [writeLine, Machine.relocate]
  obtain ⟨written, out⟩ := m.out.writeLine text
  cases written <;> rfl

theorem flush_moves : Moves f id flush flush := by
  intro m
  simp only [flush, Machine.relocate]
  cases m.out.flush <;> rfl

theorem readClock_moves : Moves f id readClock readClock := fun _ => rfl

/-! Functions, classes and properties -/

theorem newClosure_moves (code : Function) (initializer : Bool) :
    Moves f (Closure.relocate f) (newClosure code initializer)
      (newClosure (code.relocate f) initializer) := by
  apply newId_moves.bind
  intro id
  apply current_moves.bind
  intro here
  exact .pure rfl

theorem bindThis_moves (c : Closure) (v : Value) :
    Moves f (Closure.relocate f) (bindThis c v) (bindThis (c.relocate f) (v.relocate f)) := by
  apply (newEnvironment_moves c.scope [("this", v)]).bind
  intro scope
  apply newId_moves.bind
  intro id
  exact .pure rfl

theorem newClosures_moves (initializer : String → Bool) (fs : List Function) :
    Moves f (List.map (Closure.relocate f)) (newClosures initializer fs)
      (newClosures initializer (Function.relocateAll f fs)) := by
  induction fs with
  | nil => exact .pure rfl
  | cons code rest ih =>
    -- Whether a function is made as an initializer is read off its name, which is no line.
    obtain ⟨name, params, body⟩ := code
    apply (newClosure_moves ⟨name, params, body⟩ _).bind
    intro c
    apply ih.bind
    intro cs
    exact .pure rfl

theorem newClass_moves (name : String) (methods statics : List Function) :
    Moves f (Class.relocate f) (newClass name methods statics)
      (newClass name (Function.relocateAll f methods) (Function.relocateAll f statics)) := by
  apply (newClosures_moves _ methods).bind
  intro methods
  apply current_moves.bind
  intro here
  apply (newEnvironment_moves here []).bind
  intro scope
  apply ((newClosures_moves _ statics).within scope).bind
  intro statics
  apply newId_moves.bind
  intro id
  exact .pure rfl

theorem property_moves (i : Nat) (c : Class) (name : Token) :
    Moves f (Value.relocate f) (property i c name) (property i (c.relocate f) (name.relocate f)) := by
  apply (field?_moves i name.lexeme).bind
  intro found
  cases found with
  | some v => exact .pure rfl
  | none =>
    simp only [Option.map_none, Class.method?_relocate, Class.static?_relocate,
      Token.lexeme_relocate]
    cases c.method? name.lexeme with
    | some m =>
      apply (bindThis_moves m (.object i c)).bind
      intro bound
      exact .pure rfl
    | none =>
      cases c.static? name.lexeme with
      | some m => exact .pure rfl
      | none => exact .fault name _

theorem member_moves (v : Value) (name : Token) :
    Moves f (Value.relocate f) (member v name) (member (v.relocate f) (name.relocate f)) := by
  cases v with
  | object i c => exact property_moves i c name
  | callable c =>
    cases c with
    | ofClass c =>
      simp only [member, Value.relocate, Callable.relocate, Class.static?_relocate,
        Token.lexeme_relocate]
      cases c.static? name.lexeme with
      | some m => exact .pure rfl
      | none => exact .fault name _
    | _ => exact .fault name _
  | _ => exact .fault name _

theorem printAll_moves (vs : List Value) :
    Moves f id (printAll vs) (printAll (vs.map (Value.relocate f))) := by
  induction vs with
  | nil => exact .pure rfl
  | cons v vs ih =>
    -- The text of a value tells nothing about lines.
    simp only [List.map_cons, printAll, Value.text_relocate]
    apply (writeLine_moves v.text).bind
    intro _
    exact ih

theorem callNative_moves (n : Native) (vs : List Value) :
    Moves f (Value.relocate f) (callNative n vs) (callNative n (vs.map (Value.relocate f))) := by
  cases n with
  | clock =>
    apply readClock_moves.bind
    intro x
    exact .pure rfl
  | print =>
    apply (printAll_moves vs).bind
    intro _
    exact .pure rfl

theorem bindParams_relocate (params : List Token) (vs : List Value) :
    bindParams (params.map (Token.relocate f)) (vs.map (Value.relocate f)) =
      (bindParams params vs).mapValues (Value.relocate f) := by
  have each : ∀ (pairs : List (Token × Value)) (bs : Bindings Value),
      (pairs.map (Prod.map (Token.relocate f) (Value.relocate f))).foldl
          (fun bs pair => bs.put pair.1.lexeme pair.2) (bs.mapValues (Value.relocate f)) =
        (pairs.foldl (fun bs pair => bs.put pair.1.lexeme pair.2) bs).mapValues
          (Value.relocate f) := by
    intro pairs
    induction pairs with
    | nil => exact fun _ => rfl
    | cons pair pairs ih =>
      intro bs
      simp only [List.map_cons, List.foldl_cons, Prod.map_fst, Prod.map_snd, Token.lexeme_relocate,
        Bindings.put_mapValues]
      exact ih _
  unfold bindParams
  rw [List.zip_map]
  exact each (params.zip vs) []

/-! Programs -/

/-- What is proved of all runs of some depth at once. -/
structure MovesAll (f : Nat → Nat) (limit : Option Nat) (n : Nat) : Prop where
  evaluate : ∀ e : Expr,
    Moves f (Value.relocate f) (Run.evaluate limit n e) (Run.evaluate limit n (e.relocate f))
  evaluateAll : ∀ es : List Expr, Moves f (List.map (Value.relocate f))
    (Run.evaluateAll limit n es) (Run.evaluateAll limit n (Expr.relocateAll f es))
  execute : ∀ s : Stmt,
    Moves f (Flow.relocate f) (Run.execute limit n s) (Run.execute limit n (s.relocate f))
  executeAll : ∀ ss : List Stmt, Moves f (Flow.relocate f)
    (Run.executeAll limit n ss) (Run.executeAll limit n (Stmt.relocateAll f ss))
  declareAll : ∀ ds : List Declarator, Moves f (Flow.relocate f)
    (Run.declareAll limit n ds) (Run.declareAll limit n (Declarator.relocateAll f ds))
  call : ∀ (c : Callable) (vs : List Value), Moves f (Value.relocate f)
    (Run.call limit n c vs) (Run.call limit n (c.relocate f) (vs.map (Value.relocate f)))

theorem evaluate_moves (ih : MovesAll f limit n) (e : Expr) :
    Moves f (Value.relocate f) (evaluate limit (n + 1) e) (evaluate limit (n + 1) (e.relocate f)) := by
  cases e with
  | literal value => exact .pure (Literal.plain value).relocate
  | group inner => exact ih.evaluate inner
  | unary op right =>
    apply (ih.evaluate right).bind
    intro v
    rw [Value.unary?_relocate, Token.kind_relocate]
    exact lift_moves op fun _ => plain_of_unary
  | binary left op right =>
    apply (ih.evaluate left).bind
    intro v
    apply (ih.evaluate right).bind
    intro w
    -- The value of an operator has no code in it, so there is nothing to move.
    rw [Value.binary?_relocate, Token.kind_relocate]
    exact lift_moves op fun _ => plain_of_binary
  | logical left op right =>
    apply (ih.evaluate left).bind
    intro v
    rw [Value.truthy_relocate, Token.isKeyword_relocate]
    split
    · exact .pure rfl
    · exact ih.evaluate right
  | ternary condition whenTrue whenFalse =>
    apply (ih.evaluate condition).bind
    intro v
    rw [Value.truthy_relocate]
    split
    · exact ih.evaluate whenTrue
    · exact ih.evaluate whenFalse
  | «variable» name depth => exact lookUp_moves name depth
  | «this» keyword depth => exact lookUp_moves keyword depth
  | assign name value depth =>
    apply (ih.evaluate value).bind
    intro v
    apply (assign_moves name depth v).bind
    intro _
    exact .pure rfl
  | call callee paren arguments =>
    apply (ih.evaluate callee).bind
    intro v
    apply (ih.evaluateAll arguments).bind
    intro vs
    cases v with
    | callable c =>
      -- A callable on other lines takes as many arguments.
      simp only [Value.relocate, List.length_map, Callable.arity_relocate]
      split
      · exact (ih.call c vs).asCall paren
      · exact .fault paren _
    | _ => exact .fault paren _
  | property object name =>
    apply (ih.evaluate object).bind
    intro v
    exact member_moves v name
  | setProperty object name value =>
    apply (ih.evaluate object).bind
    intro v
    cases v with
    | object i c =>
      apply (ih.evaluate value).bind
      intro w
      apply (setField_moves i _ w).bind
      intro _
      exact .pure rfl
    | _ => exact .fault name _
  | lambda code =>
    apply (newClosure_moves code false).bind
    intro c
    exact .pure rfl

theorem evaluateAll_moves (ih : MovesAll f limit n) (es : List Expr) :
    Moves f (List.map (Value.relocate f)) (evaluateAll limit (n + 1) es)
      (evaluateAll limit (n + 1) (Expr.relocateAll f es)) := by
  cases es with
  | nil => exact .pure rfl
  | cons e es =>
    apply (ih.evaluate e).bind
    intro v
    apply (ih.evaluateAll es).bind
    intro vs
    exact .pure rfl

theorem declareAll_moves (ih : MovesAll f limit n) (ds : List Declarator) :
    Moves f (Flow.relocate f) (declareAll limit (n + 1) ds)
      (declareAll limit (n + 1) (Declarator.relocateAll f ds)) := by
  cases ds with
  | nil => exact .pure rfl
  | cons d ds =>
    obtain ⟨name, initial⟩ := d
    have others : ∀ v, Moves f (Flow.relocate f)
        (define name.lexeme v >>= fun _ => declareAll limit n ds)
        (define name.lexeme (v.relocate f) >>= fun _ =>
          declareAll limit n (Declarator.relocateAll f ds)) := by
      intro v
      apply (define_moves name.lexeme v).bind
      intro _
      exact ih.declareAll ds
    cases initial with
    | none => exact Moves.bind (.pure (rfl : Value.relocate f .nil = .nil)) others
    | some e => exact (ih.evaluate e).bind others

theorem execute_moves (ih : MovesAll f limit n) (s : Stmt) :
    Moves f (Flow.relocate f) (execute limit (n + 1) s) (execute limit (n + 1) (s.relocate f)) := by
  cases s with
  | expression value =>
    apply (ih.evaluate value).bind
    intro v
    exact .pure rfl
  | print value =>
    apply (ih.evaluate value).bind
    intro v
    rw [Value.text_relocate]
    apply (writeLine_moves v.text).bind
    intro _
    exact .pure rfl
  | declare d => exact ih.declareAll [d]
  | declareAll ds => exact ih.declareAll ds
  | block body =>
    apply current_moves.bind
    intro here
    apply (newEnvironment_moves here []).bind
    intro scope
    exact (ih.executeAll body).within scope
  | conditional condition whenTrue whenFalse =>
    -- The branch that may be missing is moved by a case of its own.
    cases whenFalse with
    | none =>
      apply (ih.evaluate condition).bind
      intro v
      rw [Value.truthy_relocate]
      split
      · exact ih.execute whenTrue
      · exact .pure rfl
    | some whenFalse =>
      apply (ih.evaluate condition).bind
      intro v
      rw [Value.truthy_relocate]
      split
      · exact ih.execute whenTrue
      · exact ih.execute whenFalse
  | loop condition body =>
    apply (ih.evaluate condition).bind
    intro v
    rw [Value.truthy_relocate]
    split
    · apply (ih.execute body).bind
      intro flow
      cases flow with
      | normal => exact ih.execute (.loop condition body)
      | returned v => exact .pure rfl
    · exact .pure rfl
  | declareFunction code =>
    obtain ⟨name, params, body⟩ := code
    apply (newClosure_moves ⟨name, params, body⟩ false).bind
    intro c
    apply (define_moves name.lexeme (.callable (.function c))).bind
    intro _
    exact .pure rfl
  | returns keyword value =>
    cases value with
    | none => exact .pure rfl
    | some value =>
      apply (ih.evaluate value).bind
      intro v
      exact .pure rfl
  | declareClass name methods statics =>
    apply (newClass_moves name.lexeme methods statics).bind
    intro c
    apply (define_moves name.lexeme (.callable (.ofClass c))).bind
    intro _
    exact .pure rfl

theorem executeAll_moves (ih : MovesAll f limit n) (ss : List Stmt) :
    Moves f (Flow.relocate f) (executeAll limit (n + 1) ss)
      (executeAll limit (n + 1) (Stmt.relocateAll f ss)) := by
  cases ss with
  | nil => exact .pure rfl
  | cons s ss =>
    apply (ih.execute s).bind
    intro flow
    cases flow with
    | normal => exact ih.executeAll ss
    | returned v => exact .pure rfl

theorem call_moves (ih : MovesAll f limit n) (c : Callable) (vs : List Value) :
    Moves f (Value.relocate f) (call limit (n + 1) c vs)
      (call limit (n + 1) (c.relocate f) (vs.map (Value.relocate f))) := by
  cases c with
  | function c =>
    obtain ⟨i, ⟨name, params, body⟩, scope, initializer⟩ := c
    -- The parameters are bound by their names, so the new environment is the moved one.
    have entered := newEnvironment_moves (f := f) scope (bindParams params vs)
    rw [← bindParams_relocate] at entered
    apply entered.bind
    intro here
    apply ((ih.executeAll body).within here).bind
    intro flow
    cases initializer with
    | true => exact receiver_moves scope
    | false => exact .pure flow.value_relocate.symm
  | native native => exact callNative_moves native vs
  | ofClass c =>
    apply newInstance_moves.bind
    intro i
    rw [Class.method?_relocate]
    cases c.method? Class.initializerName with
    | none => exact .pure rfl
    | some m =>
      apply (bindThis_moves m (.object i c)).bind
      intro bound
      apply (ih.call (.function bound) vs).bind
      intro _
      exact .pure rfl

/-- By induction on the depth: what a run passes on is run at the depth below. -/
theorem moves_all (f : Nat → Nat) (limit : Option Nat) : ∀ n, MovesAll f limit n := by
  intro n
  induction n with
  | zero =>
    exact ⟨fun _ => .starved, fun _ => .starved, fun _ => .starved, fun _ => .starved,
      fun _ => .starved, fun _ _ => .starved⟩
  | succ n ih =>
    exact ⟨evaluate_moves ih, evaluateAll_moves ih, execute_moves ih, executeAll_moves ih,
      declareAll_moves ih, call_moves ih⟩

theorem executeProgram_moves (limit : Option Nat) (n : Nat) (program : List Stmt) :
    Moves f id (executeProgram limit n program)
      (executeProgram limit n (Stmt.relocateAll f program)) := by
  induction program with
  | nil => exact .pure rfl
  | cons s ss ih =>
    apply ((moves_all f limit n).execute s).bind
    intro flow
    exact ih

def failedWith (e : Failure) : Outcome Unit → Outcome Unit
  | .ok _ m => .fail e m
  | other => other

/-- The run of a program on other lines, from a machine on other lines. -/
theorem interpret_moves (limit : Option Nat) (n : Nat) (program : List Stmt) :
    Moves f id (interpret limit n program) (interpret limit n (Stmt.relocateAll f program)) := by
  intro m
  unfold interpret
  rw [executeProgram_moves limit n program m]
  cases executeProgram limit n program m with
  | ok a m' => exact flush_moves m'
  | fail e m' =>
    show failedWith (e.relocate f) (flush (m'.relocate f)) =
      (failedWith e (flush m')).relocate f id
    rw [flush_moves m']
    cases flush m' <;> rfl
  | starved => rfl

theorem executeProgram_append (limit : Option Nat) (n : Nat) (more program : List Stmt) :
    executeProgram limit n (program ++ more) =
      executeProgram limit n program >>= fun _ => executeProgram limit n more := by
  induction program with
  | nil => rfl
  | cons s ss ih =>
    calc executeProgram limit n (s :: ss ++ more)
        = execute limit n s >>= fun _ => executeProgram limit n (ss ++ more) := rfl
      _ = execute limit n s >>= fun _ =>
          executeProgram limit n ss >>= fun _ => executeProgram limit n more := by rw [ih]
      _ = executeProgram limit n (s :: ss) >>= fun _ => executeProgram limit n more := by
        rw [executeProgram, bind_assoc]

variable {program : List Stmt} {m m' : Machine}

theorem flush_ok {a : Unit} (h : flush m = .ok a m') : m' = m := by
  unfold flush at h
  split at h
  · cases h
    rfl
  · cases h

theorem interpret_ok {a : Unit} (h : interpret limit n program m = .ok a m') :
    executeProgram limit n program m = .ok () m' := by
  unfold interpret at h
  split at h
  · rename_i ran
    rw [flush_ok h]
    exact ran
  · split at h
    · cases h
    · rename_i other
      exact absurd h (other a m')
  · cases h

/-- Behind a program that ended well the other one goes on where that one stopped. -/
theorem interpret_append (h : executeProgram limit n program m = .ok () m') (more : List Stmt) :
    interpret limit n (program ++ more) m = interpret limit n more m' := by
  unfold interpret
  rw [executeProgram_append, bind_apply, h]

end Run

end LoxLang
