import LoxLang.Proofs.Receivers.Faithful
/-!
Whatever runs keeps receivers. The code that is run does not give `this` as a name to anything, and
functions come from a faithful machine, so that their code does not either.

What is proved: every run on a faithful machine leaves it faithful, does not change the receiver of any
environment, and comes to faithful values (`Run.keepsAll`).
-/
namespace LoxLang

variable {m m' : Machine} {v : Value} {limit : Option Nat} {n : Nat}

/-! Names -/

theorem Function.names_parts : ∀ {code : Function}, Keyword.this.word ∉ code.names →
    (∀ t ∈ code.params, t.lexeme ≠ Keyword.this.word) ∧
      Keyword.this.word ∉ Stmt.allNames code.body
  | ⟨_, params, body⟩, clean => by
    rw [Function.names, List.mem_append, not_or] at clean
    refine ⟨fun t param same => clean.1 ?_, clean.2⟩
    exact same ▸ List.mem_map_of_mem param

namespace Run

/-! Steps -/

theorem lift_keeps {token : Token} {r : Except RuntimeFault Value} (h : m.Faithful)
    (plain : ∀ v, r = .ok v → v.Plain) :
    Keeps m (lift token r) fun v m' => v.Faithful m' := by
  cases r with
  | ok v => exact .pure h (plain v rfl).faithful
  | error f => exact .fault h token f

theorem newId_keeps (h : m.Faithful) : Keeps m newId fun _ _ => True :=
  .step rfl (h.congr rfl rfl rfl) (.of_eq rfl rfl) trivial

theorem current_keeps (h : m.Faithful) : Keeps m current fun _ _ => True :=
  .step rfl h (.refl m) trivial

theorem newEnvironment_keeps (h : m.Faithful) {outer : Nat} {bindings : Bindings Value}
    (faithful : ∀ x v, bindings.find? x = some v → v.Faithful m)
    (unbound : bindings.find? Keyword.this.word = none) :
    Keeps m (newEnvironment outer bindings) fun scope m' => scope < m'.environments.size ∧
      m'.environments.findHere? scope Keyword.this.word = none := by
  refine .step rfl (h.push faithful fun v found => ?_) (.push ..) ⟨by simp, ?_⟩
  · rw [unbound] at found
    cases found
  · exact (Forest.findHere?_push_size ..).trans unbound

theorem newInstance_keeps (h : m.Faithful) :
    Keeps m newInstance fun i m' => i < m'.instances.size :=
  .step rfl h.newInstance .newInstance (by simp)

theorem define_keeps (h : m.Faithful) {x : String} (other : x ≠ Keyword.this.word)
    (faithful : v.Faithful m) : Keeps m (define x v) fun _ _ => True :=
  .step rfl (h.define other h.current faithful) (.define other h.current v) trivial

theorem assign_keeps (h : m.Faithful) {name : Token} {depth : Option Nat}
    (other : name.lexeme ≠ Keyword.this.word) (faithful : v.Faithful m) :
    Keeps m (assign name depth v) fun _ _ => True := by
  rcases assign_cases name depth v m with failed | ⟨e, bound, assigned⟩
  · exact .stop failed h (.refl m)
  · have unbound := h.unbound other bound
    exact .step assigned (h.define other unbound faithful) (.define other unbound v) trivial

theorem lookUp_keeps (h : m.Faithful) (name : Token) (depth : Option Nat) :
    Keeps m (lookUp name depth) fun v m' => v.Faithful m' := by
  rcases lookUp_cases name depth m with failed | ⟨v, e, found, read⟩
  · exact .stop failed h (.refl m)
  · exact .step read h (.refl m) (h.bound e _ v found)

theorem receiver_keeps (h : m.Faithful) (e : Nat) :
    Keeps m (receiver e) fun v m' => v.Faithful m' := by
  refine .step rfl h (.refl m) ?_
  cases found : m.environments.findHere? e "this" with
  | none => trivial
  | some v => exact h.bound e "this" v found

theorem field?_keeps (h : m.Faithful) (i : Nat) (name : String) :
    Keeps m (field? i name) fun found m' => ∀ v ∈ found, v.Faithful m' :=
  .step rfl h (.refl m) fun v found => h.field i name v found

theorem setField_keeps (h : m.Faithful) {i : Nat} {name : String} (faithful : v.Faithful m) :
    Keeps m (setField i name v) fun _ _ => True :=
  .step rfl (h.setField faithful) (.of_eq rfl (Array.size_modify ..)) trivial

theorem still_keeps {α : Type} {r : Run α} (h : m.Faithful) (still : r.Still) :
    Keeps m r fun _ _ => True := by
  have same := still m
  unfold Keeps
  cases eq : r m with
  | ok a m₁ =>
    rw [eq] at same
    exact ⟨h.congr same.environments same.instances same.current,
      .of_eq same.environments (by rw [same.instances]), trivial⟩
  | fail f m₁ =>
    rw [eq] at same
    exact ⟨h.congr same.environments same.instances same.current,
      .of_eq same.environments (by rw [same.instances])⟩
  | starved => trivial

theorem callNative_keeps (h : m.Faithful) (native : Native) (vs : List Value) :
    Keeps m (callNative native vs) fun v m' => v.Faithful m' := by
  cases native with
  | clock =>
    apply (still_keeps h .readClock).bind
    intro x m₁ h₁ _ _
    exact .pure h₁ trivial
  | print =>
    apply (still_keeps h (.printAll vs)).bind
    intro _ m₁ h₁ _ _
    exact .pure h₁ trivial

/-! Functions and classes -/

theorem newClosure_keeps (h : m.Faithful) {code : Function} {initializer : Bool} :
    Keeps m (newClosure code initializer) fun f _ =>
      f.code = code ∧ f.initializer = initializer := by
  apply (newId_keeps h).bind
  intro id m₁ h₁ _ _
  apply (current_keeps h₁).bind
  intro scope m₂ h₂ _ _
  exact .pure h₂ ⟨rfl, rfl⟩

theorem bindThis_keeps (h : m.Faithful) {f : Closure} {i : Nat} {c : Class}
    (code : Keyword.this.word ∉ f.code.names) (object : (Value.object i c).Faithful m) :
    Keeps m (bindThis f (.object i c)) fun g m' => g.Faithful m' := by
  have pushed := h.pushThis (some f.scope) object
  have binds := m.bindsThis_push (some f.scope) (.object i c)
  refine .step rfl (pushed.congr rfl rfl rfl) ?_ ⟨code, fun _ => ⟨i, c, binds⟩⟩
  exact (Machine.Before.push _ _).trans (.of_eq rfl rfl)

theorem newClosures_keeps {initializer : String → Bool} : ∀ {codes : List Function} {m : Machine}, m.Faithful →
    Keyword.this.word ∉ Function.allNames codes →
      Keeps m (newClosures initializer codes) fun fs _ => ∀ f ∈ fs, Keyword.this.word ∉ f.code.names ∧
        f.initializer = initializer f.name
  | [], m, h, _ => .pure h fun _ mem => nomatch mem
  | code :: rest, m, h, clean => by
    rw [Function.allNames, List.mem_append, not_or] at clean
    apply (newClosure_keeps h).bind
    intro f m₁ h₁ _ ⟨made, marked⟩
    apply (newClosures_keeps h₁ clean.2).bind
    intro fs m₂ h₂ _ others
    refine .pure h₂ (List.forall_mem_cons.mpr ⟨⟨made ▸ clean.1, ?_⟩, others⟩)
    rw [marked, Closure.name, made]

theorem newClass_keeps (h : m.Faithful) {name : String} {methods statics : List Function}
    (clean : Keyword.this.word ∉ Function.allNames methods)
    (clean' : Keyword.this.word ∉ Function.allNames statics) :
    Keeps m (newClass name methods statics) fun c _ => c.Faithful := by
  apply (newClosures_keeps h clean).bind
  intro methods m₁ h₁ _ own
  apply (current_keeps h₁).bind
  intro outer m₂ h₂ _ _
  apply (newEnvironment_keeps h₂ (fun _ _ found => by cases found) rfl).bind
  intro scope m₃ h₃ _ ⟨lt, unbound⟩
  apply (Keeps.within h₃ (newClosures_keeps (h₃.move lt unbound) clean') fun _ _ q => q).bind
  intro statics m₄ h₄ _ ofClass
  apply (newId_keeps h₄).bind
  intro id m₅ h₅ _ _
  exact .pure h₅ ⟨own, ofClass⟩

theorem property_keeps (h : m.Faithful) {i : Nat} {c : Class} (object : (Value.object i c).Faithful m)
    (name : Token) : Keeps m (property i c name) fun v m' => v.Faithful m' := by
  apply (field?_keeps h i name.lexeme).bind
  intro found m₁ h₁ later values
  cases found with
  | some v => exact .pure h₁ (values v rfl)
  | none =>
    dsimp only
    split
    · rename_i f method
      have own := object.2.methods f (Closure.mem_of_lastNamed? method)
      apply (bindThis_keeps h₁ own.1 (object.mono later)).bind
      intro g m₂ h₂ _ faithful
      exact .pure h₂ faithful
    · rename_i f _ static
      obtain ⟨code, plain⟩ := object.2.statics f (Closure.mem_of_lastNamed? static)
      exact .pure h₁ (Closure.Faithful.of_plain code plain)
    · exact .fault h₁ _ _

theorem member_keeps (h : m.Faithful) (faithful : v.Faithful m) (name : Token) :
    Keeps m (member v name) fun v m' => v.Faithful m' := by
  unfold member
  split
  · exact property_keeps h faithful name
  · split
    · rename_i c _ f static
      have ofClass : c.Faithful := faithful
      obtain ⟨code, plain⟩ := ofClass.statics f (Closure.mem_of_lastNamed? static)
      exact .pure h (Closure.Faithful.of_plain code plain)
    · exact .fault h _ _
  · exact .fault h _ _

/-! Expressions, statements and calls -/

/-- What is proved of all runs of one depth. -/
structure KeepsAll (limit : Option Nat) (n : Nat) : Prop where
  evaluate : ∀ {m} e, m.Faithful → Keyword.this.word ∉ e.names →
    Keeps m (evaluate limit n e) fun v m' => v.Faithful m'
  evaluateAll : ∀ {m} es, m.Faithful → Keyword.this.word ∉ Expr.allNames es →
    Keeps m (evaluateAll limit n es) fun vs m' => ∀ v ∈ vs, v.Faithful m'
  execute : ∀ {m} s, m.Faithful → Keyword.this.word ∉ s.names →
    Keeps m (execute limit n s) fun flow m' => flow.Faithful m'
  executeAll : ∀ {m} ss, m.Faithful → Keyword.this.word ∉ Stmt.allNames ss →
    Keeps m (executeAll limit n ss) fun flow m' => flow.Faithful m'
  declareAll : ∀ {m} ds, m.Faithful → Keyword.this.word ∉ Declarator.allNames ds →
    Keeps m (declareAll limit n ds) fun flow m' => flow.Faithful m'
  call : ∀ {m c vs}, m.Faithful → (Value.callable c).Faithful m → (∀ v ∈ vs, v.Faithful m) →
    Keeps m (call limit n c vs) fun v m' => v.Faithful m'

theorem evaluate_keeps (ih : KeepsAll limit n) {e : Expr} (h : m.Faithful)
    (clean : Keyword.this.word ∉ e.names) :
    Keeps m (evaluate limit (n + 1) e) fun v m' => v.Faithful m' := by
  cases e with
  | literal value => exact .pure h value.plain.faithful
  | group inner => exact ih.evaluate inner h clean
  | unary op right =>
    apply (ih.evaluate right h clean).bind
    intro v m₁ h₁ _ _
    exact lift_keeps h₁ fun _ => plain_of_unary
  | binary left op right =>
    rw [Expr.names, List.mem_append, not_or] at clean
    apply (ih.evaluate left h clean.1).bind
    intro v m₁ h₁ _ _
    apply (ih.evaluate right h₁ clean.2).bind
    intro w m₂ h₂ _ _
    exact lift_keeps h₂ fun _ => plain_of_binary
  | logical left op right =>
    rw [Expr.names, List.mem_append, not_or] at clean
    apply (ih.evaluate left h clean.1).bind
    intro v m₁ h₁ _ faithful
    split
    · exact .pure h₁ faithful
    · exact ih.evaluate right h₁ clean.2
  | ternary condition whenTrue whenFalse =>
    rw [Expr.names, List.mem_append, List.mem_append, not_or, not_or] at clean
    apply (ih.evaluate condition h clean.1).bind
    intro v m₁ h₁ _ _
    split
    · exact ih.evaluate whenTrue h₁ clean.2.1
    · exact ih.evaluate whenFalse h₁ clean.2.2
  | «variable» name depth => exact lookUp_keeps h name depth
  | «this» keyword depth => exact lookUp_keeps h keyword depth
  | assign name value depth =>
    rw [Expr.names, List.mem_cons, not_or] at clean
    apply (ih.evaluate value h clean.2).bind
    intro v m₁ h₁ _ faithful
    apply (assign_keeps h₁ (Ne.symm clean.1) faithful).bind
    intro _ m₂ h₂ later _
    exact .pure h₂ (faithful.mono later)
  | call callee paren arguments =>
    rw [Expr.names, List.mem_append, not_or] at clean
    apply (ih.evaluate callee h clean.1).bind
    intro v m₁ h₁ _ faithful
    apply (ih.evaluateAll arguments h₁ clean.2).bind
    intro vs m₂ h₂ later given
    cases v with
    | callable c =>
      dsimp only
      split
      · have same : m₂.Before { m₂ with callDepth := m₂.callDepth + 1 } := .of_eq rfl rfl
        apply Keeps.asCall h₂
        · exact ih.call (h₂.congr rfl rfl rfl) ((faithful.mono later).mono same)
            fun w mem => (given w mem).mono same
        · exact fun w m₃ d faithful => faithful.mono (.of_eq rfl rfl)
      · exact .fault h₂ _ _
    | _ => exact .fault h₂ _ _
  | property object name =>
    apply (ih.evaluate object h clean).bind
    intro v m₁ h₁ _ faithful
    exact member_keeps h₁ faithful name
  | setProperty object name value =>
    rw [Expr.names, List.mem_append, not_or] at clean
    apply (ih.evaluate object h clean.1).bind
    intro v m₁ h₁ _ _
    cases v with
    | object i c =>
      apply (ih.evaluate value h₁ clean.2).bind
      intro w m₂ h₂ _ faithful
      apply (setField_keeps h₂ faithful).bind
      intro _ m₃ h₃ later _
      exact .pure h₃ (faithful.mono later)
    | _ => exact .fault h₁ _ _
  | lambda code =>
    apply (newClosure_keeps h).bind
    intro f m₁ h₁ _ ⟨made, plain⟩
    exact .pure h₁ (Closure.Faithful.of_plain (made ▸ clean) plain)

theorem evaluateAll_keeps (ih : KeepsAll limit n) {es : List Expr} (h : m.Faithful)
    (clean : Keyword.this.word ∉ Expr.allNames es) :
    Keeps m (evaluateAll limit (n + 1) es) fun vs m' => ∀ v ∈ vs, v.Faithful m' := by
  cases es with
  | nil => exact .pure h fun _ mem => nomatch mem
  | cons e es =>
    rw [Expr.allNames, List.mem_append, not_or] at clean
    apply (ih.evaluate e h clean.1).bind
    intro v m₁ h₁ _ faithful
    apply (ih.evaluateAll es h₁ clean.2).bind
    intro vs m₂ h₂ later others
    exact .pure h₂ (List.forall_mem_cons.mpr ⟨faithful.mono later, others⟩)

theorem execute_keeps (ih : KeepsAll limit n) {s : Stmt} (h : m.Faithful)
    (clean : Keyword.this.word ∉ s.names) :
    Keeps m (execute limit (n + 1) s) fun flow m' => flow.Faithful m' := by
  cases s with
  | expression value =>
    apply (ih.evaluate value h clean).bind
    intro v m₁ h₁ _ _
    exact .pure h₁ trivial
  | print value =>
    apply (ih.evaluate value h clean).bind
    intro v m₁ h₁ _ _
    apply (still_keeps h₁ (.writeLine v.text)).bind
    intro _ m₂ h₂ _ _
    exact .pure h₂ trivial
  | declare d => exact ih.declareAll [d] h (by simpa [Declarator.allNames, Stmt.names] using clean)
  | declareAll ds => exact ih.declareAll ds h clean
  | block body =>
    apply (current_keeps h).bind
    intro here m₁ h₁ _ _
    apply (newEnvironment_keeps h₁ (fun _ _ found => by cases found) rfl).bind
    intro scope m₂ h₂ _ ⟨lt, unbound⟩
    apply Keeps.within h₂ (ih.executeAll body (h₂.move lt unbound) clean)
    exact fun flow m₃ faithful => Flow.Faithful.mono faithful (.of_eq rfl rfl)
  | conditional condition whenTrue whenFalse =>
    cases whenFalse with
    | none =>
      rw [Stmt.names, List.mem_append, not_or] at clean
      apply (ih.evaluate condition h clean.1).bind
      intro v m₁ h₁ _ _
      split
      · exact ih.execute whenTrue h₁ clean.2
      · exact .pure h₁ trivial
    | some whenFalse =>
      rw [Stmt.names, List.mem_append, List.mem_append, not_or, not_or] at clean
      apply (ih.evaluate condition h clean.1).bind
      intro v m₁ h₁ _ _
      split
      · exact ih.execute whenTrue h₁ clean.2.1
      · exact ih.execute whenFalse h₁ clean.2.2
  | loop condition body =>
    have parts := clean
    rw [Stmt.names, List.mem_append, not_or] at parts
    apply (ih.evaluate condition h parts.1).bind
    intro v m₁ h₁ _ _
    split
    · apply (ih.execute body h₁ parts.2).bind
      intro flow m₂ h₂ _ faithful
      cases flow with
      | normal => exact ih.execute (.loop condition body) h₂ clean
      | returned v => exact .pure h₂ faithful
    · exact .pure h₁ trivial
  | declareFunction code =>
    rw [Stmt.names, List.mem_cons, not_or] at clean
    apply (newClosure_keeps h).bind
    intro f m₁ h₁ _ ⟨made, plain⟩
    have faithful : (Value.callable (.function f)).Faithful m₁ :=
      Closure.Faithful.of_plain (made ▸ clean.2) plain
    apply (define_keeps h₁ (Ne.symm clean.1) faithful).bind
    intro _ m₂ h₂ _ _
    exact .pure h₂ trivial
  | returns keyword value =>
    cases value with
    | none => exact .pure h trivial
    | some value =>
      apply (ih.evaluate value h clean).bind
      intro v m₁ h₁ _ faithful
      exact .pure h₁ faithful
  | declareClass name methods statics =>
    rw [Stmt.names, List.mem_cons, List.mem_append, not_or, not_or] at clean
    apply (newClass_keeps h clean.2.1 clean.2.2).bind
    intro c m₁ h₁ _ faithful
    have faithful : (Value.callable (.ofClass c)).Faithful m₁ := faithful
    apply (define_keeps h₁ (Ne.symm clean.1) faithful).bind
    intro _ m₂ h₂ _ _
    exact .pure h₂ trivial

theorem executeAll_keeps (ih : KeepsAll limit n) {ss : List Stmt} (h : m.Faithful)
    (clean : Keyword.this.word ∉ Stmt.allNames ss) :
    Keeps m (executeAll limit (n + 1) ss) fun flow m' => flow.Faithful m' := by
  cases ss with
  | nil => exact .pure h trivial
  | cons s ss =>
    rw [Stmt.allNames, List.mem_append, not_or] at clean
    apply (ih.execute s h clean.1).bind
    intro flow m₁ h₁ _ faithful
    cases flow with
    | normal => exact ih.executeAll ss h₁ clean.2
    | returned v => exact .pure h₁ faithful

theorem declareAll_keeps (ih : KeepsAll limit n) {ds : List Declarator} (h : m.Faithful)
    (clean : Keyword.this.word ∉ Declarator.allNames ds) :
    Keeps m (declareAll limit (n + 1) ds) fun flow m' => flow.Faithful m' := by
  cases ds with
  | nil => exact .pure h trivial
  | cons d ds =>
    obtain ⟨name, initial⟩ := d
    rw [Declarator.allNames, List.mem_append, not_or] at clean
    have others : name.lexeme ≠ Keyword.this.word → ∀ v m₁, m₁.Faithful → v.Faithful m₁ →
        Keeps m₁ (define name.lexeme v >>= fun _ => declareAll limit n ds)
          fun flow m' => flow.Faithful m' := by
      intro other v m₁ h₁ faithful
      apply (define_keeps h₁ other faithful).bind
      intro _ m₂ h₂ _ _
      exact ih.declareAll ds h₂ clean.2
    cases initial with
    | none =>
      have other : Keyword.this.word ≠ name.lexeme := by simpa [Declarator.names] using clean.1
      have start : Keeps m (pure Value.nil) fun v m' => v.Faithful m' := .pure h trivial
      apply start.bind
      intro v m₁ h₁ _ faithful
      exact others other.symm v m₁ h₁ faithful
    | some e =>
      have parts := clean.1
      rw [Declarator.names, List.mem_cons, not_or] at parts
      apply (ih.evaluate e h parts.2).bind
      intro v m₁ h₁ _ faithful
      exact others (Ne.symm parts.1) v m₁ h₁ faithful

/-- No parameter is named `this`, so the environment of a call does not bind it. -/
theorem find?_bindParams {params : List Token} (clean : ∀ t ∈ params, t.lexeme ≠ Keyword.this.word)
    (vs : List Value) : (bindParams params vs).find? Keyword.this.word = none := by
  cases found : (bindParams params vs).find? Keyword.this.word with
  | none => rfl
  | some v =>
    rcases of_find?_bindParams params vs [] found with ⟨⟨t, param, same⟩, _⟩ | nothing
    · exact absurd same (clean t param)
    · cases nothing

/-- What the environment of a call binds is what the call is given. -/
theorem faithful_bindParams {params : List Token} {vs : List Value}
    (given : ∀ v ∈ vs, v.Faithful m) (x : String) (v : Value)
    (found : (bindParams params vs).find? x = some v) : v.Faithful m := by
  rcases of_find?_bindParams params vs [] found with ⟨_, mem⟩ | nothing
  · exact given v mem
  · cases nothing

theorem call_keeps (ih : KeepsAll limit n) {c : Callable} {vs : List Value} (h : m.Faithful)
    (faithful : (Value.callable c).Faithful m) (given : ∀ v ∈ vs, v.Faithful m) :
    Keeps m (call limit (n + 1) c vs) fun v m' => v.Faithful m' := by
  cases c with
  | function f =>
    have faithful : f.Faithful m := faithful
    obtain ⟨params, body⟩ := Function.names_parts faithful.code
    apply (newEnvironment_keeps h (faithful_bindParams given) (find?_bindParams params vs)).bind
    intro scope m₁ h₁ _ ⟨lt, unbound⟩
    have inside := ih.executeAll f.code.body (h₁.move lt unbound) body
    apply (Keeps.within h₁ inside fun flow m₂ q => Flow.Faithful.mono q (.of_eq rfl rfl)).bind
    intro flow m₂ h₂ _ faithful
    split
    · exact receiver_keeps h₂ _
    · exact .pure h₂ faithful.value
  | native native => exact callNative_keeps h native vs
  | ofClass c =>
    have ofClass : c.Faithful := faithful
    apply (newInstance_keeps h).bind
    intro i m₁ h₁ later lt
    have object : (Value.object i c).Faithful m₁ := ⟨lt, ofClass⟩
    cases method : c.method? Class.initializerName with
    | none => exact .pure h₁ object
    | some f =>
      have own := ofClass.methods f (Closure.mem_of_lastNamed? method)
      apply (bindThis_keeps h₁ own.1 object).bind
      intro g m₂ h₂ later₂ bound
      have bound : (Value.callable (.function g)).Faithful m₂ := bound
      apply (ih.call h₂ bound fun v mem => (given v mem).mono (later.trans later₂)).bind
      intro v m₃ h₃ later₃ _
      exact .pure h₃ (object.mono (later₂.trans later₃))

/-- Whatever runs keeps receivers. -/
theorem keepsAll (limit : Option Nat) : ∀ n, KeepsAll limit n
  | 0 => ⟨fun _ _ _ => .starved, fun _ _ _ => .starved, fun _ _ _ => .starved, fun _ _ _ => .starved,
      fun _ _ _ => .starved, fun _ _ _ => .starved⟩
  | n + 1 =>
    have ih := keepsAll limit n
    ⟨fun _ => evaluate_keeps ih, fun _ => evaluateAll_keeps ih, fun _ => execute_keeps ih,
      fun _ => executeAll_keeps ih, fun _ => declareAll_keeps ih, call_keeps ih⟩

end Run

end LoxLang
