import LoxLang.Proofs.Receivers.Timeline
/-!
The states that a run comes by are in one line, whatever runs. Steps that note nothing need only keep
receivers; at a node, the state it is reached in and those that its mark tells of besides are on the way
of what follows (`InLine.node`).

What is proved: every watched run of a faithful machine is in line (`inLineAll`).
-/
namespace LoxLang

variable {α β : Type} {limit : Option Nat} {n : Nat} {m m' : Machine}

/-! Steps that note nothing -/

namespace Watched

def Silent (w : Watched α) : Prop := ∀ g m, w.Notes g m []

namespace Silent

theorem lift (r : Run α) : Silent (lift r) := fun _ _ => rfl

theorem pure (a : α) : Silent (pure a : Watched α) := fun _ _ => rfl

theorem bind {w : Watched α} {next : α → Watched β} (h : Silent w) (h' : ∀ a, Silent (next a)) :
    Silent (w >>= next) := by
  intro g m
  have first := h g m
  unfold Notes at *
  rcases bind_cases w next g m with
    ⟨a, m₁, g₁, eq, rest⟩ | ⟨f, m₁, g₁, eq, rest⟩ | ⟨g₁, eq, rest⟩
  · rw [eq] at first
    rw [rest, h' a g₁ m₁, first]
    rfl
  · rw [rest, ← first, eq]
  · rw [rest, ← first, eq]

theorem within {w : Watched α} (h : Silent w) (e : Nat) : Silent (within e w) := by
  intro g m
  have inside := h g { m with current := e }
  unfold Notes Watched.within at *
  rw [← inside]
  rcases w g { m with current := e } with ⟨_ | _ | _, _⟩ <;> rfl

theorem newClosure (p : Site) (code : Function) (initializer : Bool) :
    Silent (newClosure p code initializer) := fun _ _ => rfl

theorem bindThis (f : Closure) (v : Value) : Silent (bindThis f v) := fun _ _ => rfl

theorem newClosures (initializer : String → Bool) : ∀ (p : Site) (fs : List Function),
    Silent (newClosures initializer p fs)
  | _, [] => pure []
  | _, _ :: fs => (newClosure _ _ _).bind fun _ => (newClosures initializer _ fs).bind fun _ => pure _

theorem newClass (p : Site) (name : String) (methods statics : List Function) :
    Silent (newClass p name methods statics) :=
  (newClosures _ _ _).bind fun _ => (lift _).bind fun _ => (lift _).bind fun _ =>
    ((newClosures _ _ _).within _).bind fun _ => (lift _).bind fun _ => pure _

theorem property (id : Nat) (c : Class) (name : Token) : Silent (property id c name) := by
  refine (lift _).bind fun found => ?_
  cases found with
  | some v => exact pure v
  | none =>
    dsimp only
    split
    · exact (bindThis _ _).bind fun _ => pure _
    · exact pure _
    · exact lift _

theorem member (v : Value) (name : Token) : Silent (member v name) := by
  unfold Watched.member
  split
  · exact property _ _ _
  · split
    · exact pure _
    · exact lift _
  · exact lift _

end Silent

end Watched

theorem Run.Keeps.inLine {w : Watched α} {r : Run α} {Q : α → Machine → Prop} (h : Keeps m r Q)
    (erases : Watched.Erases w r) (silent : w.Silent) : InLine limit m w fun _ => r :=
  .unmarked erases (fun g => silent g m) fun _ ended => (h.ended ended).2

theorem Run.Keeps.lift {r : Run α} {Q : α → Machine → Prop} (h : Keeps m r Q) :
    InLine limit m (Watched.lift r) fun _ => r :=
  .lift fun _ ended => (h.ended ended).2

open Run

theorem InLine.andThen {w : Watched α} {R : Nat → Run α} {next : α → Watched β}
    {S : Nat → α → Run β} {Q : α → Machine → Prop} (h : InLine limit m w R)
    (keeps : ∀ k, Keeps m (R k) Q)
    (h' : ∀ a m', m'.Faithful → m.Before m' → Q a m' → InLine limit m' (next a) fun k => S k a) :
    InLine limit m (w >>= next) fun k => R k >>= S k := by
  refine h.bind fun k a m' ok => ?_
  obtain ⟨faithful, later, q⟩ := (keeps k).ok ok
  exact h' a m' faithful later q

theorem Run.Keeps.andThen {w : Watched α} {r : Run α} {next : α → Watched β} {S : Nat → α → Run β}
    {Q : α → Machine → Prop} (h : Keeps m r Q) (erases : Watched.Erases w r) (silent : w.Silent)
    (h' : ∀ a m', m'.Faithful → m.Before m' → Q a m' → InLine limit m' (next a) fun k => S k a) :
    InLine limit m (w >>= next) fun k => r >>= S k :=
  (h.inLine erases silent).andThen (fun _ => h) h'

/-! Nodes -/

theorem beforeCall_deepens (limit : Option Nat) {n k : Nat} (le : n ≤ k) (callee : Expr)
    (arguments : List Expr) :
    Deepens (beforeCall limit n callee arguments) (beforeCall limit k callee arguments) := by
  have all := deepens_all limit le
  apply (all.evaluate callee).bind
  intro v
  apply (all.evaluateAll arguments).bind
  intro vs
  exact .refl _

/-- Before a call there is one state, whatever the depth. -/
theorem beforeCall_unique {callee : Expr} {arguments : List Expr} {n k : Nat} {a b : Machine}
    (ended : (beforeCall limit n callee arguments m).state? = some a)
    (ended' : (beforeCall limit k callee arguments m).state? = some b) :
    beforeCall limit n callee arguments m = beforeCall limit k callee arguments m :=
  Outcome.unique (R := fun i => beforeCall limit i callee arguments m)
    (fun _ _ le => beforeCall_deepens limit le callee arguments m) ended ended'

theorem Cut.succ {w : Watched α} {R : Nat → Run α} {a : Machine}
    (h : Cut limit m w (fun k => R (k + 1)) a) (none : R 0 m = .starved) : Cut limit m w R a := by
  refine ⟨h.after, h.apart, fun k m' ended => ?_⟩
  cases k with
  | zero =>
    rw [none] at ended
    cases ended
  | succ k => exact h.before k m' ended

/-- An expression that is reached. Before a call begins there is one more state to be told of. -/
theorem InLine.node {w : Watched Value} {p : Site} {e : Expr}
    (h : InLine limit m w fun k => evaluate limit (k + 1) e) (faithful : m.Faithful)
    (clean : Keyword.this.word ∉ e.names)
    (calls : ∀ callee paren arguments, e = .call callee paren arguments → ∀ k a,
      (beforeCall limit k callee arguments m).state? = some a →
        Cut limit m w (fun k => evaluate limit (k + 1) e) a) :
    InLine limit m (Watched.reach p (.expression e) >>= fun _ => w) fun k => evaluate limit k e := by
  have deep : InLine limit m w fun k => evaluate limit k e := h.succ rfl
  have cuts : ∀ a, (Mark.reached p (.expression e) m).Moment limit a →
      Cut limit m w (fun k => evaluate limit k e) a := by
    intro a moment
    cases moment with
    | noted => exact .start deep
    | ended ended => exact .ended deep ended
    | called ended => exact (calls _ _ _ rfl _ a ended).succ rfl
  have mark : (Mark.reached p (.expression e) m).Faithful :=
    ⟨faithful, fun _ _ _ same => by cases same; exact clean⟩
  refine deep.note mark rfl (fun a b first second => ?_) cuts fun _ => rfl
  cases first with
  | noted => exact .inl (cuts b second).after
  | ended ended => exact .inr ((cuts b second).before _ a ended)
  | called ended =>
    have before := (cuts a (.called ended)).before
    cases second with
    | noted => exact .inr (cuts a (.called ended)).after
    | ended ended' => exact .inl (before _ b ended')
    | called ended' =>
      rw [beforeCall_unique ended ended', ended'] at ended
      cases ended
      exact .inl (.refl a)

/-- A call that is reached: the callee, the arguments, and then what is done with them. -/
theorem InLine.callNode {p : Site} {callee : Expr} {paren : Token} {arguments : List Expr}
    {w : Watched Value} {w' : Watched (List Value)} {K : Value → List Value → Watched Value}
    {S : Nat → Value → List Value → Run Value} (faithful : m.Faithful)
    (clean : Keyword.this.word ∉ (Expr.call callee paren arguments).names)
    (first : InLine limit m w fun k => evaluate limit k callee)
    (second : ∀ {m₁ : Machine}, m₁.Faithful →
      InLine limit m₁ w' fun k => evaluateAll limit k arguments)
    (rest : ∀ v vs m₂, m₂.Faithful → v.Faithful m₂ → (∀ u ∈ vs, u.Faithful m₂) →
      InLine limit m₂ (K v vs) fun k => S k v vs)
    (unfolds : ∀ k, evaluate limit (k + 1) (.call callee paren arguments) =
      evaluate limit k callee >>= fun v => evaluateAll limit k arguments >>= S k v) :
    InLine limit m
      (Watched.reach p (.expression (.call callee paren arguments)) >>= fun _ =>
        w >>= fun v => w' >>= K v)
      fun k => evaluate limit k (.call callee paren arguments) := by
  have parts := clean
  rw [Expr.names, List.mem_append, not_or] at parts
  have done {k v m₁ vs m₂} (h₁ : m₁.Faithful) (ok : evaluateAll limit k arguments m₁ = .ok vs m₂)
      (faithful : v.Faithful m₁) : InLine limit m₂ (K v vs) fun k => S k v vs := by
    obtain ⟨h₂, later, given⟩ := ((keepsAll limit k).evaluateAll arguments h₁ parts.2).ok ok
    exact rest v vs m₂ h₂ (faithful.mono later) given
  have ready {k v m₁} (ok : evaluate limit k callee m = .ok v m₁) : m₁.Faithful ∧ v.Faithful m₁ := by
    obtain ⟨h₁, _, faithful⟩ := ((keepsAll limit k).evaluate callee faithful parts.1).ok ok
    exact ⟨h₁, faithful⟩
  have given {k v m₁} (ok : evaluate limit k callee m = .ok v m₁) :
      InLine limit m₁ (w' >>= K v) fun k => evaluateAll limit k arguments >>= S k v :=
    (second (ready ok).1).bind fun _ _ _ ok' => done (ready ok).1 ok' (ready ok).2
  refine InLine.node ?_ faithful clean ?_
  · simp only [unfolds]
    exact first.bind fun _ _ _ ok => given ok
  · intro callee' paren' arguments' same k a ended
    cases same
    simp only [unfolds]
    rcases Run.ended_bind ended with ⟨f, failed⟩ | ⟨v, m₁, ok, ended⟩
    · exact .first first (fun _ _ _ ok => given ok) (n := k) (by rw [failed]; rfl)
    · refine .second first (fun _ _ _ ok => given ok) ok ?_
      refine .first (second (ready ok).1) (fun _ _ _ ok' => done (ready ok).1 ok' (ready ok).2)
        (n := k) ?_
      rcases Run.ended_bind ended with ⟨f, failed⟩ | ⟨vs, m₂, ok', ended⟩
      · rw [failed]
        rfl
      · cases ended
        rw [ok']
        rfl

theorem InLine.access {w : Watched α} {R : Nat → Run α} {p : Site} {name : Token}
    {depth : Option Nat} (h : InLine limit m w R) (faithful : m.Faithful) :
    InLine limit m (Watched.access p name depth >>= fun _ => w) R := by
  have mark : (Mark.accessed p name depth m).Faithful := ⟨faithful, fun _ _ _ same => by cases same⟩
  refine h.noteState mark (fun a moment => ?_) fun _ => rfl
  cases moment
  rfl

theorem InLine.reach {w : Watched α} {R : Nat → Run α} {p : Site} {s : Stmt}
    (h : InLine limit m w R) (faithful : m.Faithful) :
    InLine limit m (Watched.reach p (.statement s) >>= fun _ => w) R := by
  have mark : (Mark.reached p (.statement s) m).Faithful := ⟨faithful, fun _ _ _ same => by cases same⟩
  refine h.noteState mark (fun a moment => ?_) fun _ => rfl
  cases moment
  rfl

theorem InLine.originOf {next : Option Site → Watched α} {R : Nat → Run α} {id : Nat}
    (h : ∀ p, InLine limit m (next p) R) : InLine limit m (Watched.originOf id >>= next) R where
  agree := (h none).agree
  same g := (h (g.origins id)).same g
  forward := (h none).forward
  exists_notes g := (h (g.origins id)).exists_notes g
  line g := (h (g.origins id)).line g
  above g := (h (g.origins id)).above g
  below g := (h (g.origins id)).below g

/-! Expressions, statements and calls -/

/-- What is proved of all watched runs of one depth. -/
structure InLineAll (limit : Option Nat) (n : Nat) : Prop where
  evaluate : ∀ {m} p e, m.Faithful → Keyword.this.word ∉ e.names →
    InLine limit m (Watched.evaluate limit n p e) fun k => evaluate limit k e
  evaluateAll : ∀ {m} p es, m.Faithful → Keyword.this.word ∉ Expr.allNames es →
    InLine limit m (Watched.evaluateAll limit n p es) fun k => evaluateAll limit k es
  execute : ∀ {m} p s, m.Faithful → Keyword.this.word ∉ s.names →
    InLine limit m (Watched.execute limit n p s) fun k => execute limit k s
  executeAll : ∀ {m} p ss, m.Faithful → Keyword.this.word ∉ Stmt.allNames ss →
    InLine limit m (Watched.executeAll limit n p ss) fun k => executeAll limit k ss
  declareAll : ∀ {m} p ds, m.Faithful → Keyword.this.word ∉ Declarator.allNames ds →
    InLine limit m (Watched.declareAll limit n p ds) fun k => declareAll limit k ds
  call : ∀ {m} c vs, m.Faithful → (Value.callable c).Faithful m → (∀ v ∈ vs, v.Faithful m) →
    InLine limit m (Watched.call limit n c vs) fun k => call limit k c vs

theorem evaluate_inLine (ih : InLineAll limit n) (p : Site) {e : Expr} (h : m.Faithful)
    (clean : Keyword.this.word ∉ e.names) :
    InLine limit m (Watched.evaluate limit (n + 1) p e) fun k => evaluate limit k e := by
  have parts := clean
  cases e with
  | literal value => exact InLine.node (.pure _) h clean (by rintro _ _ _ ⟨⟩)
  | group inner => exact InLine.node (ih.evaluate _ inner h clean) h clean (by rintro _ _ _ ⟨⟩)
  | unary op right =>
    refine InLine.node ?_ h clean (by rintro _ _ _ ⟨⟩)
    apply (ih.evaluate _ right h clean).andThen fun k => (keepsAll limit k).evaluate right h clean
    intro v m₁ h₁ _ _
    exact (lift_keeps h₁ fun _ => plain_of_unary).lift
  | binary left op right =>
    rw [Expr.names, List.mem_append, not_or] at parts
    refine InLine.node ?_ h clean (by rintro _ _ _ ⟨⟩)
    apply (ih.evaluate _ left h parts.1).andThen fun k =>
      (keepsAll limit k).evaluate left h parts.1
    intro v m₁ h₁ _ _
    apply (ih.evaluate _ right h₁ parts.2).andThen fun k =>
      (keepsAll limit k).evaluate right h₁ parts.2
    intro w m₂ h₂ _ _
    exact (lift_keeps h₂ fun _ => plain_of_binary).lift
  | logical left op right =>
    rw [Expr.names, List.mem_append, not_or] at parts
    refine InLine.node ?_ h clean (by rintro _ _ _ ⟨⟩)
    apply (ih.evaluate _ left h parts.1).andThen fun k =>
      (keepsAll limit k).evaluate left h parts.1
    intro v m₁ h₁ _ _
    split
    · exact .pure v
    · exact ih.evaluate _ right h₁ parts.2
  | ternary condition whenTrue whenFalse =>
    rw [Expr.names, List.mem_append, List.mem_append, not_or, not_or] at parts
    refine InLine.node ?_ h clean (by rintro _ _ _ ⟨⟩)
    apply (ih.evaluate _ condition h parts.1).andThen fun k =>
      (keepsAll limit k).evaluate condition h parts.1
    intro v m₁ h₁ _ _
    split
    · exact ih.evaluate _ whenTrue h₁ parts.2.1
    · exact ih.evaluate _ whenFalse h₁ parts.2.2
  | «variable» name depth =>
    exact InLine.node (.access (lookUp_keeps h name depth).lift h) h clean (by rintro _ _ _ ⟨⟩)
  | «this» keyword depth =>
    exact InLine.node (.access (lookUp_keeps h keyword depth).lift h) h clean (by rintro _ _ _ ⟨⟩)
  | assign name value depth =>
    rw [Expr.names, List.mem_cons, not_or] at parts
    refine InLine.node ?_ h clean (by rintro _ _ _ ⟨⟩)
    apply (ih.evaluate _ value h parts.2).andThen fun k =>
      (keepsAll limit k).evaluate value h parts.2
    intro v m₁ h₁ _ faithful
    refine .access ?_ h₁
    apply (assign_keeps h₁ (Ne.symm parts.1) faithful).andThen (.lift _) (.lift _)
    intro _ m₂ _ _ _
    exact .pure v
  | call callee paren arguments =>
    rw [Expr.names, List.mem_append, not_or] at parts
    refine InLine.callNode h clean (ih.evaluate _ callee h parts.1)
      (fun h₁ => ih.evaluateAll _ arguments h₁ parts.2) (fun v vs m₂ h₂ faithful given => ?_)
      fun k => rfl
    cases v with
    | callable c =>
      dsimp only
      split
      · have same : m₂.Before { m₂ with callDepth := m₂.callDepth + 1 } := .of_eq rfl rfl
        apply InLine.asCall
        exact ih.call c vs (h₂.congr rfl rfl rfl) (faithful.mono same)
          fun w mem => (given w mem).mono same
      · exact .fault _ _
    | _ => exact .fault _ _
  | property object name =>
    refine InLine.node ?_ h clean (by rintro _ _ _ ⟨⟩)
    apply (ih.evaluate _ object h clean).andThen fun k =>
      (keepsAll limit k).evaluate object h clean
    intro v m₁ h₁ _ faithful
    exact (member_keeps h₁ faithful name).inLine (.member v name) (.member v name)
  | setProperty object name value =>
    rw [Expr.names, List.mem_append, not_or] at parts
    refine InLine.node ?_ h clean (by rintro _ _ _ ⟨⟩)
    apply (ih.evaluate _ object h parts.1).andThen fun k =>
      (keepsAll limit k).evaluate object h parts.1
    intro v m₁ h₁ _ _
    cases v with
    | object i c =>
      apply (ih.evaluate _ value h₁ parts.2).andThen fun k =>
        (keepsAll limit k).evaluate value h₁ parts.2
      intro w m₂ h₂ _ faithful
      apply (setField_keeps h₂ faithful).andThen (.lift _) (.lift _)
      intro _ m₃ _ _ _
      exact .pure w
    | _ => exact .fault _ _
  | lambda code =>
    refine InLine.node ?_ h clean (by rintro _ _ _ ⟨⟩)
    apply (newClosure_keeps h).andThen (.newClosure _ _ _) (.newClosure _ _ _)
    intro f m₁ _ _ _
    exact .pure _

theorem evaluateAll_inLine (ih : InLineAll limit n) (p : Site) {es : List Expr} (h : m.Faithful)
    (clean : Keyword.this.word ∉ Expr.allNames es) :
    InLine limit m (Watched.evaluateAll limit (n + 1) p es) fun k => evaluateAll limit k es := by
  apply InLine.succ _ rfl
  cases es with
  | nil => exact .pure []
  | cons e es =>
    rw [Expr.allNames, List.mem_append, not_or] at clean
    apply (ih.evaluate _ e h clean.1).andThen fun k => (keepsAll limit k).evaluate e h clean.1
    intro v m₁ h₁ _ _
    apply (ih.evaluateAll _ es h₁ clean.2).andThen fun k =>
      (keepsAll limit k).evaluateAll es h₁ clean.2
    intro vs m₂ _ _ _
    exact .pure (v :: vs)

theorem execute_inLine (ih : InLineAll limit n) (p : Site) {s : Stmt} (h : m.Faithful)
    (clean : Keyword.this.word ∉ s.names) :
    InLine limit m (Watched.execute limit (n + 1) p s) fun k => execute limit k s := by
  apply InLine.succ _ rfl
  apply InLine.reach _ h
  cases s with
  | expression value =>
    apply (ih.evaluate _ value h clean).andThen fun k => (keepsAll limit k).evaluate value h clean
    intro v m₁ _ _ _
    exact .pure _
  | print value =>
    apply (ih.evaluate _ value h clean).andThen fun k => (keepsAll limit k).evaluate value h clean
    intro v m₁ h₁ _ _
    apply (still_keeps h₁ (.writeLine v.text)).andThen (.lift _) (.lift _)
    intro _ m₂ _ _ _
    exact .pure _
  | declare d =>
    exact ih.declareAll _ [d] h (by simpa [Declarator.allNames, Stmt.names] using clean)
  | declareAll ds => exact ih.declareAll _ ds h clean
  | block body =>
    apply (current_keeps h).andThen (.lift _) (.lift _)
    intro here m₁ h₁ _ _
    apply (newEnvironment_keeps h₁ (fun _ _ found => by cases found) rfl).andThen (.lift _) (.lift _)
    rintro scope m₂ h₂ _ ⟨lt, unbound⟩
    exact (ih.executeAll _ body (h₂.move lt unbound) clean).within
  | conditional condition whenTrue whenFalse =>
    cases whenFalse with
    | none =>
      rw [Stmt.names, List.mem_append, not_or] at clean
      apply (ih.evaluate _ condition h clean.1).andThen fun k =>
        (keepsAll limit k).evaluate condition h clean.1
      intro v m₁ h₁ _ _
      split
      · exact ih.execute _ whenTrue h₁ clean.2
      · exact .pure _
    | some whenFalse =>
      rw [Stmt.names, List.mem_append, List.mem_append, not_or, not_or] at clean
      apply (ih.evaluate _ condition h clean.1).andThen fun k =>
        (keepsAll limit k).evaluate condition h clean.1
      intro v m₁ h₁ _ _
      split
      · exact ih.execute _ whenTrue h₁ clean.2.1
      · exact ih.execute _ whenFalse h₁ clean.2.2
  | loop condition body =>
    have parts := clean
    rw [Stmt.names, List.mem_append, not_or] at parts
    apply (ih.evaluate _ condition h parts.1).andThen fun k =>
      (keepsAll limit k).evaluate condition h parts.1
    intro v m₁ h₁ _ _
    split
    · apply (ih.execute _ body h₁ parts.2).andThen fun k =>
        (keepsAll limit k).execute body h₁ parts.2
      intro flow m₂ h₂ _ _
      cases flow with
      | normal => exact ih.execute _ (.loop condition body) h₂ clean
      | returned v => exact .pure _
    · exact .pure _
  | declareFunction code =>
    rw [Stmt.names, List.mem_cons, not_or] at clean
    apply (newClosure_keeps h).andThen (.newClosure _ _ _) (.newClosure _ _ _)
    rintro f m₁ h₁ _ ⟨made, plain⟩
    have faithful : (Value.callable (.function f)).Faithful m₁ :=
      Closure.Faithful.of_plain (made ▸ clean.2) plain
    apply (define_keeps h₁ (Ne.symm clean.1) faithful).andThen (.lift _) (.lift _)
    intro _ m₂ _ _ _
    exact .pure _
  | returns keyword value =>
    cases value with
    | none => exact .pure _
    | some value =>
      apply (ih.evaluate _ value h clean).andThen fun k =>
        (keepsAll limit k).evaluate value h clean
      intro v m₁ _ _ _
      exact .pure _
  | declareClass name methods statics =>
    rw [Stmt.names, List.mem_cons, List.mem_append, not_or, not_or] at clean
    apply (newClass_keeps h clean.2.1 clean.2.2).andThen (.newClass _ _ _ _) (.newClass _ _ _ _)
    intro c m₁ h₁ _ faithful
    have faithful : (Value.callable (.ofClass c)).Faithful m₁ := faithful
    apply (define_keeps h₁ (Ne.symm clean.1) faithful).andThen (.lift _) (.lift _)
    intro _ m₂ _ _ _
    exact .pure _

theorem executeAll_inLine (ih : InLineAll limit n) (p : Site) {ss : List Stmt} (h : m.Faithful)
    (clean : Keyword.this.word ∉ Stmt.allNames ss) :
    InLine limit m (Watched.executeAll limit (n + 1) p ss) fun k => executeAll limit k ss := by
  apply InLine.succ _ rfl
  cases ss with
  | nil => exact .pure _
  | cons s ss =>
    rw [Stmt.allNames, List.mem_append, not_or] at clean
    apply (ih.execute _ s h clean.1).andThen fun k => (keepsAll limit k).execute s h clean.1
    intro flow m₁ h₁ _ _
    cases flow with
    | normal => exact ih.executeAll _ ss h₁ clean.2
    | returned v => exact .pure _

theorem declareAll_inLine (ih : InLineAll limit n) (p : Site) {ds : List Declarator}
    (h : m.Faithful) (clean : Keyword.this.word ∉ Declarator.allNames ds) :
    InLine limit m (Watched.declareAll limit (n + 1) p ds) fun k => declareAll limit k ds := by
  apply InLine.succ _ rfl
  cases ds with
  | nil => exact .pure _
  | cons d ds =>
    obtain ⟨name, initial⟩ := d
    rw [Declarator.allNames, List.mem_append, not_or] at clean
    have others : name.lexeme ≠ Keyword.this.word → ∀ v m₁, m₁.Faithful → v.Faithful m₁ →
        InLine limit m₁ (Watched.lift (define name.lexeme v) >>= fun _ =>
            Watched.declareAll limit n (p.child 1) ds)
          fun k => define name.lexeme v >>= fun _ => declareAll limit k ds := by
      intro other v m₁ h₁ faithful
      apply (define_keeps h₁ other faithful).andThen (.lift _) (.lift _)
      intro _ m₂ h₂ _ _
      exact ih.declareAll _ ds h₂ clean.2
    cases initial with
    | none =>
      have other : Keyword.this.word ≠ name.lexeme := by simpa [Declarator.names] using clean.1
      have start : Keeps m (pure Value.nil) fun v m' => v.Faithful m' := .pure h trivial
      apply start.andThen (.pure _) (.pure _)
      intro v m₁ h₁ _ faithful
      exact others other.symm v m₁ h₁ faithful
    | some e =>
      have parts := clean.1
      rw [Declarator.names, List.mem_cons, not_or] at parts
      apply (ih.evaluate _ e h parts.2).andThen fun k => (keepsAll limit k).evaluate e h parts.2
      intro v m₁ h₁ _ faithful
      exact others (Ne.symm parts.1) v m₁ h₁ faithful

theorem call_inLine (ih : InLineAll limit n) {c : Callable} {vs : List Value} (h : m.Faithful)
    (faithful : (Value.callable c).Faithful m) (given : ∀ v ∈ vs, v.Faithful m) :
    InLine limit m (Watched.call limit (n + 1) c vs) fun k => call limit k c vs := by
  apply InLine.succ _ rfl
  cases c with
  | function f =>
    have faithful : f.Faithful m := faithful
    obtain ⟨params, body⟩ := Function.names_parts faithful.code
    apply InLine.originOf
    intro p
    apply (newEnvironment_keeps h (faithful_bindParams given) (find?_bindParams params vs)).andThen
      (.lift _) (.lift _)
    intro scope m₁ h₁ _ ⟨lt, unbound⟩
    have inside := h₁.move lt unbound
    apply (ih.executeAll _ f.code.body inside body).within.andThen fun k =>
      Keeps.within h₁ ((keepsAll limit k).executeAll f.code.body inside body)
        fun flow m₂ q => Flow.Faithful.mono q (.of_eq rfl rfl)
    intro flow m₂ h₂ _ _
    split
    · exact (receiver_keeps h₂ f.scope).lift
    · exact .pure _
  | native native => exact (callNative_keeps h native vs).lift
  | ofClass c =>
    have ofClass : c.Faithful := faithful
    apply (newInstance_keeps h).andThen (.lift _) (.lift _)
    intro i m₁ h₁ later lt
    have object : (Value.object i c).Faithful m₁ := ⟨lt, ofClass⟩
    cases method : c.method? Class.initializerName with
    | none => exact .pure _
    | some f =>
      have own := ofClass.methods f (Closure.mem_of_lastNamed? method)
      apply (bindThis_keeps h₁ own.1 object).andThen (.bindThis _ _) (.bindThis _ _)
      intro g m₂ h₂ later₂ bound
      have bound : (Value.callable (.function g)).Faithful m₂ := bound
      have given : ∀ v ∈ vs, v.Faithful m₂ := fun v mem => (given v mem).mono (later.trans later₂)
      apply (ih.call _ vs h₂ bound given).andThen fun k => (keepsAll limit k).call h₂ bound given
      intro v m₃ _ _ _
      exact .pure _

/-- Whatever runs, the states it comes by are in one line. -/
theorem inLineAll (limit : Option Nat) : ∀ n, InLineAll limit n
  | 0 => by
    refine ⟨fun _ e h clean => ?_, fun _ es h clean => ?_, fun _ s h clean => ?_,
      fun _ ss h clean => ?_, fun _ ds h clean => ?_, fun c vs h faithful given => ?_⟩
    · exact .starved (fun _ _ le => (deepens_all limit le).evaluate e _)
        fun k _ ended => (((keepsAll limit k).evaluate e h clean).ended ended).2
    · exact .starved (fun _ _ le => (deepens_all limit le).evaluateAll es _)
        fun k _ ended => (((keepsAll limit k).evaluateAll es h clean).ended ended).2
    · exact .starved (fun _ _ le => (deepens_all limit le).execute s _)
        fun k _ ended => (((keepsAll limit k).execute s h clean).ended ended).2
    · exact .starved (fun _ _ le => (deepens_all limit le).executeAll ss _)
        fun k _ ended => (((keepsAll limit k).executeAll ss h clean).ended ended).2
    · exact .starved (fun _ _ le => (deepens_all limit le).declareAll ds _)
        fun k _ ended => (((keepsAll limit k).declareAll ds h clean).ended ended).2
    · exact .starved (fun _ _ le => (deepens_all limit le).call c vs _)
        fun k _ ended => (((keepsAll limit k).call h faithful given).ended ended).2
  | n + 1 =>
    have ih := inLineAll limit n
    ⟨fun p _ => evaluate_inLine ih p, fun p _ => evaluateAll_inLine ih p,
      fun p _ => execute_inLine ih p, fun p _ => executeAll_inLine ih p,
      fun p _ => declareAll_inLine ih p, fun _ _ => call_inLine ih⟩

end LoxLang
