import LoxLang.Proofs.Renaming.Steps
/-!
Programs that are twins run alike.

What is proved, by induction on the depth that a run uses up: from twin machines, the runs of twin
expressions, statements and functions fare alike (`agreeAll`), and so do those of twin programs
(`interpret_agree`).
-/
namespace LoxLang

inductive Flow.Twin (σ : Exchange) (p : Pair) : Flow → Flow → Prop
  | normal : Flow.Twin σ p .normal .normal
  | returned {v v' : Value} : Value.Twin σ p v v' → Flow.Twin σ p (.returned v) (.returned v')

section

variable {σ : Exchange} {limit : Option Nat} {n : Nat}

theorem Flow.Twin.value {p : Pair} {flow flow' : Flow} (h : Flow.Twin σ p flow flow') :
    Value.Twin σ p flow.value flow'.value := by
  cases h with
  | normal => exact .nil
  | returned twin => exact twin

theorem Flow.Twin.mono {p p' : Pair} {flow flow' : Flow} (h : Flow.Twin σ p flow flow')
    (grows : p.Grows p') : Flow.Twin σ p' flow flow' := by
  cases h with
  | normal => exact .normal
  | returned twin => exact .returned (twin.mono grows)

/-- What is proved of all runs of some depth at once. -/
structure AgreeAll (σ : Exchange) (limit : Option Nat) (n : Nat) : Prop where
  evaluate : ∀ {p : Pair} {marks : List Bool} {e e' : Expr}, p.Like σ →
    p.Sees p.left.current marks → Expr.Twin σ marks e e' →
      Agree σ p (Run.evaluate limit n e) (Run.evaluate limit n e')
        fun v v' p' => Value.Twin σ p' v v'
  evaluateAll : ∀ {p : Pair} {marks : List Bool} {es es' : List Expr}, p.Like σ →
    p.Sees p.left.current marks → Expr.AllTwin σ marks es es' →
      Agree σ p (Run.evaluateAll limit n es) (Run.evaluateAll limit n es')
        fun vs vs' p' => List.Forall₂ (Value.Twin σ p') vs vs'
  execute : ∀ {p : Pair} {marks : List Bool} {s s' : Stmt}, p.Like σ →
    p.Sees p.left.current marks → Stmt.Twin σ marks s s' →
      Agree σ p (Run.execute limit n s) (Run.execute limit n s')
        fun flow flow' p' => Flow.Twin σ p' flow flow'
  executeAll : ∀ {p : Pair} {marks : List Bool} {ss ss' : List Stmt}, p.Like σ →
    p.Sees p.left.current marks → Stmt.AllTwin σ marks ss ss' →
      Agree σ p (Run.executeAll limit n ss) (Run.executeAll limit n ss')
        fun flow flow' p' => Flow.Twin σ p' flow flow'
  declareAll : ∀ {p : Pair} {marks : List Bool} {ds ds' : List Declarator}, p.Like σ →
    p.Sees p.left.current marks → Declarator.AllTwin σ marks ds ds' →
      Agree σ p (Run.declareAll limit n ds) (Run.declareAll limit n ds')
        fun flow flow' p' => Flow.Twin σ p' flow flow'
  call : ∀ {p : Pair} {c c' : Callable} {vs vs' : List Value}, p.Like σ →
    Value.Twin σ p (.callable c) (.callable c') → List.Forall₂ (Value.Twin σ p) vs vs' →
      Agree σ p (Run.call limit n c vs) (Run.call limit n c' vs')
        fun v v' p' => Value.Twin σ p' v v'

variable {p : Pair} {marks : List Bool}

/-- Two calls: both have as many arguments as they take, or both do not. -/
theorem asCall_agree (ih : AgreeAll σ limit n) (paren : Token) {c c' : Callable}
    {vs vs' : List Value} (like : p.Like σ)
    (twin : Value.Twin σ p (.callable c) (.callable c'))
    (values : List.Forall₂ (Value.Twin σ p) vs vs') :
    Agree σ p
      (if vs.length = c.arity then Run.asCall limit paren (Run.call limit n c vs)
        else Run.fault paren (.arity c.arity vs.length))
      (if vs'.length = c'.arity then Run.asCall limit paren (Run.call limit n c' vs')
        else Run.fault paren (.arity c'.arity vs'.length))
      fun v v' p' => Value.Twin σ p' v v' := by
  have lengths := values.length_eq
  have arities := twin.alike.arity Closure.Twin.kin
  by_cases fits : vs.length = c.arity
  · rw [if_pos fits, if_pos (by omega)]
    refine .asCall like fun p₁ like₁ follows₁ => ?_
    have values₁ := values.imp fun _ _ twin => twin.mono follows₁.grows
    refine (ih.call like₁ (twin.mono follows₁.grows) values₁).weaken ?_
    intro u u' p₂ _ _ twin p₃ grows _
    exact twin.mono grows
  · rw [if_neg fits, if_neg (by omega)]
    exact .fail like rfl rfl

theorem evaluate_agree (ih : AgreeAll σ limit n) {e e' : Expr} (like : p.Like σ)
    (sees : p.Sees p.left.current marks) (twin : Expr.Twin σ marks e e') :
    Agree σ p (Run.evaluate limit (n + 1) e) (Run.evaluate limit (n + 1) e')
      fun v v' p' => Value.Twin σ p' v v' := by
  cases twin with
  | literal value => exact .pure like (Value.twin_iff.mpr (Literal.plain value).alike)
  | group inner => exact ih.evaluate like sees inner
  | unary op right =>
    refine (ih.evaluate like sees right).bind fun v v' p₁ like₁ _ twin => ?_
    rw [twin.alike.unary]
    exact .lift like₁ fun _ => plain_of_unary
  | binary op left right =>
    refine (ih.evaluate like sees left).bind fun v v' p₁ like₁ follows₁ twin => ?_
    refine (ih.evaluate like₁ (sees.follow follows₁) right).bind
      fun u u' p₂ like₂ follows₂ twin' => ?_
    rw [(twin.mono follows₂.grows).alike.binary Closure.Twin.kin op.kind twin'.alike]
    exact .lift like₂ fun _ => plain_of_binary
  | logical op left right =>
    refine (ih.evaluate like sees left).bind fun v v' p₁ like₁ follows₁ twin => ?_
    rw [twin.alike.truthy]
    by_cases short : (v.truthy == op.isKeyword .or) = true
    · rw [if_pos short, if_pos short]
      exact .pure like₁ twin
    · rw [if_neg short, if_neg short]
      exact ih.evaluate like₁ (sees.follow follows₁) right
  | ternary a b c =>
    refine (ih.evaluate like sees a).bind fun v v' p₁ like₁ follows₁ twin => ?_
    rw [twin.alike.truthy]
    by_cases truthy : v.truthy = true
    · rw [if_pos truthy, if_pos truthy]
      exact ih.evaluate like₁ (sees.follow follows₁) b
    · rw [if_neg truthy, if_neg truthy]
      exact ih.evaluate like₁ (sees.follow follows₁) c
  | «variable» name => exact .lookUp like sees name
  | «this» keyword => exact .lookUp like sees keyword
  | assign value name =>
    refine (ih.evaluate like sees value).bind fun v v' p₁ like₁ follows₁ twin => ?_
    have assigned := Agree.assign (Q := fun _ _ p' => Value.Twin σ p' v v') like₁
      (sees.follow follows₁) name twin fun p₂ _ follows₂ => twin.mono follows₂.grows
    exact assigned.bind fun _ _ p₂ like₂ _ twin => .pure like₂ twin
  | call paren callee arguments =>
    refine (ih.evaluate like sees callee).bind fun v v' p₁ like₁ follows₁ twin => ?_
    refine (ih.evaluateAll like₁ (sees.follow follows₁) arguments).bind
      fun vs vs' p₂ like₂ follows₂ values => ?_
    cases twin.mono follows₂.grows with
    | function made => exact asCall_agree ih paren like₂ (.function made) values
    | native n => exact asCall_agree ih paren like₂ (.native n) values
    | ofClass made => exact asCall_agree ih paren like₂ (.ofClass made) values
    | _ => exact .fail like₂ rfl rfl
  | property name object =>
    exact (ih.evaluate like sees object).bind fun v v' p₁ like₁ _ twin => .member name like₁ twin
  | setProperty name object value =>
    refine (ih.evaluate like sees object).bind fun v v' p₁ like₁ follows₁ twin => ?_
    cases twin with
    | object id twin =>
      refine (ih.evaluate like₁ (sees.follow follows₁) value).bind
        fun u u' p₂ like₂ follows₂ twin => ?_
      exact (Agree.setField like₂ twin).bind fun _ _ p₃ like₃ follows₃ _ =>
        .pure like₃ (twin.mono follows₃.grows)
    | _ => exact .fail like₁ rfl rfl
  | lambda code =>
    exact (Agree.newClosure [] false like sees code).bind
      fun f f' p₁ like₁ _ twin => .pure like₁ (.function twin)

theorem evaluateAll_agree (ih : AgreeAll σ limit n) {es es' : List Expr} (like : p.Like σ)
    (sees : p.Sees p.left.current marks) (twins : Expr.AllTwin σ marks es es') :
    Agree σ p (Run.evaluateAll limit (n + 1) es) (Run.evaluateAll limit (n + 1) es')
      fun vs vs' p' => List.Forall₂ (Value.Twin σ p') vs vs' := by
  cases twins with
  | nil => exact .pure like .nil
  | cons first rest =>
    refine (ih.evaluate like sees first).bind fun v v' p₁ like₁ follows₁ twin => ?_
    refine (ih.evaluateAll like₁ (sees.follow follows₁) rest).bind
      fun vs vs' p₂ like₂ follows₂ twins => ?_
    exact .pure like₂ (.cons (twin.mono follows₂.grows) twins)

theorem within_agree (ih : AgreeAll σ limit n) {e : Nat} {body body' : List Stmt} (like : p.Like σ)
    (sees : p.Sees e marks) (twins : Stmt.AllTwin σ marks body body') :
    Agree σ p (Run.within e (Run.executeAll limit n body))
      (Run.within e (Run.executeAll limit n body'))
      fun flow flow' p' => Flow.Twin σ p' flow flow' := by
  refine .within like fun p₁ like₁ grows₁ there => ?_
  have sees₁ : p₁.Sees p₁.left.current marks := there ▸ sees.mono grows₁
  refine (ih.executeAll like₁ sees₁ twins).weaken ?_
  intro flow flow' p₂ _ _ twin p₃ grows _
  exact twin.mono grows

/-- What the marks say of a name that is declared where statements run. -/
theorem marked_current (sees : p.Sees p.left.current marks) :
    p.marked p.left.current = marks.headD false := by
  rw [sees.2 0 p.left.current rfl]
  cases marks <;> rfl

/-- A function or class under the name that both programs give it. -/
theorem define_agree {x : Token} {v v' : Value} (like : p.Like σ)
    (sees : p.Sees p.left.current marks) (name : x.Twin σ (marks.headD false) x)
    (twin : Value.Twin σ p v v') :
    Agree σ p (Run.define x.lexeme v >>= fun _ => pure Flow.normal)
      (Run.define x.lexeme v' >>= fun _ => pure Flow.normal)
      fun flow flow' p' => Flow.Twin σ p' flow flow' := by
  have same : x.lexeme = σ.swap (p.marked p.left.current) x.lexeme := by
    rw [marked_current sees]
    exact name
  have defined := Agree.define (Q := fun _ _ _ => True) like same twin fun _ _ _ => trivial
  exact defined.bind fun _ _ p₁ like₁ _ _ => .pure like₁ .normal

theorem execute_agree (ih : AgreeAll σ limit n) {s s' : Stmt} (like : p.Like σ)
    (sees : p.Sees p.left.current marks) (twin : Stmt.Twin σ marks s s') :
    Agree σ p (Run.execute limit (n + 1) s) (Run.execute limit (n + 1) s')
      fun flow flow' p' => Flow.Twin σ p' flow flow' := by
  have whole := twin
  cases twin with
  | expression value =>
    exact (ih.evaluate like sees value).bind fun _ _ p₁ like₁ _ _ => .pure like₁ .normal
  | print value =>
    refine (ih.evaluate like sees value).bind fun v v' p₁ like₁ _ twin => ?_
    rw [twin.alike.text Closure.Twin.kin]
    exact (Agree.writeLine v.text like₁).bind fun _ _ p₂ like₂ _ _ => .pure like₂ .normal
  | declare d => exact ih.declareAll like sees (.cons d .nil)
  | declareAll ds => exact ih.declareAll like sees ds
  | block mark body =>
    refine (Agree.current like).bind fun outer outer' p₁ like₁ follows₁ same => ?_
    obtain ⟨rfl, rfl⟩ := same
    exact .newEnvironment mark like₁ (sees.follow follows₁) (fun _ => .none)
      fun e p₂ like₂ _ sees₂ _ => within_agree ih like₂ sees₂ body
  | onlyIf condition whenTrue =>
    refine (ih.evaluate like sees condition).bind fun v v' p₁ like₁ follows₁ twin => ?_
    rw [twin.alike.truthy]
    by_cases truthy : v.truthy = true
    · rw [if_pos truthy, if_pos truthy]
      exact ih.execute like₁ (sees.follow follows₁) whenTrue
    · rw [if_neg truthy, if_neg truthy]
      exact .pure like₁ .normal
  | orElse condition whenTrue whenFalse =>
    refine (ih.evaluate like sees condition).bind fun v v' p₁ like₁ follows₁ twin => ?_
    rw [twin.alike.truthy]
    by_cases truthy : v.truthy = true
    · rw [if_pos truthy, if_pos truthy]
      exact ih.execute like₁ (sees.follow follows₁) whenTrue
    · rw [if_neg truthy, if_neg truthy]
      exact ih.execute like₁ (sees.follow follows₁) whenFalse
  | loop condition body =>
    refine (ih.evaluate like sees condition).bind fun v v' p₁ like₁ follows₁ twin => ?_
    rw [twin.alike.truthy]
    by_cases truthy : v.truthy = true
    · rw [if_pos truthy, if_pos truthy]
      refine (ih.execute like₁ (sees.follow follows₁) body).bind
        fun flow flow' p₂ like₂ follows₂ twin => ?_
      cases twin with
      | normal => exact ih.execute like₂ (sees.follow (follows₁.trans follows₂)) whole
      | returned twin => exact .pure like₂ (.returned twin)
    · rw [if_neg truthy, if_neg truthy]
      exact .pure like₁ .normal
  | declareFunction code name =>
    have made := Agree.newClosure [] false like sees code
    cases code with
    | code mark params body =>
      exact made.bind fun f f' p₁ like₁ follows₁ twin =>
        define_agree like₁ (sees.follow follows₁) name (.function twin)
  | returns keyword => exact .pure like (.returned .nil)
  | returnsValue keyword value =>
    exact (ih.evaluate like sees value).bind
      fun v v' p₁ like₁ _ twin => .pure like₁ (.returned twin)
  | declareClass methods statics name =>
    refine (Agree.newClass _ like sees methods statics).bind
      fun c c' p₁ like₁ follows₁ twin => ?_
    exact define_agree like₁ (sees.follow follows₁) name (.ofClass twin)

theorem executeAll_agree (ih : AgreeAll σ limit n) {ss ss' : List Stmt} (like : p.Like σ)
    (sees : p.Sees p.left.current marks) (twins : Stmt.AllTwin σ marks ss ss') :
    Agree σ p (Run.executeAll limit (n + 1) ss) (Run.executeAll limit (n + 1) ss')
      fun flow flow' p' => Flow.Twin σ p' flow flow' := by
  cases twins with
  | nil => exact .pure like .normal
  | cons first rest =>
    refine (ih.execute like sees first).bind fun flow flow' p₁ like₁ follows₁ twin => ?_
    cases twin with
    | normal => exact ih.executeAll like₁ (sees.follow follows₁) rest
    | returned twin => exact .pure like₁ (.returned twin)

theorem declareAll_agree (ih : AgreeAll σ limit n) {ds ds' : List Declarator} (like : p.Like σ)
    (sees : p.Sees p.left.current marks) (twins : Declarator.AllTwin σ marks ds ds') :
    Agree σ p (Run.declareAll limit (n + 1) ds) (Run.declareAll limit (n + 1) ds')
      fun flow flow' p' => Flow.Twin σ p' flow flow' := by
  -- A variable is bound to its first value, and the rest is declared after it.
  have bound {p : Pair} {x x' : Token} {v v' : Value} {rest rest' : List Declarator}
      (like : p.Like σ) (sees : p.Sees p.left.current marks)
      (name : x.Twin σ (marks.headD false) x') (twin : Value.Twin σ p v v')
      (twins : Declarator.AllTwin σ marks rest rest') :
      Agree σ p (Run.define x.lexeme v >>= fun _ => Run.declareAll limit n rest)
        (Run.define x'.lexeme v' >>= fun _ => Run.declareAll limit n rest')
        fun flow flow' p' => Flow.Twin σ p' flow flow' := by
    have same : x'.lexeme = σ.swap (p.marked p.left.current) x.lexeme := by
      rw [marked_current sees]
      exact name
    have defined := Agree.define (Q := fun _ _ _ => True) like same twin fun _ _ _ => trivial
    exact defined.bind fun _ _ p₁ like₁ follows₁ _ =>
      ih.declareAll like₁ (sees.follow follows₁) twins
  cases twins with
  | nil => exact .pure like .normal
  | cons first rest =>
    cases first with
    | plain name => exact bound like sees name .nil rest
    | initialized name initial =>
      exact (ih.evaluate like sees initial).bind fun v v' p₁ like₁ follows₁ twin =>
        bound like₁ (sees.follow follows₁) name twin rest

theorem call_agree (ih : AgreeAll σ limit n) {c c' : Callable} {vs vs' : List Value}
    (like : p.Like σ) (twin : Value.Twin σ p (.callable c) (.callable c'))
    (values : List.Forall₂ (Value.Twin σ p) vs vs') :
    Agree σ p (Run.call limit (n + 1) c vs) (Run.call limit (n + 1) c' vs')
      fun v v' p' => Value.Twin σ p' v v' := by
  cases twin with
  | @function f f' twin =>
    obtain ⟨_, scope, initializer, marks, sees, code⟩ := twin
    obtain ⟨id, code₀, scope₀, initializer₀⟩ := f
    obtain ⟨id', code₁, scope₁, initializer₁⟩ := f'
    obtain rfl : scope₁ = scope₀ := scope
    obtain rfl : initializer₁ = initializer₀ := initializer
    cases code with
    | @code _ name params params' body body' mark tokens statements =>
      have bound : ∀ x, Option.Rel (Value.Twin σ p) ((Run.bindParams params vs).find? x)
          ((Run.bindParams params' vs').find? (σ.swap mark x)) :=
        bindParams_twin tokens values fun _ => .none
      refine .newEnvironment mark like sees bound fun e p₁ like₁ follows₁ sees₁ _ => ?_
      refine (within_agree ih like₁ sees₁ statements).bind fun flow flow' p₂ like₂ _ twin => ?_
      by_cases init : initializer₁ = true
      · rw [if_pos init, if_pos init]
        exact .receiver _ like₂
      · rw [if_neg init, if_neg init]
        exact .pure like₂ twin.value
  | native native => exact .callNative native like values
  | @ofClass c c' twin =>
    refine (Agree.newInstance like).bind fun id id' p₁ like₁ follows₁ same => ?_
    subst same
    have twin := twin.mono follows₁.grows
    have methods := twin.alike.method Closure.Twin.kin Class.initializerName
    generalize c.method? Class.initializerName = m,
      c'.method? Class.initializerName = m' at methods
    cases methods with
    | none => exact .pure like₁ (.object id' twin)
    | some method =>
      refine (Agree.bindThis like₁ method (.object id' twin)).bind
        fun f f' p₂ like₂ follows₂ made => ?_
      have grows := (follows₁.trans follows₂).grows
      have values := values.imp fun _ _ twin => twin.mono grows
      refine (ih.call like₂ (.function made) values).bind fun _ _ p₃ like₃ follows₃ _ => ?_
      exact .pure like₃ (.object id' (twin.mono (follows₂.trans follows₃).grows))

/-- Runs of every depth fare alike. -/
theorem agreeAll (σ : Exchange) (limit : Option Nat) : ∀ n, AgreeAll σ limit n
  | 0 => ⟨fun _ _ _ => .starved, fun _ _ _ => .starved, fun _ _ _ => .starved,
      fun _ _ _ => .starved, fun _ _ _ => .starved, fun _ _ _ => .starved⟩
  | n + 1 =>
    have ih := agreeAll σ limit n
    ⟨evaluate_agree ih, evaluateAll_agree ih, execute_agree ih, executeAll_agree ih,
      declareAll_agree ih, call_agree ih⟩

/-! Programs -/

theorem executeProgram_agree (all : AgreeAll σ limit n) : ∀ {p : Pair} {ss ss' : List Stmt},
    p.Like σ → p.Sees p.left.current marks → Stmt.AllTwin σ marks ss ss' →
      Agree σ p (Run.executeProgram limit n ss) (Run.executeProgram limit n ss') fun _ _ _ => True
  | _, [], _, like, _, .nil => .pure like trivial
  | p, s :: ss, _ :: _, like, sees, .cons first rest => by
    refine (all.execute like sees first).bind fun _ _ p₁ like₁ follows₁ _ => ?_
    exact executeProgram_agree all like₁ (sees.follow follows₁) rest

/-- Twin programs end alike, and flush what they wrote alike. -/
theorem interpret_agree {ss ss' : List Stmt} (like : p.Like σ) (sees : p.Sees p.left.current marks)
    (twins : Stmt.AllTwin σ marks ss ss') :
    Agree σ p (Run.interpret limit n ss) (Run.interpret limit n ss') fun _ _ _ => True := by
  have ran := executeProgram_agree (agreeAll σ limit n) like sees twins
  unfold Agree at *
  unfold Run.interpret
  generalize Run.executeProgram limit n ss p.left = o,
    Run.executeProgram limit n ss' p.right = o' at ran
  cases ran with
  | ok p₁ like₁ follows₁ _ => exact (Agree.flush like₁).after follows₁
  | fail e e' p₁ like₁ follows₁ =>
    have flushed := (Agree.flush like₁).after follows₁
    dsimp only
    generalize Run.flush p₁.left = f, Run.flush p₁.right = f' at flushed
    cases flushed with
    | ok p₂ like₂ follows₂ _ => exact .fail e e' p₂ like₂ follows₂
    | fail e₂ e₂' p₂ like₂ follows₂ => exact .fail e₂ e₂' p₂ like₂ follows₂
    | starved => exact .starved
  | starved => exact .starved

end

end LoxLang
