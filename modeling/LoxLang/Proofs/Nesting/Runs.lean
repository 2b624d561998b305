import LoxLang.Proofs.Nesting.Steps
/-!
A program and the program with the blocks run alike. A block around a statement takes two more units
of depth than the statement on its own, so the second run gets by on three times the depth of the
first one, and the first one on the depth of the second (`Pace.of`).

What is proved, by induction on the depth that the first run uses up: from machines that are alike,
the runs of an expression, a statement or a function with and without the blocks come to the same end
(`concurAll`), and so do those of programs (`interpret_concur`).
-/
namespace LoxLang

inductive Flow.Nested (p : Nesting) : Flow → Flow → Prop
  | normal : Flow.Nested p .normal .normal
  | returned {v v' : Value} : Value.Nested p v v' → Flow.Nested p (.returned v) (.returned v')

/-- Two runs of the depths `n` and `k`. The first one uses up its depth before the second one ends
only if it has less, and the second one only if it has less than three times as much. -/
def Pace.of (n k : Nat) : Pace := ⟨n < k, k < 3 * n⟩

theorem Concur.deeper {α α' : Type} {n k : Nat} {p : Nesting} {r : Run α} {r' : Run α'}
    {Q : α → α' → Nesting → Prop} (h : Concur (.of n k) p r r' Q) :
    Concur (.of (n + 1) (k + 1)) p r r' Q :=
  h.weaken (by simp only [Pace.of]; omega) (by simp only [Pace.of]; omega) fun _ _ _ _ _ q => q

section

variable {limit : Option Nat} {n k : Nat} {p : Nesting} {marks : List Bool}

theorem Flow.Nested.value {flow flow' : Flow} (h : Flow.Nested p flow flow') :
    Value.Nested p flow.value flow'.value := by
  cases h with
  | normal => exact .nil
  | returned nested => exact nested

theorem Flow.Nested.mono {p' : Nesting} {flow flow' : Flow} (h : Flow.Nested p flow flow')
    (grows : p.Grows p') : Flow.Nested p' flow flow' := by
  cases h with
  | normal => exact .normal
  | returned nested => exact .returned (nested.mono grows)

/-- What is proved of all runs of two depths at once. -/
structure ConcurAll (limit : Option Nat) (n k : Nat) : Prop where
  evaluate : ∀ {p : Nesting} {marks : List Bool} {e e' : Expr}, p.Like → p.Stands marks →
    Expr.Nested marks e e' → Concur (.of n k) p (Run.evaluate limit n e) (Run.evaluate limit k e')
      fun v v' p' => Value.Nested p' v v'
  evaluateAll : ∀ {p : Nesting} {marks : List Bool} {es es' : List Expr}, p.Like →
    p.Stands marks → Expr.AllNested marks es es' →
      Concur (.of n k) p (Run.evaluateAll limit n es) (Run.evaluateAll limit k es')
        fun vs vs' p' => List.Forall₂ (Value.Nested p') vs vs'
  execute : ∀ {p : Nesting} {marks : List Bool} {s s' : Stmt}, p.Like → p.Stands marks →
    Stmt.Nested marks s s' → Concur (.of n k) p (Run.execute limit n s) (Run.execute limit k s')
      fun flow flow' p' => Flow.Nested p' flow flow'
  executeAll : ∀ {p : Nesting} {marks : List Bool} {ss ss' : List Stmt}, p.Like →
    p.Stands marks → Stmt.AllNested marks ss ss' →
      Concur (.of n k) p (Run.executeAll limit n ss) (Run.executeAll limit k ss')
        fun flow flow' p' => Flow.Nested p' flow flow'
  declareAll : ∀ {p : Nesting} {marks : List Bool} {ds ds' : List Declarator}, p.Like →
    p.Stands marks → marks.headD false = false → Declarator.AllNested marks ds ds' →
      Concur (.of n k) p (Run.declareAll limit n ds) (Run.declareAll limit k ds')
        fun flow flow' p' => Flow.Nested p' flow flow'
  call : ∀ {p : Nesting} {c c' : Callable} {vs vs' : List Value}, p.Like →
    Value.Nested p (.callable c) (.callable c') → List.Forall₂ (Value.Nested p) vs vs' →
      Concur (.of n k) p (Run.call limit n c vs) (Run.call limit k c' vs')
        fun v v' p' => Value.Nested p' v v'

/-- Two calls: both have as many arguments as they take, or both do not. -/
theorem asCall_concur (ih : ConcurAll limit n k) (paren : Token) {c c' : Callable}
    {vs vs' : List Value} (like : p.Like) (nested : Value.Nested p (.callable c) (.callable c'))
    (values : List.Forall₂ (Value.Nested p) vs vs') :
    Concur (.of n k) p
      (if vs.length = c.arity then Run.asCall limit paren (Run.call limit n c vs)
        else Run.fault paren (.arity c.arity vs.length))
      (if vs'.length = c'.arity then Run.asCall limit paren (Run.call limit k c' vs')
        else Run.fault paren (.arity c'.arity vs'.length))
      fun v v' p' => Value.Nested p' v v' := by
  rw [← values.length_eq, nested.alike.arity Closure.Nested.kin]
  by_cases fits : vs.length = c.arity
  · rw [if_pos fits, if_pos fits]
    refine .asCall paren like fun p₁ like₁ follows₁ => ?_
    refine (ih.call like₁ (nested.mono follows₁.grows) (values_mono values follows₁.grows)).weaken
      id id ?_
    intro u u' p₂ _ _ nested p₃ grows _
    exact nested.mono grows
  · rw [if_neg fits, if_neg fits]
    exact .fail like rfl rfl

theorem evaluate_concur (ih : ConcurAll limit n k) {e e' : Expr} (like : p.Like)
    (stands : p.Stands marks) (nested : Expr.Nested marks e e') :
    Concur (.of n k) p (Run.evaluate limit (n + 1) e) (Run.evaluate limit (k + 1) e')
      fun v v' p' => Value.Nested p' v v' := by
  cases nested with
  | literal value => exact .pure like (Value.nested_iff.mpr (Literal.plain value).alike)
  | group inner => exact ih.evaluate like stands inner
  | unary op right =>
    refine (ih.evaluate like stands right).bind fun v v' p₁ like₁ _ nested => ?_
    rw [nested.alike.unary]
    exact .lift like₁ fun _ => plain_of_unary
  | binary op left right =>
    refine (ih.evaluate like stands left).bind fun v v' p₁ like₁ follows₁ nested => ?_
    refine (ih.evaluate like₁ (stands.follow follows₁) right).bind
      fun u u' p₂ like₂ follows₂ nested' => ?_
    rw [(nested.mono follows₂.grows).alike.binary Closure.Nested.kin op.kind nested'.alike]
    exact .lift like₂ fun _ => plain_of_binary
  | logical op left right =>
    refine (ih.evaluate like stands left).bind fun v v' p₁ like₁ follows₁ nested => ?_
    rw [nested.alike.truthy]
    split
    · exact .pure like₁ nested
    · exact ih.evaluate like₁ (stands.follow follows₁) right
  | ternary a b c =>
    refine (ih.evaluate like stands a).bind fun v v' p₁ like₁ follows₁ nested => ?_
    rw [nested.alike.truthy]
    split
    · exact ih.evaluate like₁ (stands.follow follows₁) b
    · exact ih.evaluate like₁ (stands.follow follows₁) c
  | «variable» name shifted => exact .lookUp name like stands shifted
  | «this» keyword shifted => exact .lookUp keyword like stands shifted
  | assign name value shifted =>
    refine (ih.evaluate like stands value).bind fun v v' p₁ like₁ follows₁ nested => ?_
    have assigned := Concur.assign (t := .of n k) (Q := fun _ _ p' => Value.Nested p' v v') name
      like₁ (stands.follow follows₁) shifted nested fun p₂ _ follows₂ => nested.mono follows₂.grows
    exact assigned.bind fun _ _ p₂ like₂ _ nested => .pure like₂ nested
  | call paren callee arguments =>
    refine (ih.evaluate like stands callee).bind fun v v' p₁ like₁ follows₁ nested => ?_
    refine (ih.evaluateAll like₁ (stands.follow follows₁) arguments).bind
      fun vs vs' p₂ like₂ follows₂ values => ?_
    cases nested.mono follows₂.grows with
    | function made => exact asCall_concur ih paren like₂ (.function made) values
    | native n => exact asCall_concur ih paren like₂ (.native n) values
    | ofClass made => exact asCall_concur ih paren like₂ (.ofClass made) values
    | _ => exact .fail like₂ rfl rfl
  | property name object =>
    exact (ih.evaluate like stands object).bind fun v v' p₁ like₁ _ nested =>
      .member name like₁ nested
  | setProperty name object value =>
    refine (ih.evaluate like stands object).bind fun v v' p₁ like₁ follows₁ nested => ?_
    cases nested with
    | object id nested =>
      refine (ih.evaluate like₁ (stands.follow follows₁) value).bind
        fun u u' p₂ like₂ follows₂ nested => ?_
      exact (Concur.setField like₂ nested).bind fun _ _ p₃ like₃ follows₃ _ =>
        .pure like₃ (nested.mono follows₃.grows)
    | _ => exact .fail like₁ rfl rfl
  | lambda code =>
    exact (Concur.newClosure [] false like stands code nofun).bind
      fun f f' p₁ like₁ _ nested => .pure like₁ (.function nested)

theorem evaluateAll_concur (ih : ConcurAll limit n k) {es es' : List Expr} (like : p.Like)
    (stands : p.Stands marks) (nested : Expr.AllNested marks es es') :
    Concur (.of n k) p (Run.evaluateAll limit (n + 1) es) (Run.evaluateAll limit (k + 1) es')
      fun vs vs' p' => List.Forall₂ (Value.Nested p') vs vs' := by
  cases nested with
  | nil => exact .pure like .nil
  | cons first rest =>
    refine (ih.evaluate like stands first).bind fun v v' p₁ like₁ follows₁ nested => ?_
    refine (ih.evaluateAll like₁ (stands.follow follows₁) rest).bind
      fun vs vs' p₂ like₂ follows₂ values => ?_
    exact .pure like₂ (.cons (nested.mono follows₂.grows) values)

theorem within_concur (ih : ConcurAll limit n k) {e e' : Nat} {body body' : List Stmt}
    (like : p.Like) (sees : p.Sees e e' marks) (nested : Stmt.AllNested marks body body') :
    Concur (.of n k) p (Run.within e (Run.executeAll limit n body))
      (Run.within e' (Run.executeAll limit k body'))
      fun flow flow' p' => Flow.Nested p' flow flow' := by
  refine .within like sees fun p₁ like₁ stands₁ => ?_
  refine (ih.executeAll like₁ stands₁ nested).weaken id id ?_
  intro flow flow' p₂ _ _ nested p₃ grows _
  exact nested.mono grows

theorem define_concur {t : Pace} (x : String) {v v' : Value} (like : p.Like)
    (stands : p.Stands marks) (unmarked : marks.headD false = false)
    (nested : Value.Nested p v v') :
    Concur t p (Run.define x v >>= fun _ => pure Flow.normal)
      (Run.define x v' >>= fun _ => pure Flow.normal)
      fun flow flow' p' => Flow.Nested p' flow flow' := by
  have defined := Concur.define (t := t) (Q := fun _ _ _ => True) x like stands unmarked nested
    fun _ _ _ => trivial
  exact defined.bind fun _ _ p₁ like₁ _ _ => .pure like₁ .normal

/-- A statement without a block around it, one unit of depth above its parts in both runs. -/
theorem bare_concur (ih : ConcurAll limit n k) {s s' : Stmt} (like : p.Like)
    (stands : p.Stands marks) (bare : Stmt.Bare marks s s') :
    Concur (.of n k) p (Run.execute limit (n + 1) s) (Run.execute limit (k + 1) s')
      fun flow flow' p' => Flow.Nested p' flow flow' := by
  have whole := bare
  cases bare with
  | expression value =>
    exact (ih.evaluate like stands value).bind fun _ _ p₁ like₁ _ _ => .pure like₁ .normal
  | print value =>
    refine (ih.evaluate like stands value).bind fun v v' p₁ like₁ _ nested => ?_
    rw [nested.alike.text Closure.Nested.kin]
    exact (Concur.writeLine v.text like₁).bind fun _ _ p₂ like₂ _ _ => .pure like₂ .normal
  | block body =>
    exact .newScope like stands fun e e' p₁ like₁ _ sees₁ => within_concur ih like₁ sees₁ body
  | onlyIf condition whenTrue =>
    refine (ih.evaluate like stands condition).bind fun v v' p₁ like₁ follows₁ nested => ?_
    rw [nested.alike.truthy]
    split
    · exact ih.execute like₁ (stands.follow follows₁) whenTrue
    · exact .pure like₁ .normal
  | orElse condition whenTrue whenFalse =>
    refine (ih.evaluate like stands condition).bind fun v v' p₁ like₁ follows₁ nested => ?_
    rw [nested.alike.truthy]
    split
    · exact ih.execute like₁ (stands.follow follows₁) whenTrue
    · exact ih.execute like₁ (stands.follow follows₁) whenFalse
  | loop condition body =>
    refine (ih.evaluate like stands condition).bind fun v v' p₁ like₁ follows₁ nested => ?_
    rw [nested.alike.truthy]
    split
    · refine (ih.execute like₁ (stands.follow follows₁) body).bind
        fun flow flow' p₂ like₂ follows₂ nested => ?_
      cases nested with
      | normal => exact ih.execute like₂ (stands.follow (follows₁.trans follows₂)) (.bare whole)
      | returned nested => exact .pure like₂ (.returned nested)
    · exact .pure like₁ .normal
  | returns keyword => exact .pure like (.returned .nil)
  | returnsValue keyword value =>
    exact (ih.evaluate like stands value).bind
      fun v v' p₁ like₁ _ nested => .pure like₁ (.returned nested)

/-- A single statement in a block ends as it does on its own. -/
theorem executeAll_singleton (k : Nat) (s : Stmt) :
    Run.executeAll limit (k + 2) [s] = Run.execute limit (k + 1) s := by
  funext m
  show (Run.execute limit (k + 1) s >>= _) m = _
  rw [Run.bind_apply]
  cases Run.execute limit (k + 1) s m with
  | ok flow m' => cases flow <;> rfl
  | fail e m' => rfl
  | starved => rfl

/-- A statement, which may have a block around it in the second run. -/
theorem execute_concur (ih : ∀ k, ConcurAll limit n k) (k : Nat) {s s' : Stmt} (like : p.Like)
    (stands : p.Stands marks) (nested : Stmt.Nested marks s s') :
    Concur (.of (n + 1) (k + 1)) p (Run.execute limit (n + 1) s) (Run.execute limit (k + 1) s')
      fun flow flow' p' => Flow.Nested p' flow flow' := by
  cases nested with
  | bare bare => exact (bare_concur (ih k) like stands bare).deeper
  | declare unmarked d =>
    exact ((ih k).declareAll like stands unmarked (.cons d .nil)).deeper
  | declareAll unmarked ds => exact ((ih k).declareAll like stands unmarked ds).deeper
  | declareFunction unmarked code =>
    have made := Concur.newClosure (t := .of n k) [] false like stands code nofun
    cases code with
    | code name params body =>
      exact (made.bind fun f f' p₁ like₁ follows₁ nested =>
        define_concur _ like₁ (stands.follow follows₁) unmarked (.function nested)).deeper
  | declareClass name unmarked methods statics =>
    have made := Concur.newClass (t := .of n k) name.lexeme like stands unmarked methods statics
    exact (made.bind fun c c' p₁ like₁ follows₁ nested =>
      define_concur _ like₁ (stands.follow follows₁) unmarked (.ofClass nested)).deeper
  | enclosed bare =>
    refine .enclose like stands fun p₁ like₁ stands₁ => ?_
    -- The block is entered within two units of depth, if there are as many.
    rcases k with _ | _ | k
    · exact .late (by simp only [Pace.of]; omega)
    · exact .late (by simp only [Pace.of]; omega)
    · rw [executeAll_singleton]
      refine (bare_concur (ih k) like₁ stands₁ bare).weaken (by simp only [Pace.of]; omega)
        (by simp only [Pace.of]; omega) ?_
      intro flow flow' p₂ _ _ nested p₃ grows _
      exact nested.mono grows

theorem executeAll_concur (ih : ConcurAll limit n k) {ss ss' : List Stmt} (like : p.Like)
    (stands : p.Stands marks) (nested : Stmt.AllNested marks ss ss') :
    Concur (.of n k) p (Run.executeAll limit (n + 1) ss) (Run.executeAll limit (k + 1) ss')
      fun flow flow' p' => Flow.Nested p' flow flow' := by
  cases nested with
  | nil => exact .pure like .normal
  | cons first rest =>
    refine (ih.execute like stands first).bind fun flow flow' p₁ like₁ follows₁ nested => ?_
    cases nested with
    | normal => exact ih.executeAll like₁ (stands.follow follows₁) rest
    | returned nested => exact .pure like₁ (.returned nested)

theorem declareAll_concur (ih : ConcurAll limit n k) {ds ds' : List Declarator} (like : p.Like)
    (stands : p.Stands marks) (unmarked : marks.headD false = false)
    (nested : Declarator.AllNested marks ds ds') :
    Concur (.of n k) p (Run.declareAll limit (n + 1) ds) (Run.declareAll limit (k + 1) ds')
      fun flow flow' p' => Flow.Nested p' flow flow' := by
  -- A variable is bound to its first value, and the rest is declared after it.
  have bound {p : Nesting} {v v' : Value} {rest rest' : List Declarator} (name : Token)
      (like : p.Like) (stands : p.Stands marks) (nested : Value.Nested p v v')
      (others : Declarator.AllNested marks rest rest') :
      Concur (.of n k) p (Run.define name.lexeme v >>= fun _ => Run.declareAll limit n rest)
        (Run.define name.lexeme v' >>= fun _ => Run.declareAll limit k rest')
        fun flow flow' p' => Flow.Nested p' flow flow' := by
    have defined := Concur.define (t := .of n k) (Q := fun _ _ _ => True) name.lexeme like stands
      unmarked nested fun _ _ _ => trivial
    exact defined.bind fun _ _ p₁ like₁ follows₁ _ =>
      ih.declareAll like₁ (stands.follow follows₁) unmarked others
  cases nested with
  | nil => exact .pure like .normal
  | cons first rest =>
    cases first with
    | plain name => exact bound name like stands .nil rest
    | initialized name initial =>
      exact (ih.evaluate like stands initial).bind fun v v' p₁ like₁ follows₁ nested =>
        bound name like₁ (stands.follow follows₁) nested rest

theorem call_concur (ih : ConcurAll limit n k) {c c' : Callable} {vs vs' : List Value}
    (like : p.Like) (nested : Value.Nested p (.callable c) (.callable c'))
    (values : List.Forall₂ (Value.Nested p) vs vs') :
    Concur (.of n k) p (Run.call limit (n + 1) c vs) (Run.call limit (k + 1) c' vs')
      fun v v' p' => Value.Nested p' v v' := by
  cases nested with
  | @function f f' nested =>
    obtain ⟨_, initializer, marks, sees, code, receives⟩ := nested
    have bound : ∀ x, Option.Rel (Value.Nested p) ((Run.bindParams f.code.params vs).find? x)
        ((Run.bindParams f'.code.params vs').find? x) := by
      rw [code.params]
      intro y
      exact relOption_imp (fun _ _ => Value.nested_iff.mpr) (bindParams_alike f.code.params
        (values.imp fun _ _ nested => nested.alike) (fun _ => .none) y)
    refine .newEnvironment like sees bound fun e e' p₁ like₁ follows₁ sees₁ => ?_
    refine (within_concur ih like₁ sees₁ code.body).bind
      fun flow flow' p₂ like₂ follows₂ nested => ?_
    rw [initializer]
    by_cases init : f.initializer = true
    · rw [if_pos init, if_pos init]
      exact .receiver like₂ (sees.mono (follows₁.trans follows₂).grows) (receives init)
    · rw [if_neg init, if_neg init]
      exact .pure like₂ nested.value
  | native native => exact .callNative native like values
  | @ofClass c c' nested =>
    refine (Concur.newInstance like).bind fun id id' p₁ like₁ follows₁ same => ?_
    subst same
    have nested := nested.mono follows₁.grows
    have methods := nested.alike.method Closure.Nested.kin Class.initializerName
    generalize c.method? Class.initializerName = m,
      c'.method? Class.initializerName = m' at methods
    cases methods with
    | none => exact .pure like₁ (.object id' nested)
    | some method =>
      refine (Concur.bindThis like₁ method (.object id' nested)).bind
        fun f f' p₂ like₂ follows₂ made => ?_
      have values := values_mono values (follows₁.trans follows₂).grows
      refine (ih.call like₂ (.function made) values).bind fun _ _ p₃ like₃ follows₃ _ => ?_
      exact .pure like₃ (.object id' (nested.mono (follows₂.trans follows₃).grows))

/-- Runs of all depths come to the same end. -/
theorem concurAll (limit : Option Nat) : ∀ n k, ConcurAll limit n k
  | 0, k => by
    have ends {α α' : Type} {p : Nesting} {r : Run α} {r' : Run α'} {Q : α → α' → Nesting → Prop}
        (h : r p.left = .starved) (h' : k = 0 → r' p.right = .starved) :
        Concur (.of 0 k) p r r' Q := by
      unfold Concur
      rw [h]
      rcases Nat.eq_zero_or_pos k with rfl | more
      · rw [h' rfl]
        exact .starved
      · exact .early more
    refine ⟨fun _ _ _ => ends rfl ?_, fun _ _ _ => ends rfl ?_, fun _ _ _ => ends rfl ?_,
      fun _ _ _ => ends rfl ?_, fun _ _ _ _ => ends rfl ?_, fun _ _ _ => ends rfl ?_⟩
    all_goals
      rintro rfl
      rfl
  | n + 1, 0 => by
    have ends {α α' : Type} {p : Nesting} {r : Run α} {r' : Run α'} {Q : α → α' → Nesting → Prop}
        (h : r' p.right = .starved) : Concur (.of (n + 1) 0) p r r' Q := by
      unfold Concur
      rw [h]
      exact .late (by simp only [Pace.of]; omega)
    exact ⟨fun _ _ _ => ends rfl, fun _ _ _ => ends rfl, fun _ _ _ => ends rfl,
      fun _ _ _ => ends rfl, fun _ _ _ _ => ends rfl, fun _ _ _ => ends rfl⟩
  | n + 1, k + 1 => by
    have ih := concurAll limit n
    exact ⟨fun like stands nested => (evaluate_concur (ih k) like stands nested).deeper,
      fun like stands nested => (evaluateAll_concur (ih k) like stands nested).deeper,
      execute_concur ih k,
      fun like stands nested => (executeAll_concur (ih k) like stands nested).deeper,
      fun like stands unmarked nested =>
        (declareAll_concur (ih k) like stands unmarked nested).deeper,
      fun like nested values => (call_concur (ih k) like nested values).deeper⟩

/-! Programs -/

theorem executeProgram_concur : ∀ {p : Nesting} {ss ss' : List Stmt}, p.Like → p.Stands marks →
    Stmt.AllNested marks ss ss' →
      Concur (.of n k) p (Run.executeProgram limit n ss) (Run.executeProgram limit k ss')
        fun _ _ _ => True
  | _, [], _, like, _, .nil => .pure like trivial
  | p, s :: ss, _ :: _, like, stands, .cons first rest => by
    refine ((concurAll limit n k).execute like stands first).bind fun _ _ p₁ like₁ follows₁ _ => ?_
    exact executeProgram_concur like₁ (stands.follow follows₁) rest

/-- A program ends as it does with the blocks, and flushes what it wrote alike. -/
theorem interpret_concur {ss ss' : List Stmt} (like : p.Like) (stands : p.Stands marks)
    (nested : Stmt.AllNested marks ss ss') :
    Concur (.of n k) p (Run.interpret limit n ss) (Run.interpret limit k ss')
      fun _ _ _ => True := by
  have ran : Concur (.of n k) p (Run.executeProgram limit n ss) (Run.executeProgram limit k ss')
      fun _ _ _ => True := executeProgram_concur like stands nested
  unfold Concur at *
  unfold Run.interpret
  generalize Run.executeProgram limit n ss p.left = o,
    Run.executeProgram limit k ss' p.right = o' at ran
  cases ran with
  | ok p₁ like₁ follows₁ _ => exact (Concur.flush like₁).after follows₁
  | fail e p₁ like₁ follows₁ =>
    have flushed := (Concur.flush (t := .of n k) like₁).after follows₁
    dsimp only
    generalize Run.flush p₁.left = f, Run.flush p₁.right = f' at flushed
    cases flushed with
    | ok p₂ like₂ follows₂ _ => exact .fail e p₂ like₂ follows₂
    | fail e₂ p₂ like₂ follows₂ => exact .fail e₂ p₂ like₂ follows₂
    | starved => exact .starved
    | early may => exact .early may
    | late may => exact .late may
  | starved => exact .starved
  | early may => exact .early may
  | late may => exact .late may

end

end LoxLang
