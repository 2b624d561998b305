import LoxLang.Proofs.Paring.Steps
/-!
A program and the program without a local variable run alike. A statement that declares several variables
takes one unit of depth for each, and so do the single ones it is split into, but for the statements
behind it these take theirs away; and a variable that is left out takes none. So the first run gets by on
little more than twice the depth of the second one, and the second one on a depth that grows with the
square of that of the first one (`Pace.between`).

What is proved, by induction on the depth that the first run uses up: from machines that are alike, the
runs of an expression, a statement or a function with the variable and without it come to the same end
(`accordAll`), and so do those of programs (`interpret_accord`).
-/
namespace LoxLang

/-! Depth -/

/-- A depth that suffices without the variable for what ends within `n` with it. -/
def room : Nat → Nat
  | 0 => 0
  | n + 1 => room n + n + 2

theorem room_le {j : Nat} : ∀ {n : Nat}, j < n → room j + j + 2 ≤ room n
  | n + 1, lt => by
    rcases Nat.lt_or_ge j n with less | ge
    · exact Nat.le_trans (room_le less) (by rw [room]; omega)
    · obtain rfl : j = n := by omega
      exact Nat.le_refl _

/-- Two runs of the depths `n` and `k`. The first one uses up its depth before the second one ends only
if it has less than twice as much and `slack`, the second one only if it has less than `room`. -/
def Pace.between (slack n k : Nat) : Pace := ⟨n < 2 * k + slack, k < room n⟩

/-- Statements of a scope may have one declaration less, which takes depth in the first run only. -/
def slackOf (may : Bool) : Nat := bif may then 4 else 2

theorem slackOf_le : ∀ may : Bool, slackOf may ≤ 4
  | true => Nat.le_refl 4
  | false => by decide

/-- `j` units of depth are left for declarators, of `n` for the statements behind them, while the second
run has `k` for both. -/
def Pace.dividing (may : Bool) (n j k : Nat) : Pace :=
  ⟨j < 2 * k + bif may then 2 else 1, k < room n + j + 1⟩

theorem Accord.deeper {α α' : Type} {x : String} {a b n k : Nat} {p : Pair} {r : Run α} {r' : Run α'}
    {Q : α → α' → Pair → Prop} (h : Accord x (.between a n k) p r r' Q)
    (le : a ≤ b + 1 := by decide) :
    Accord x (.between b (n + 1) (k + 1)) p r r' Q :=
  h.paced (by simp only [Pace.between]; omega) (by simp only [Pace.between, room]; omega)

/-! Flows -/

inductive Flow.Pared (x : String) (p : Pair) : Flow → Flow → Prop
  | normal : Flow.Pared x p .normal .normal
  | returned {v v' : Value} : Value.Pared x p v v' → Flow.Pared x p (.returned v) (.returned v')

def Flow.before (rest : Run Flow) : Flow → Run Flow
  | .normal => rest
  | .returned v => pure (.returned v)

section

variable {x : String} {limit : Option Nat} {n k : Nat} {p p' : Pair} {marks : List Bool}

theorem Flow.Pared.value {flow flow' : Flow} (h : Flow.Pared x p flow flow') :
    Value.Pared x p flow.value flow'.value := by
  cases h with
  | normal => exact .nil
  | returned pared => exact pared

theorem Flow.Pared.grow {flow flow' : Flow} (h : Flow.Pared x p flow flow') (grows : p.Grows p') :
    Flow.Pared x p' flow flow' := by
  cases h with
  | normal => exact .normal
  | returned pared => exact .returned (pared.grow grows)

theorem Flow.Pared.before {t : Pace} {rest rest' : Run Flow} {flow flow' : Flow} (like : p.Lacks x)
    (h : Flow.Pared x p flow flow')
    (ran : Accord x t p rest rest' fun flow flow' p' => Flow.Pared x p' flow flow') :
    Accord x t p (Flow.before rest flow) (Flow.before rest' flow')
      fun flow flow' p' => Flow.Pared x p' flow flow' := by
  cases h with
  | normal => exact ran
  | returned pared => exact .pure like (.returned pared)

/-! Runs of statements, unfolded -/

def Declarator.evaluate (limit : Option Nat) (n : Nat) (d : Declarator) : Run Value :=
  match d.initial with
  | some e => Run.evaluate limit n e
  | none => pure .nil

theorem executeAll_cons (s : Stmt) (ss : List Stmt) :
    Run.executeAll limit (n + 1) (s :: ss) =
      Run.execute limit n s >>= Flow.before (Run.executeAll limit n ss) := by
  refine congrArg (Run.execute limit n s >>= ·) (funext fun flow => ?_)
  cases flow <;> rfl

theorem declareAll_cons (d : Declarator) (ds : List Declarator) :
    Run.declareAll limit (n + 1) (d :: ds) = d.evaluate limit n >>= fun v =>
      Run.define d.name.lexeme v >>= fun _ => Run.declareAll limit n ds := by
  obtain ⟨name, initial⟩ := d
  cases initial <;> rfl

/-- A declaration takes four units of depth, and leaves one to its first value. -/
theorem executeAll_declare (d : Declarator) (ss : List Stmt) :
    Run.executeAll limit (k + 4) (.declare d :: ss) = d.evaluate limit (k + 1) >>= fun v =>
      Run.define d.name.lexeme v >>= fun _ => Run.executeAll limit (k + 3) ss := by
  have single : Run.execute limit (k + 3) (.declare d) = Run.declareAll limit (k + 2) [d] := rfl
  rw [executeAll_cons, single, declareAll_cons, bind_assoc]
  rfl

theorem executeAll_declare_starved (d : Declarator) (ss : List Stmt) (m : Machine) (few : k < 4) :
    Run.executeAll limit k (.declare d :: ss) m = .starved := by
  obtain ⟨name, initial⟩ := d
  match k, few with
  | 0, _ => rfl
  | 1, _ => rfl
  | 2, _ => rfl
  | 3, _ => cases initial <;> rfl

theorem executeAll_expression (e : Expr) (ss : List Stmt) :
    Run.executeAll limit (k + 2) (.expression e :: ss) =
      Run.evaluate limit k e >>= fun _ => Run.executeAll limit (k + 1) ss := by
  have single : Run.execute limit (k + 1) (.expression e) =
    Run.evaluate limit k e >>= fun _ => pure .normal := rfl
  rw [executeAll_cons, single, bind_assoc]
  rfl

/-! One unit of depth -/

/-- What is proved of all runs of two depths at once. -/
structure AccordAll (x : String) (limit : Option Nat) (n k : Nat) : Prop where
  evaluate : ∀ {p : Pair} {marks : List Bool} {e e' : Expr}, p.Lacks x →
    p.Sees p.left.current marks → Expr.Pared x marks e e' →
      Accord x (.between 3 n k) p (Run.evaluate limit n e) (Run.evaluate limit k e')
        fun v v' p' => Value.Pared x p' v v'
  evaluateAll : ∀ {p : Pair} {marks : List Bool} {es es' : List Expr}, p.Lacks x →
    p.Sees p.left.current marks → Expr.AllPared x marks es es' →
      Accord x (.between 3 n k) p (Run.evaluateAll limit n es) (Run.evaluateAll limit k es')
        fun vs vs' p' => List.Forall₂ (Value.Pared x p') vs vs'
  execute : ∀ {p : Pair} {marks : List Bool} {s s' : Stmt}, p.Lacks x →
    p.Sees p.left.current marks → Stmt.Pared x marks s s' →
      Accord x (.between 3 n k) p (Run.execute limit n s) (Run.execute limit k s')
        fun flow flow' p' => Flow.Pared x p' flow flow'
  executeAll : ∀ {p : Pair} {marks : List Bool} {may : Bool} {ss ss' : List Stmt}, p.Lacks x →
    p.Sees p.left.current marks → Stmt.AllPared x marks may ss ss' →
      Accord x (.between (slackOf may) n k) p (Run.executeAll limit n ss) (Run.executeAll limit k ss')
        fun flow flow' p' => Flow.Pared x p' flow flow'
  declareAll : ∀ {p : Pair} {marks : List Bool} {ds ds' : List Declarator}, p.Lacks x →
    p.Sees p.left.current marks → Declarator.AllPared x marks ds ds' →
      Accord x (.between 3 n k) p (Run.declareAll limit n ds) (Run.declareAll limit k ds')
        fun flow flow' p' => Flow.Pared x p' flow flow'
  call : ∀ {p : Pair} {c c' : Callable} {vs vs' : List Value}, p.Lacks x →
    Value.Pared x p (.callable c) (.callable c') → List.Forall₂ (Value.Pared x p) vs vs' →
      Accord x (.between 3 n k) p (Run.call limit n c vs) (Run.call limit k c' vs')
        fun v v' p' => Value.Pared x p' v v'

/-- Two calls: both have as many arguments as they take, or both do not. -/
theorem asCall_accord (ih : AccordAll x limit n k) (paren : Token) {c c' : Callable}
    {vs vs' : List Value} (like : p.Lacks x) (pared : Value.Pared x p (.callable c) (.callable c'))
    (values : List.Forall₂ (Value.Pared x p) vs vs') :
    Accord x (.between 3 n k) p
      (if vs.length = c.arity then Run.asCall limit paren (Run.call limit n c vs)
        else Run.fault paren (.arity c.arity vs.length))
      (if vs'.length = c'.arity then Run.asCall limit paren (Run.call limit k c' vs')
        else Run.fault paren (.arity c'.arity vs'.length))
      fun v v' p' => Value.Pared x p' v v' := by
  rw [← values.length_eq, pared.arity Closure.Pared.kin]
  by_cases fits : vs.length = c.arity
  · rw [if_pos fits, if_pos fits]
    exact .asCall paren like
      (fun p₁ like₁ grows₁ => ih.call like₁ (pared.grow grows₁) (values_grow values grows₁))
      fun _ _ _ _ grows value => value.grow grows
  · rw [if_neg fits, if_neg fits]
    exact .fail like rfl rfl

theorem evaluate_accord (ih : AccordAll x limit n k) {e e' : Expr} (like : p.Lacks x)
    (sees : p.Sees p.left.current marks) (pared : Expr.Pared x marks e e') :
    Accord x (.between 3 n k) p (Run.evaluate limit (n + 1) e) (Run.evaluate limit (k + 1) e')
      fun v v' p' => Value.Pared x p' v v' := by
  cases pared with
  | literal value => exact .pure like (Literal.plain value).alike
  | group inner => exact ih.evaluate like sees inner
  | unary op right =>
    refine (ih.evaluate like sees right).bind fun v v' p₁ like₁ _ pared => ?_
    rw [pared.unary]
    exact Accord.lift like₁ fun _ => plain_of_unary
  | binary op left right =>
    refine (ih.evaluate like sees left).bind fun v v' p₁ like₁ follows₁ pared => ?_
    refine (ih.evaluate like₁ (sees.follow follows₁) right).bind
      fun u u' p₂ like₂ follows₂ pared' => ?_
    rw [(pared.grow follows₂.grows).binary Closure.Pared.kin op.kind pared']
    exact Accord.lift like₂ fun _ => plain_of_binary
  | logical op left right =>
    refine (ih.evaluate like sees left).bind fun v v' p₁ like₁ follows₁ pared => ?_
    rw [pared.truthy]
    split
    · exact .pure like₁ pared
    · exact ih.evaluate like₁ (sees.follow follows₁) right
  | ternary a b c =>
    refine (ih.evaluate like sees a).bind fun v v' p₁ like₁ follows₁ pared => ?_
    rw [pared.truthy]
    split
    · exact ih.evaluate like₁ (sees.follow follows₁) b
    · exact ih.evaluate like₁ (sees.follow follows₁) c
  | «variable» name spare => exact .lookUp name like sees spare
  | «this» keyword spare => exact .lookUp keyword like sees spare
  | assign name value spare =>
    refine (ih.evaluate like sees value).bind fun v v' p₁ like₁ follows₁ pared => ?_
    exact (Accord.assign name like₁ (sees.follow follows₁) spare pared).bind
      fun _ _ p₂ like₂ follows₂ _ => .pure like₂ (pared.grow follows₂.grows)
  | call paren callee arguments =>
    refine (ih.evaluate like sees callee).bind fun v v' p₁ like₁ follows₁ pared => ?_
    refine (ih.evaluateAll like₁ (sees.follow follows₁) arguments).bind
      fun vs vs' p₂ like₂ follows₂ values => ?_
    cases pared.grow follows₂.grows with
    | function made => exact asCall_accord ih paren like₂ (.function made) values
    | native n => exact asCall_accord ih paren like₂ (.native n) values
    | ofClass made => exact asCall_accord ih paren like₂ (.ofClass made) values
    | _ => exact .fail like₂ rfl rfl
  | property name object =>
    exact (ih.evaluate like sees object).bind fun v v' p₁ like₁ _ pared =>
      Accord.member name like₁ pared
  | setProperty name object value =>
    refine (ih.evaluate like sees object).bind fun v v' p₁ like₁ follows₁ pared => ?_
    cases pared with
    | object id pared =>
      refine (ih.evaluate like₁ (sees.follow follows₁) value).bind
        fun u u' p₂ like₂ follows₂ pared => ?_
      exact (Accord.setField like₂ pared).bind fun _ _ p₃ like₃ follows₃ _ =>
        .pure like₃ (pared.grow follows₃.grows)
    | _ => exact .fail like₁ rfl rfl
  | lambda code =>
    exact (Accord.newClosure [] false like sees code).bind
      fun f f' p₁ like₁ _ pared => .pure like₁ (.function pared)

theorem evaluateAll_accord (ih : AccordAll x limit n k) {es es' : List Expr} (like : p.Lacks x)
    (sees : p.Sees p.left.current marks) (pared : Expr.AllPared x marks es es') :
    Accord x (.between 3 n k) p (Run.evaluateAll limit (n + 1) es) (Run.evaluateAll limit (k + 1) es')
      fun vs vs' p' => List.Forall₂ (Value.Pared x p') vs vs' := by
  cases pared with
  | nil => exact .pure like .nil
  | cons first rest =>
    refine (ih.evaluate like sees first).bind fun v v' p₁ like₁ follows₁ pared => ?_
    refine (ih.evaluateAll like₁ (sees.follow follows₁) rest).bind
      fun vs vs' p₂ like₂ follows₂ values => ?_
    exact .pure like₂ (.cons (pared.grow follows₂.grows) values)

/-- Statements in an environment of their own, one unit of depth below what they stand in. -/
theorem within_accord (ih : AccordAll x limit n k) {e : Nat} {may : Bool} {body body' : List Stmt}
    (like : p.Lacks x) (sees : p.Sees e marks) (pared : Stmt.AllPared x marks may body body') :
    Accord x (.between 3 (n + 1) (k + 1)) p (Run.within e (Run.executeAll limit n body))
      (Run.within e (Run.executeAll limit k body'))
      fun flow flow' p' => Flow.Pared x p' flow flow' :=
  .within like sees (fun _ like₁ sees₁ => (ih.executeAll like₁ sees₁ pared).deeper (slackOf_le _))
    fun _ _ _ _ grows flow => flow.grow grows

theorem define_accord {t : Pace} (y : String) {v v' : Value} (like : p.Lacks x)
    (pared : Value.Pared x p v v') :
    Accord x t p (Run.define y v >>= fun _ => pure Flow.normal)
      (Run.define y v' >>= fun _ => pure Flow.normal)
      fun flow flow' p' => Flow.Pared x p' flow flow' :=
  (Accord.define y like pared).bind fun _ _ _ like₁ _ _ => .pure like₁ .normal

theorem execute_accord (ih : AccordAll x limit n k) {s s' : Stmt} (like : p.Lacks x)
    (sees : p.Sees p.left.current marks) (pared : Stmt.Pared x marks s s') :
    Accord x (.between 3 (n + 1) (k + 1)) p (Run.execute limit (n + 1) s)
      (Run.execute limit (k + 1) s') fun flow flow' p' => Flow.Pared x p' flow flow' := by
  have whole := pared
  cases pared with
  | expression value =>
    exact (ih.evaluate like sees value).deeper.bind fun _ _ p₁ like₁ _ _ => .pure like₁ .normal
  | print value =>
    refine (ih.evaluate like sees value).deeper.bind fun v v' p₁ like₁ _ pared => ?_
    rw [pared.text Closure.Pared.kin]
    exact (Accord.writeLine v.text like₁).bind fun _ _ p₂ like₂ _ _ => .pure like₂ .normal
  | declare d => exact (ih.declareAll like sees (.cons d .nil)).deeper
  | declareAll ds => exact (ih.declareAll like sees ds).deeper
  | block mark body =>
    exact .newScope mark like sees fun e p₁ like₁ _ sees₁ => within_accord ih like₁ sees₁ body
  | onlyIf condition whenTrue =>
    refine (ih.evaluate like sees condition).deeper.bind fun v v' p₁ like₁ follows₁ pared => ?_
    rw [pared.truthy]
    split
    · exact (ih.execute like₁ (sees.follow follows₁) whenTrue).deeper
    · exact .pure like₁ .normal
  | orElse condition whenTrue whenFalse =>
    refine (ih.evaluate like sees condition).deeper.bind fun v v' p₁ like₁ follows₁ pared => ?_
    rw [pared.truthy]
    split
    · exact (ih.execute like₁ (sees.follow follows₁) whenTrue).deeper
    · exact (ih.execute like₁ (sees.follow follows₁) whenFalse).deeper
  | loop condition body =>
    refine (ih.evaluate like sees condition).deeper.bind fun v v' p₁ like₁ follows₁ pared => ?_
    rw [pared.truthy]
    split
    · refine (ih.execute like₁ (sees.follow follows₁) body).deeper.bind
        fun flow flow' p₂ like₂ follows₂ pared => ?_
      cases pared with
      | normal => exact (ih.execute like₂ (sees.follow (follows₁.trans follows₂)) whole).deeper
      | returned pared => exact .pure like₂ (.returned pared)
    · exact .pure like₁ .normal
  | declareFunction code =>
    have made := Accord.newClosure (t := .between 3 (n + 1) (k + 1)) [] false like sees code
    cases code with
    | code name params mark body =>
      exact made.bind fun f f' p₁ like₁ _ pared => define_accord _ like₁ (.function pared)
  | returns keyword => exact .pure like (.returned .nil)
  | returnsValue keyword value =>
    exact (ih.evaluate like sees value).deeper.bind
      fun v v' p₁ like₁ _ pared => .pure like₁ (.returned pared)
  | declareClass name methods statics =>
    exact (Accord.newClass name.lexeme like sees methods statics).bind
      fun c c' p₁ like₁ _ pared => define_accord _ like₁ (.ofClass pared)

theorem declareAll_accord (ih : AccordAll x limit n k) {ds ds' : List Declarator} (like : p.Lacks x)
    (sees : p.Sees p.left.current marks) (pared : Declarator.AllPared x marks ds ds') :
    Accord x (.between 3 n k) p (Run.declareAll limit (n + 1) ds) (Run.declareAll limit (k + 1) ds')
      fun flow flow' p' => Flow.Pared x p' flow flow' := by
  -- A variable is bound to its first value, and the rest is declared after it.
  have bound {p : Pair} {v v' : Value} {rest rest' : List Declarator} (name : Token)
      (like : p.Lacks x) (sees : p.Sees p.left.current marks) (pared : Value.Pared x p v v')
      (others : Declarator.AllPared x marks rest rest') :
      Accord x (.between 3 n k) p (Run.define name.lexeme v >>= fun _ => Run.declareAll limit n rest)
        (Run.define name.lexeme v' >>= fun _ => Run.declareAll limit k rest')
        fun flow flow' p' => Flow.Pared x p' flow flow' :=
    (Accord.define name.lexeme like pared).bind fun _ _ p₁ like₁ follows₁ _ =>
      ih.declareAll like₁ (sees.follow follows₁) others
  cases pared with
  | nil => exact .pure like .normal
  | cons first rest =>
    cases first with
    | plain name => exact bound name like sees .nil rest
    | initialized name initial =>
      exact (ih.evaluate like sees initial).bind fun v v' p₁ like₁ follows₁ pared =>
        bound name like₁ (sees.follow follows₁) pared rest

theorem call_accord (ne_this : x ≠ Keyword.this.word) (ih : AccordAll x limit n k) {c c' : Callable}
    {vs vs' : List Value} (like : p.Lacks x) (pared : Value.Pared x p (.callable c) (.callable c'))
    (values : List.Forall₂ (Value.Pared x p) vs vs') :
    Accord x (.between 3 (n + 1) (k + 1)) p (Run.call limit (n + 1) c vs)
      (Run.call limit (k + 1) c' vs') fun v v' p' => Value.Pared x p' v v' := by
  cases pared with
  | @function f f' pared =>
    obtain ⟨_, scope, initializer, marks, sees, code⟩ := pared
    obtain ⟨mark, body⟩ := code.body
    have bound : ∀ y, Option.Rel (Value.Pared x p) ((Run.bindParams f.code.params vs).find? y)
        ((Run.bindParams f'.code.params vs').find? y) := by
      rw [code.params]
      exact bindParams_alike f.code.params values fun _ => .none
    unfold Run.call
    dsimp only
    rw [scope, initializer]
    refine .newEnvironment mark like sees bound fun e p₁ like₁ follows₁ sees₁ => ?_
    refine (within_accord ih like₁ sees₁ body).bind fun flow flow' p₂ like₂ follows₂ pared => ?_
    by_cases init : f.initializer = true
    · rw [if_pos init, if_pos init]
      exact Accord.receiver ne_this f.scope like₂
    · rw [if_neg init, if_neg init]
      exact .pure like₂ pared.value
  | native native => exact .callNative native like values
  | @ofClass c c' pared =>
    refine (Accord.newInstance like).bind fun id id' p₁ like₁ follows₁ same => ?_
    subst same
    have pared := pared.grow follows₁.grows
    have methods := pared.method Closure.Pared.kin Class.initializerName
    generalize c.method? Class.initializerName = m,
      c'.method? Class.initializerName = m' at methods
    cases methods with
    | none => exact .pure like₁ (.object id' pared)
    | some method =>
      refine (Accord.bindThis like₁ method (.object id' pared)).bind
        fun f f' p₂ like₂ follows₂ made => ?_
      have values := values_grow values (follows₁.trans follows₂).grows
      refine (ih.call like₂ (.function made) values).deeper.bind fun _ _ p₃ like₃ follows₃ _ => ?_
      exact .pure like₃ (.object id' (pared.grow (follows₂.trans follows₃).grows))

/-! The statement that declares the variable -/

theorem Stmt.Left.declarators (limit : Option Nat) {s : Stmt} {left : List Stmt}
    (h : Stmt.Left x marks s left) :
    ∃ ds, (∀ m, Run.execute limit (m + 1) s = Run.declareAll limit m ds) ∧
      Declarator.Divided x marks true ds left := by
  cases h with
  | @declare _ d _ emptied =>
    refine ⟨[d], fun _ => rfl, ?_⟩
    have divided := Declarator.Divided.dropped emptied (.nil false)
    rwa [List.append_nil] at divided
  | declareAll divided => exact ⟨_, fun _ => rfl, divided⟩

theorem evaluate_declarator (all : AccordAll x limit n k) {d d' : Declarator} (like : p.Lacks x)
    (sees : p.Sees p.left.current marks) (pared : Declarator.Pared x marks d d') :
    Accord x (.between 3 n k) p (d.evaluate limit n) (d'.evaluate limit k)
      fun v v' p' => Value.Pared x p' v v' := by
  cases pared with
  | plain name => exact .pure like .nil
  | initialized name initial => exact all.evaluate like sees initial

theorem Declarator.Pared.name {d d' : Declarator} (h : Declarator.Pared x marks d d') :
    d'.name = d.name := by
  cases h <;> rfl

/-- Declarators, with the statements behind them, and the single statements that are left of them. By
induction on the declarators: each takes a unit of depth in both runs, but for that of the variable. -/
theorem divided_accord (all : ∀ j < n, ∀ k, AccordAll x limit j k)
    (marked : marks.headD false = true) {ss ss' : List Stmt}
    (behind : ∀ {p : Pair} (k : Nat), p.Lacks x → p.Sees p.left.current marks →
      Accord x (.between 2 n k) p (Run.executeAll limit n ss) (Run.executeAll limit k ss')
        fun flow flow' p' => Flow.Pared x p' flow flow') : ∀ {may : Bool} {ds : List Declarator}
    {left : List Stmt} {p : Pair} {j k : Nat}, Declarator.Divided x marks may ds left → j < n →
      p.Lacks x → p.Sees p.left.current marks →
        Accord x (.dividing may n j k) p
          (Run.declareAll limit j ds >>= Flow.before (Run.executeAll limit n ss))
          (Run.executeAll limit k (left ++ ss')) fun flow flow' p' => Flow.Pared x p' flow flow'
  | _, _, _, _, 0, _, _, _, _, _ => .early (by cases ‹Bool› <;> simp [Pace.dividing]) rfl
  | _, [], _, p, j + 1, k, .nil may, lt, like, sees => by
    have none : Run.declareAll limit (j + 1) [] >>= Flow.before (Run.executeAll limit n ss) =
      Run.executeAll limit n ss := rfl
    rw [none, List.nil_append]
    refine (behind k like sees).paced (fun may => ?_) fun may => ?_
    · cases ‹Bool› <;> simp only [Pace.between, Pace.dividing] at may ⊢ <;> simp <;> omega
    · simp only [Pace.between, Pace.dividing] at may ⊢
      omega
  | may, d :: ds, _, p, j + 1, k, .kept first rest, lt, like, sees => by
    have more := room_le (Nat.lt_of_succ_lt lt)
    rcases Nat.lt_or_ge k 4 with few | enough
    · refine .late ?_ (executeAll_declare_starved _ _ _ few)
      simp only [Pace.dividing]
      omega
    obtain ⟨k, rfl⟩ : ∃ i, k = i + 4 := ⟨k - 4, by omega⟩
    have value := evaluate_declarator (all j (Nat.lt_of_succ_lt lt) (k + 1)) like sees first
    rw [declareAll_cons, List.cons_append, executeAll_declare, bind_assoc, first.name]
    refine (value.paced (by simp only [Pace.between, Pace.dividing]; omega)
      (by simp only [Pace.between, Pace.dividing]; omega)).bind fun v v' p₁ like₁ follows₁ pared => ?_
    rw [bind_assoc]
    refine (Accord.define d.name.lexeme like₁ pared).bind fun _ _ p₂ like₂ follows₂ _ => ?_
    refine (divided_accord all marked behind rest (Nat.lt_of_succ_lt lt) like₂
      (sees.follow (follows₁.trans follows₂))).paced ?_ ?_
    · simp only [Pace.dividing]
      omega
    · simp only [Pace.dividing]
      omega
  | _, _ :: ds, _, p, j + 1, k, .dropped emptied rest, lt, like, sees => by
    have more := room_le (Nat.lt_of_succ_lt lt)
    -- What is declared behind the variable, of which the second run knows nothing.
    have later {p₁ : Pair} (i : Nat) (le : i ≤ k) (next : k ≤ i + 1) (like₁ : p₁.Lacks x)
        (follows₁ : p.Follows p₁) : Accord x (.dividing true n (j + 1) k) p₁
          (Run.declareAll limit j ds >>= Flow.before (Run.executeAll limit n ss))
          (Run.executeAll limit i (_ ++ ss')) fun flow flow' p' => Flow.Pared x p' flow flow' :=
      (divided_accord all marked behind rest (Nat.lt_of_succ_lt lt) like₁
        (sees.follow follows₁)).paced (by simp only [Pace.dividing, cond_true, cond_false]; omega)
        (by simp only [Pace.dividing]; omega)
    rw [declareAll_cons, bind_assoc]
    -- The first run binds a value to the variable, the second only evaluates it or does nothing at all.
    cases emptied with
    | @nothing _ name same =>
      have plain : Declarator.evaluate limit j ⟨name, none⟩ = pure .nil := rfl
      rw [plain, pure_bind, bind_assoc]
      refine Accord.defineLeft same .nil like sees marked fun p₁ like₁ follows₁ => ?_
      exact later k (Nat.le_refl k) (Nat.le_succ k) like₁ follows₁
    | value same initial =>
      rcases k with _ | _ | k
      · exact .late (by simp only [Pace.dividing]; omega) rfl
      · exact .late (by simp only [Pace.dividing]; omega) rfl
      rw [List.singleton_append, List.cons_append, executeAll_expression]
      have value := (all j (Nat.lt_of_succ_lt lt) k).evaluate like sees initial
      refine (value.paced (by simp only [Pace.between, Pace.dividing]; omega)
        (by simp only [Pace.between, Pace.dividing]; omega)).bind fun v v' p₁ like₁ follows₁ _ => ?_
      rw [bind_assoc]
      refine Accord.defineLeft same v like₁ (sees.follow follows₁) marked fun p₂ like₂ follows₂ => ?_
      exact later (k + 1) (Nat.le_succ _) (Nat.le_refl _) like₂ (follows₁.trans follows₂)

theorem executeAll_accord (all : ∀ j < n + 1, ∀ k, AccordAll x limit j k) {may : Bool}
    {ss ss' : List Stmt} (like : p.Lacks x) (sees : p.Sees p.left.current marks)
    (pared : Stmt.AllPared x marks may ss ss') :
    Accord x (.between (slackOf may) (n + 1) (k + 1)) p (Run.executeAll limit (n + 1) ss)
      (Run.executeAll limit (k + 1) ss') fun flow flow' p' => Flow.Pared x p' flow flow' := by
  have one := all n (Nat.lt_succ_self n)
  cases pared with
  | nil => exact .pure like .normal
  | cons first rest =>
    rw [executeAll_cons, executeAll_cons]
    refine ((one k).execute like sees first).deeper (by cases may <;> decide) |>.bind
      fun flow flow' p₁ like₁ follows₁ pared => ?_
    exact pared.before like₁ (((one k).executeAll like₁ (sees.follow follows₁) rest).deeper
      (Nat.le_succ _))
  | dropped marked emptied rest =>
    obtain ⟨ds, declares, divided⟩ := emptied.declarators limit
    rw [executeAll_cons]
    rcases n with _ | n
    · exact .early (by simp only [Pace.between, slackOf, cond_true]; omega) rfl
    rw [declares]
    have behind {p : Pair} (k : Nat) (like : p.Lacks x) (sees : p.Sees p.left.current marks) :=
      (one k).executeAll like sees rest
    refine (divided_accord (fun j lt => all j (Nat.lt_succ_of_lt lt)) marked behind divided
      (Nat.lt_succ_self n) like sees).paced ?_ ?_
    · simp only [Pace.between, Pace.dividing, slackOf, cond_true]
      omega
    · simp only [Pace.between, Pace.dividing, room]
      omega

/-! All depths -/

/-- Runs of all depths come to the same end. -/
theorem accordAll (ne_this : x ≠ Keyword.this.word) (limit : Option Nat) :
    ∀ n k, AccordAll x limit n k
  | 0, k => by
    have ends {α α' : Type} {p : Pair} {a : Nat} {r : Run α} {r' : Run α'}
        {Q : α → α' → Pair → Prop} (slack : 0 < a) (h : r p.left = .starved) :
        Accord x (.between a 0 k) p r r' Q := .early (Nat.lt_add_left _ slack) h
    exact ⟨fun _ _ _ => ends (by decide) rfl, fun _ _ _ => ends (by decide) rfl,
      fun _ _ _ => ends (by decide) rfl, fun _ _ _ => ends (by cases ‹Bool› <;> decide) rfl,
      fun _ _ _ => ends (by decide) rfl, fun _ _ _ => ends (by decide) rfl⟩
  | n + 1, 0 => by
    have ends {α α' : Type} {p : Pair} {a : Nat} {r : Run α} {r' : Run α'}
        {Q : α → α' → Pair → Prop} (h : r' p.right = .starved) :
        Accord x (.between a (n + 1) 0) p r r' Q := .late (by simp [Pace.between, room]) h
    exact ⟨fun _ _ _ => ends rfl, fun _ _ _ => ends rfl, fun _ _ _ => ends rfl,
      fun _ _ _ => ends rfl, fun _ _ _ => ends rfl, fun _ _ _ => ends rfl⟩
  | n + 1, k + 1 => by
    have all : ∀ j < n + 1, ∀ k, AccordAll x limit j k := fun j _ k => accordAll ne_this limit j k
    have ih := all n (Nat.lt_succ_self n) k
    exact ⟨fun like sees pared => (evaluate_accord ih like sees pared).deeper,
      fun like sees pared => (evaluateAll_accord ih like sees pared).deeper,
      execute_accord ih, executeAll_accord all,
      fun like sees pared => (declareAll_accord ih like sees pared).deeper,
      call_accord ne_this ih⟩

/-! Programs -/

theorem executeProgram_accord (ne_this : x ≠ Keyword.this.word) {ss : List Stmt} :
    ∀ {p : Pair} {ss' : List Stmt}, p.Lacks x → p.Sees p.left.current [] →
      Stmt.AllPared x [] true ss ss' →
        Accord x (.between 3 n k) p (Run.executeProgram limit n ss) (Run.executeProgram limit k ss')
          fun _ _ _ => True := by
  induction ss with
  | nil =>
    intro p ss' like _ pared
    cases pared with
    | nil => exact .pure like trivial
  | cons s ss ih =>
    intro p ss' like sees pared
    cases pared with
    | cons first rest =>
      exact ((accordAll ne_this limit n k).execute like sees first).bind
        fun _ _ p₁ like₁ follows₁ _ => ih like₁ (sees.follow follows₁) rest
    -- No variable of the top level is left out.
    | dropped marked => cases marked

/-- A program ends as it does without the variable, and flushes what it wrote alike. -/
theorem interpret_accord (ne_this : x ≠ Keyword.this.word) {ss ss' : List Stmt} (like : p.Lacks x)
    (sees : p.Sees p.left.current []) (pared : Stmt.AllPared x [] true ss ss') :
    Accord x (.between 3 n k) p (Run.interpret limit n ss) (Run.interpret limit k ss')
      fun _ _ _ => True := by
  have ran : Accord x (.between 3 n k) p (Run.executeProgram limit n ss)
      (Run.executeProgram limit k ss') fun _ _ _ => True :=
    executeProgram_accord ne_this like sees pared
  unfold Accord Bond.Abreast at *
  unfold Run.interpret
  dsimp only at ran ⊢
  generalize Run.executeProgram limit n ss p.left = o,
    Run.executeProgram limit k ss' p.right = o' at ran
  cases ran with
  | ok p₁ like₁ follows₁ _ => exact (Accord.flush like₁).after follows₁
  | fail e p₁ like₁ follows₁ =>
    have flushed := (Accord.flush (t := .between 3 n k) like₁).after follows₁
    dsimp only at flushed ⊢
    generalize Run.flush p₁.left = f, Run.flush p₁.right = f' at flushed
    cases flushed with
    | ok p₂ like₂ follows₂ _ => exact .fail e p₂ like₂ follows₂
    | fail e₂ p₂ like₂ follows₂ => exact .fail e₂ p₂ like₂ follows₂
    | starved => exact .starved
    | early may => exact .early may
    | late may => exact .late may
  | starved => exact .starved
  | early may => exact .early may
  | late may => exact .late may

end

end LoxLang
