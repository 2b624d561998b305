import LoxLang.Proofs.Syntax.Tails
/-!
What holds of every rule. The rules of the grammar are put together in few ways, so a relation between
readers that these ways keep holds between every rule and the same rule at a greater depth
(`Grammar.every`). A property of readers is such a relation too.

What is to be shown of the ways:
1. readers that look at the next token or take it (`Parse.Looks`, `Parse.Steps`), that note a fault or
   fail with one, or have no depth left;
2. one reader behind another;
3. giving up a faulty declaration (`Parse.resuming`), the one place where a fault is caught.
-/
namespace LoxLang

namespace Parse

variable {α : Type}

/-- What the rule makes tells of the next token, or of the end; it reads nothing. -/
def Looks (rule : Parse α) (g : Option Token → α) : Prop := ∀ c, rule c = .ok (g c.rest.head?) c

/-- The rule reads the next token if `g` makes something of it, and makes `y` else. -/
def Steps (rule : Parse α) (g : Token → Option α) (y : α) : Prop :=
  ∀ errors, rule ⟨[], errors⟩ = .ok y ⟨[], errors⟩ ∧ ∀ t ts, rule ⟨t :: ts, errors⟩ =
    (g t).elim (.ok y ⟨t :: ts, errors⟩) fun x => .ok x ⟨ts, errors⟩

theorem looks_next (p : Token → Bool) : Looks (next p) (·.any p) := by
  rintro ⟨_ | ⟨t, ts⟩, errors⟩ <;> rfl

theorem looks_peek (last : Token) : Looks (peek last) (·.getD last) := by
  rintro ⟨_ | ⟨t, ts⟩, errors⟩ <;> rfl

theorem steps_take (p : Token → Bool) :
    Steps (take? p) (fun t => if p t then some (some t) else none) none :=
  fun _ => ⟨rfl, fun t _ => by dsimp only [take?]; cases p t <;> rfl⟩

theorem steps_accept (p : Token → Bool) :
    Steps (accept p) (fun t => if p t then some true else none) false :=
  fun _ => ⟨rfl, fun t _ => by dsimp only [accept]; cases p t <;> rfl⟩

/-- A token that is expected is read, or there is a fault. -/
theorem expect_eq (last : Token) (p : Token → Bool) (fault : SyntaxFault) :
    expect last p fault =
      take? p >>= fun found => found.elim (Parse.fail last fault) pure := by
  funext ⟨a, errors⟩
  cases a with
  | nil => rfl
  | cons t ts =>
    rw [bind_apply, (steps_take p errors).2]
    dsimp only [expect]
    cases p t <;> rfl

/-- Makes something of what the rule makes, and nothing where it fails; then reading goes on behind
what is given up. -/
def resuming (rule : Parse α) : Parse (Option α) := fun c =>
  match rule c with
  | .ok x d => .ok (some x) d
  | .fail error d => .ok none ⟨Grammar.resume d.rest, d.errors ++ [error]⟩
  | .starved => .starved

/-- The ways rules are put together keep the relation. On the left reading may run out of depth. -/
structure Compositional (P : {α : Type} → Parse α → Parse α → Prop) : Prop where
  starved {α : Type} (rule : Parse α) : P starved rule
  pure {α : Type} (x : α) : P (pure x : Parse α) (pure x)
  bind {α β : Type} {rule rule' : Parse α} {cont cont' : α → Parse β} :
    P rule rule' → (∀ x, P (cont x) (cont' x)) → P (rule >>= cont) (rule' >>= cont')
  report (fault : SyntaxFault) (t : Token) : P (report fault t) (report fault t)
  fail {α : Type} (last : Token) (fault : SyntaxFault) :
    P (fail last fault : Parse α) (fail last fault)
  looks {α : Type} {rule : Parse α} {g : Option Token → α} : Looks rule g → P rule rule
  steps {α : Type} {rule : Parse α} {g : Token → Option α} {y : α} : Steps rule g y → P rule rule
  resuming {α : Type} {rule rule' : Parse α} : P rule rule' → P (resuming rule) (resuming rule')

namespace Compositional

variable {P : {α : Type} → Parse α → Parse α → Prop} {last : Token} {p : Token → Bool}

theorem next (good : Compositional P) : P (next p) (next p) := good.looks (looks_next p)

theorem peek (good : Compositional P) : P (peek last) (peek last) := good.looks (looks_peek last)

theorem take (good : Compositional P) : P (take? p) (take? p) := good.steps (steps_take p)

theorem accept (good : Compositional P) : P (accept p) (accept p) := good.steps (steps_accept p)

theorem expect (good : Compositional P) {fault : SyntaxFault} :
    P (expect last p fault) (expect last p fault) := by
  rw [expect_eq]
  refine good.bind good.take fun found => ?_
  cases found with
  | some t => exact good.pure t
  | none => exact good.fail last fault

end Compositional

end Parse

namespace Grammar

open Parse

theorem looks_over (inBlock : Bool) :
    Looks (declarationsOver inBlock) (·.elim true (inBlock && ·.isSymbol .rightBrace)) := by
  rintro ⟨_ | ⟨t, ts⟩, errors⟩ <;> rfl

theorem steps_atom : Steps atom (fun t => (atom? t).map some) none :=
  fun _ => ⟨rfl, fun t _ => by dsimp only [atom]; cases atom? t <;> rfl⟩

theorem declaration_eq (last : Token) (n : Nat) :
    declaration last (n + 1) = resuming (declarationRule last n) := by
  funext c
  dsimp only [declaration, resuming]
  cases declarationRule last n c <;> rfl

/-- The relation holds between every rule at one depth and the same rule at the other. -/
structure Every (P : {α : Type} → Parse α → Parse α → Prop) (last : Token) (n k : Nat) : Prop where
  moreParams (count : Nat) : P (moreParams last n count) (moreParams last k count)
  expression : P (expression last n) (expression last k)
  lambda : P (lambda last n) (lambda last k)
  lambdaBody : P (lambdaBody last n) (lambdaBody last k)
  ternary : P (ternary last n) (ternary last k)
  operation (level : Level) : P (operation last n level) (operation last k level)
  operand (level : Level) : P (operand last n level) (operand last k level)
  moreOperation (level : Level) (left : Expr) :
    P (moreOperation last n level left) (moreOperation last k level left)
  unary : P (unary last n) (unary last k)
  moreCall (callee : Expr) : P (moreCall last n callee) (moreCall last k callee)
  moreArguments (count : Nat) : P (moreArguments last n count) (moreArguments last k count)
  primary : P (primary last n) (primary last k)
  declaration : P (declaration last n) (declaration last k)
  declarationRule : P (declarationRule last n) (declarationRule last k)
  classRule : P (classRule last n) (classRule last k)
  members : P (members last n) (members last k)
  function (callee : Callee) : P (function last n callee) (function last k callee)
  varRule : P (varRule last n) (varRule last k)
  declarators : P (declarators last n) (declarators last k)
  statement : P (statement last n) (statement last k)
  forRule : P (forRule last n) (forRule last k)
  forInitial : P (forInitial last n) (forInitial last k)
  ifRule : P (ifRule last n) (ifRule last k)
  returnRule (keyword : Token) : P (returnRule last n keyword) (returnRule last k keyword)
  whileRule : P (whileRule last n) (whileRule last k)
  expressionRule : P (expressionRule last n) (expressionRule last k)
  block : P (block last n) (block last k)
  declarations (inBlock : Bool) : P (declarations last n inBlock) (declarations last k inBlock)

section

variable {P : {α : Type} → Parse α → Parse α → Prop} {last : Token} {n k : Nat}

theorem Every.zero (good : Compositional P) (last : Token) (k : Nat) : Every P last 0 k := by
  constructor <;> intros <;> exact good.starved _

theorem Every.imp {Q : {α : Type} → Parse α → Parse α → Prop} (h : Every P last n k)
    (imp : ∀ {α : Type} {rule rule' : Parse α}, P rule rule' → Q rule rule') :
    Every Q last n k where
  moreParams count := imp (h.moreParams count)
  expression := imp h.expression
  lambda := imp h.lambda
  lambdaBody := imp h.lambdaBody
  ternary := imp h.ternary
  operation level := imp (h.operation level)
  operand level := imp (h.operand level)
  moreOperation level left := imp (h.moreOperation level left)
  unary := imp h.unary
  moreCall callee := imp (h.moreCall callee)
  moreArguments count := imp (h.moreArguments count)
  primary := imp h.primary
  declaration := imp h.declaration
  declarationRule := imp h.declarationRule
  classRule := imp h.classRule
  members := imp h.members
  function callee := imp (h.function callee)
  varRule := imp h.varRule
  declarators := imp h.declarators
  statement := imp h.statement
  forRule := imp h.forRule
  forInitial := imp h.forInitial
  ifRule := imp h.ifRule
  returnRule keyword := imp (h.returnRule keyword)
  whileRule := imp h.whileRule
  expressionRule := imp h.expressionRule
  block := imp h.block
  declarations inBlock := imp (h.declarations inBlock)

/-- The number of those read so far is the same on both sides. -/
theorem counted_every (good : Compositional P) {α : Type} {fault : SyntaxFault} {count : Nat}
    {rule rule' : Parse α} (h : P rule rule') :
    P (counted last fault count rule) (counted last fault count rule') := by
  unfold counted
  dsimp only
  split
  · exact good.bind good.peek fun _ => good.bind (good.report _ _) fun _ => h
  · exact h

theorem moreParams_every (good : Compositional P) (h : Every P last n k) (count : Nat) :
    P (moreParams last (n + 1) count) (moreParams last (k + 1) count) := by
  rw [moreParams_eq, moreParams_eq]
  have rest : P (paramsFrom last n count) (paramsFrom last k count) := by
    refine good.bind good.expect fun name => good.bind good.accept fun more => ?_
    split
    · exact good.bind (h.moreParams _) fun _ => good.pure _
    · exact good.pure _
  exact counted_every good rest

theorem params_every (good : Compositional P) (h : Every P last n k) :
    P (params last n) (params last k) := by
  unfold params
  have rest (names : List Token) : P (closeParams last names) (closeParams last names) :=
    good.bind good.expect fun _ => good.pure _
  refine good.bind good.next fun empty => ?_
  dsimp only
  split
  · exact good.bind (good.pure _) rest
  · exact good.bind (h.moreParams 0) rest

theorem expression_every (good : Compositional P) (h : Every P last n k) :
    P (expression last (n + 1)) (expression last (k + 1)) := by
  unfold expression
  refine good.bind h.lambda fun target => good.bind good.take fun equals => ?_
  split
  · exact good.pure _
  · refine good.bind h.expression fun value => ?_
    split
    · exact good.pure _
    · exact good.pure _
    · exact good.bind (good.report _ _) fun _ => good.pure _

theorem lambda_every (good : Compositional P) (h : Every P last n k) :
    P (lambda last (n + 1)) (lambda last (k + 1)) := by
  unfold lambda
  refine good.bind good.take fun keyword => ?_
  split
  · exact h.ternary
  · exact good.bind good.expect fun _ => good.bind (params_every good h) fun _ =>
      good.bind h.lambdaBody fun _ => good.pure _

theorem lambdaBody_every (good : Compositional P) (h : Every P last n k) :
    P (lambdaBody last (n + 1)) (lambdaBody last (k + 1)) := by
  unfold lambdaBody
  refine good.bind good.accept fun braces => ?_
  split
  · exact h.block
  · refine good.bind good.take fun keyword => ?_
    dsimp only
    split
    · exact good.bind (good.report _ _) fun _ => good.bind good.peek fun _ =>
        good.bind h.expression fun _ => good.pure _
    · exact good.bind good.peek fun _ => good.bind h.expression fun _ => good.pure _

theorem ternary_every (good : Compositional P) (h : Every P last n k) :
    P (ternary last (n + 1)) (ternary last (k + 1)) := by
  unfold ternary
  refine good.bind (h.operation _) fun condition => good.bind good.accept fun choice => ?_
  split
  · exact good.bind h.ternary fun _ => good.bind good.expect fun _ =>
      good.bind h.ternary fun _ => good.pure _
  · exact good.pure _

theorem operation_every (good : Compositional P) (h : Every P last n k) (level : Level) :
    P (operation last (n + 1) level) (operation last (k + 1) level) :=
  good.bind (h.operand level) fun left => h.moreOperation level left

theorem operand_every (h : Every P last n k) (level : Level) :
    P (operand last (n + 1) level) (operand last (k + 1) level) := by
  unfold operand
  split
  · exact h.operation _
  · exact h.unary

theorem moreOperation_every (good : Compositional P) (h : Every P last n k) (level : Level)
    (left : Expr) :
    P (moreOperation last (n + 1) level left) (moreOperation last (k + 1) level left) := by
  unfold moreOperation
  refine good.bind good.take fun op => ?_
  split
  · exact good.pure _
  · exact good.bind (h.operand level) fun _ => h.moreOperation level _

theorem unary_every (good : Compositional P) (h : Every P last n k) :
    P (unary last (n + 1)) (unary last (k + 1)) := by
  unfold unary
  refine good.bind good.take fun op => ?_
  split
  · exact good.bind h.unary fun _ => good.pure _
  · exact good.bind h.primary fun callee => h.moreCall callee

theorem moreCall_every (good : Compositional P) (h : Every P last n k) (callee : Expr) :
    P (moreCall last (n + 1) callee) (moreCall last (k + 1) callee) := by
  unfold moreCall
  refine good.bind good.accept fun call => ?_
  split
  · refine good.bind good.next fun empty => ?_
    dsimp only
    split
    · exact good.bind (good.pure _) fun _ => good.bind good.expect fun _ => h.moreCall _
    · exact good.bind (h.moreArguments 0) fun _ => good.bind good.expect fun _ => h.moreCall _
  · refine good.bind good.accept fun property => ?_
    split
    · exact good.bind good.expect fun _ => h.moreCall _
    · exact good.pure _

theorem moreArguments_every (good : Compositional P) (h : Every P last n k) (count : Nat) :
    P (moreArguments last (n + 1) count) (moreArguments last (k + 1) count) := by
  rw [moreArguments_eq, moreArguments_eq]
  have rest : P (argumentsFrom last n count) (argumentsFrom last k count) := by
    refine good.bind h.expression fun value => good.bind good.accept fun more => ?_
    split
    · exact good.bind (h.moreArguments _) fun _ => good.pure _
    · exact good.pure _
  exact counted_every good rest

theorem primary_every (good : Compositional P) (h : Every P last n k) :
    P (primary last (n + 1)) (primary last (k + 1)) := by
  unfold primary
  refine good.bind (good.steps steps_atom) fun found => ?_
  split
  · exact good.pure _
  · refine good.bind good.accept fun group => ?_
    split
    · exact good.bind h.expression fun _ => good.bind good.expect fun _ => good.pure _
    · exact good.fail _ _

theorem declaration_every (good : Compositional P) (h : Every P last n k) :
    P (declaration last (n + 1)) (declaration last (k + 1)) := by
  rw [declaration_eq, declaration_eq]
  exact good.resuming h.declarationRule

theorem declarationRule_every (good : Compositional P) (h : Every P last n k) :
    P (declarationRule last (n + 1)) (declarationRule last (k + 1)) := by
  unfold declarationRule
  refine good.bind good.accept fun isClass => ?_
  split
  · exact h.classRule
  refine good.bind good.accept fun isFunction => ?_
  split
  · exact good.bind (h.function _) fun _ => good.pure _
  refine good.bind good.accept fun isVariable => ?_
  split
  · exact h.varRule
  · exact h.statement

theorem classRule_every (good : Compositional P) (h : Every P last n k) :
    P (classRule last (n + 1)) (classRule last (k + 1)) :=
  good.bind good.expect fun _ => good.bind good.expect fun _ => good.bind h.members fun _ =>
    good.bind good.expect fun _ => good.pure _

theorem members_every (good : Compositional P) (h : Every P last n k) :
    P (members last (n + 1)) (members last (k + 1)) := by
  unfold members
  refine good.bind (good.looks (looks_over _)) fun past => ?_
  split
  · exact good.pure _
  refine good.bind good.accept fun static => ?_
  split
  · exact good.bind (h.function _) fun _ => good.bind h.members fun _ => good.pure _
  · exact good.bind (h.function _) fun _ => good.bind h.members fun _ => good.pure _

theorem function_every (good : Compositional P) (h : Every P last n k) (callee : Callee) :
    P (function last (n + 1) callee) (function last (k + 1) callee) :=
  good.bind good.expect fun _ => good.bind good.expect fun _ => good.bind (params_every good h)
    fun _ => good.bind good.expect fun _ => good.bind h.block fun _ => good.pure _

theorem varRule_every (good : Compositional P) (h : Every P last n k) :
    P (varRule last (n + 1)) (varRule last (k + 1)) := by
  unfold varRule
  refine good.bind h.declarators fun ds => ?_
  obtain ⟨first, others⟩ := ds
  refine good.bind good.expect fun _ => ?_
  cases others with
  | nil => exact good.pure _
  | cons => exact good.pure _

theorem declarators_every (good : Compositional P) (h : Every P last n k) :
    P (declarators last (n + 1)) (declarators last (k + 1)) := by
  unfold declarators
  have rest (first : Declarator) : P (declaratorsBehind last n first) (declaratorsBehind last k first) := by
    refine good.bind good.accept fun more => ?_
    split
    · exact good.bind h.declarators fun _ => good.pure _
    · exact good.pure _
  refine good.bind good.expect fun name => good.bind good.accept fun equals => ?_
  dsimp only
  split
  · exact good.bind h.expression fun _ => good.bind (good.pure _) fun _ => rest _
  · exact good.bind (good.pure _) fun _ => rest _

theorem statement_every (good : Compositional P) (h : Every P last n k) :
    P (statement last (n + 1)) (statement last (k + 1)) := by
  unfold statement
  refine good.bind good.accept fun isFor => ?_
  split
  · exact h.forRule
  refine good.bind good.accept fun isIf => ?_
  split
  · exact h.ifRule
  refine good.bind good.accept fun isPrint => ?_
  split
  · exact good.bind h.expression fun _ => good.bind good.expect fun _ => good.pure _
  refine good.bind good.take fun isReturn => ?_
  split
  · exact h.returnRule _
  refine good.bind good.accept fun isWhile => ?_
  split
  · exact h.whileRule
  refine good.bind good.accept fun isBlock => ?_
  split
  · exact good.bind h.block fun _ => good.pure _
  · exact h.expressionRule

theorem optional_every (good : Compositional P) (h : Every P last n k) {p : Token → Bool} {α : Type}
    {cont cont' : Option Expr → Parse α} (h' : ∀ o, P (cont o) (cont' o)) :
    P (optional last n p cont) (optional last k p cont') := by
  refine good.bind good.next fun missing => ?_
  dsimp only
  split
  · exact good.bind (good.pure _) h'
  · exact good.bind h.expression fun _ => good.bind (good.pure _) h'

theorem forRule_every (good : Compositional P) (h : Every P last n k) :
    P (forRule last (n + 1)) (forRule last (k + 1)) :=
  good.bind good.expect fun _ => good.bind h.forInitial fun _ => optional_every good h fun _ =>
    good.bind good.expect fun _ => optional_every good h fun _ => good.bind good.expect fun _ =>
      good.bind h.statement fun _ => good.pure _

theorem forInitial_every (good : Compositional P) (h : Every P last n k) :
    P (forInitial last (n + 1)) (forInitial last (k + 1)) := by
  unfold forInitial
  refine good.bind good.accept fun missing => ?_
  split
  · exact good.pure _
  refine good.bind good.accept fun declares => ?_
  split
  · exact good.bind h.varRule fun _ => good.pure _
  · exact good.bind h.expressionRule fun _ => good.pure _

theorem ifRule_every (good : Compositional P) (h : Every P last n k) :
    P (ifRule last (n + 1)) (ifRule last (k + 1)) := by
  unfold ifRule
  refine good.bind good.expect fun _ => good.bind h.expression fun _ =>
    good.bind good.expect fun _ => good.bind h.statement fun _ =>
      good.bind good.accept fun otherwise => ?_
  split
  · exact good.bind h.statement fun _ => good.pure _
  · exact good.pure _

theorem returnRule_every (good : Compositional P) (h : Every P last n k) (keyword : Token) :
    P (returnRule last (n + 1) keyword) (returnRule last (k + 1) keyword) :=
  optional_every good h fun _ => good.bind good.expect fun _ => good.pure _

theorem whileRule_every (good : Compositional P) (h : Every P last n k) :
    P (whileRule last (n + 1)) (whileRule last (k + 1)) :=
  good.bind good.expect fun _ => good.bind h.expression fun _ => good.bind good.expect fun _ =>
    good.bind h.statement fun _ => good.pure _

theorem expressionRule_every (good : Compositional P) (h : Every P last n k) :
    P (expressionRule last (n + 1)) (expressionRule last (k + 1)) :=
  good.bind h.expression fun _ => good.bind good.expect fun _ => good.pure _

theorem block_every (good : Compositional P) (h : Every P last n k) :
    P (block last (n + 1)) (block last (k + 1)) :=
  good.bind (h.declarations true) fun _ => good.bind good.expect fun _ => good.pure _

theorem declarations_every (good : Compositional P) (h : Every P last n k) (inBlock : Bool) :
    P (declarations last (n + 1) inBlock) (declarations last (k + 1) inBlock) := by
  unfold declarations
  refine good.bind (good.looks (looks_over _)) fun past => ?_
  split
  · exact good.pure _
  · exact good.bind h.declaration fun _ => good.bind (h.declarations inBlock) fun _ => good.pure _

/-- What the ways of putting rules together keep holds of every rule. -/
theorem every (good : Compositional P) (last : Token) : ∀ n k, n ≤ k → Every P last n k
  | 0, k, _ => .zero good last k
  | n + 1, k + 1, le =>
    have h := every good last n k (Nat.le_of_succ_le_succ le)
    { moreParams := moreParams_every good h
      expression := expression_every good h
      lambda := lambda_every good h
      lambdaBody := lambdaBody_every good h
      ternary := ternary_every good h
      operation := operation_every good h
      operand := operand_every h
      moreOperation := moreOperation_every good h
      unary := unary_every good h
      moreCall := moreCall_every good h
      moreArguments := moreArguments_every good h
      primary := primary_every good h
      declaration := declaration_every good h
      declarationRule := declarationRule_every good h
      classRule := classRule_every good h
      members := members_every good h
      function := function_every good h
      varRule := varRule_every good h
      declarators := declarators_every good h
      statement := statement_every good h
      forRule := forRule_every good h
      forInitial := forInitial_every good h
      ifRule := ifRule_every good h
      returnRule := returnRule_every good h
      whileRule := whileRule_every good h
      expressionRule := expressionRule_every good h
      block := block_every good h
      declarations := declarations_every good h }

end

end Grammar

end LoxLang
