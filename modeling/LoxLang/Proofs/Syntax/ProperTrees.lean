import LoxLang.Proofs.Syntax.Proper
import LoxLang.Proofs.Syntax.Tails
import LoxLang.Session
/-!
Trees read off genuine tokens are proper. `Parse.Makes` says of a rule that it keeps the tokens
genuine, takes back no fault, and makes what it should if there are no faults in the end; it is
closed under the ways rules are put together. `Grammar.Makes` says it of all rules at one depth, and
is carried from depth to depth, one lemma a rule.

What is proved: `proper_of_programOfTokens`, `proper_of_ofTokens`, and from them
`proper_of_promptStatements` for prompt lines.
-/
namespace LoxLang

namespace Parse

variable {α β : Type} {Q R : α → Prop}

/-- The rule keeps tokens genuine and faults noted. If it notes none, what it makes is a `Q`. -/
def Makes (rule : Parse α) (Q : α → Prop) : Prop :=
  ∀ c : Cursor, (∀ t ∈ c.rest, t.Genuine) →
    match rule c with
    | .ok a next =>
      (∀ t ∈ next.rest, t.Genuine) ∧ c.errors <+: next.errors ∧ (next.errors = [] → Q a)
    | .fail _ next => (∀ t ∈ next.rest, t.Genuine) ∧ c.errors <+: next.errors
    | .starved => True

theorem Makes.imp {rule : Parse α} (h : Makes rule Q) (imp : ∀ a, Q a → R a) : Makes rule R := by
  intro c genuine
  have := h c genuine
  cases hr : rule c with
  | ok a next =>
    rw [hr] at this
    exact ⟨this.1, this.2.1, fun clean => imp a (this.2.2 clean)⟩
  | fail e next =>
    rw [hr] at this
    exact this
  | starved => trivial

theorem Makes.pure {a : α} (h : Q a) : Makes (pure a) Q :=
  fun _ genuine => ⟨genuine, List.prefix_refl _, fun _ => h⟩

theorem Makes.bind {rule : Parse α} {next : α → Parse β} {S : β → Prop} (h : Makes rule Q)
    (h' : ∀ a, Makes (next a) fun b => Q a → S b) : Makes (rule >>= next) S := by
  intro c genuine
  have first := h c genuine
  rw [bind_apply]
  cases hr : rule c with
  | ok a c' =>
    rw [hr] at first
    have second := h' a c' first.1
    dsimp only at first ⊢
    cases hn : next a c' with
    | ok b c'' =>
      rw [hn] at second
      refine ⟨second.1, first.2.1.trans second.2.1, fun clean => second.2.2 clean (first.2.2 ?_)⟩
      exact List.prefix_nil.mp (clean ▸ second.2.1)
    | fail e c'' =>
      rw [hn] at second
      exact ⟨second.1, first.2.1.trans second.2⟩
    | starved => trivial
  | fail e c' =>
    rw [hr] at first
    exact first
  | starved => trivial

theorem Makes.starved : Makes (starved : Parse α) Q := fun _ _ => trivial

theorem Makes.report (fault : SyntaxFault) (token : Token) {S : Unit → Prop} :
    Makes (report fault token) S :=
  fun _ genuine => ⟨genuine, List.prefix_append _ _, fun clean => by simp at clean⟩

theorem Makes.next (p : Token → Bool) : Makes (next p) fun _ => True := by
  rintro ⟨rest, errors⟩ genuine
  cases rest with
  | nil => exact ⟨genuine, List.prefix_refl _, fun _ => trivial⟩
  | cons t ts => exact ⟨genuine, List.prefix_refl _, fun _ => trivial⟩

theorem Makes.accept (p : Token → Bool) : Makes (accept p) fun _ => True := by
  rintro ⟨rest, errors⟩ genuine
  cases rest with
  | nil => exact ⟨genuine, List.prefix_refl _, fun _ => trivial⟩
  | cons t ts =>
    cases h : p t <;> simp only [Parse.accept, h, if_true]
    · exact ⟨genuine, List.prefix_refl _, fun _ => trivial⟩
    · exact ⟨fun t' mem => genuine t' (List.mem_cons_of_mem _ mem), List.prefix_refl _,
        fun _ => trivial⟩

theorem Makes.take? (p : Token → Bool) :
    Makes (take? p) fun o => ∀ t, o = some t → p t = true ∧ t.Genuine := by
  rintro ⟨rest, errors⟩ genuine
  cases rest with
  | nil => exact ⟨genuine, List.prefix_refl _, fun _ _ h => by cases h⟩
  | cons t ts =>
    cases h : p t <;> simp only [Parse.take?, h, if_true]
    · exact ⟨genuine, List.prefix_refl _, fun _ _ h => by cases h⟩
    · refine ⟨fun t' mem => genuine t' (List.mem_cons_of_mem _ mem), List.prefix_refl _, ?_⟩
      rintro _ _ ⟨⟩
      exact ⟨h, genuine t List.mem_cons_self⟩

theorem Makes.peek (last : Token) : Makes (peek last) fun _ => True :=
  fun _ genuine => ⟨genuine, List.prefix_refl _, fun _ => trivial⟩

theorem Makes.fail (last : Token) (fault : SyntaxFault) : Makes (fail last fault) Q :=
  fun _ genuine => ⟨genuine, List.prefix_refl _⟩

theorem Makes.expect (last : Token) (p : Token → Bool) (fault : SyntaxFault) :
    Makes (expect last p fault) fun t => p t = true ∧ t.Genuine := by
  rintro ⟨rest, errors⟩ genuine
  cases rest with
  | nil => exact ⟨genuine, List.prefix_refl _⟩
  | cons t ts =>
    cases h : p t <;> simp only [Parse.expect, h, if_true]
    · exact ⟨genuine, List.prefix_refl _⟩
    · exact ⟨fun t' mem => genuine t' (List.mem_cons_of_mem _ mem), List.prefix_refl _,
        fun _ => ⟨trivial, genuine t List.mem_cons_self⟩⟩

theorem Makes.expectName (last : Token) (fault : SyntaxFault) :
    Makes (Parse.expect last Token.isIdentifier fault) Token.IsName :=
  (Makes.expect last _ fault).imp fun _ h => Token.IsName.of_genuine h.1 h.2

theorem Makes.reported {fault : SyntaxFault} {token : Token} {next : Unit → Parse β}
    {R S : β → Prop} (h : ∀ u, Makes (next u) R) : Makes (Parse.report fault token >>= next) S :=
  (Makes.report fault token (S := fun _ => False)).bind fun u =>
    (h u).imp fun _ _ absurd => absurd.elim

theorem Makes.skip {rule : Parse α} {next : α → Parse β} {S : β → Prop} (h : Makes rule Q)
    (h' : ∀ a, Makes (next a) S) : Makes (rule >>= next) S :=
  h.bind fun a => (h' a).imp fun _ made _ => made

end Parse

namespace Grammar

open Parse

theorem proper_of_atom? {t : Token} {e : Expr} (genuine : t.Genuine) (h : atom? t = some e) :
    e.Proper := by
  obtain ⟨kind, lexeme, line⟩ := t
  unfold atom? at h
  split at h
  case h_6 eq =>
    cases h
    simp only at eq
    subst eq
    exact ⟨⟨rfl, genuine⟩, rfl⟩
  case h_7 eq =>
    cases h
    simp only at eq
    subst eq
    exact ⟨⟨rfl, genuine⟩, rfl⟩
  all_goals
    cases h
    try trivial

theorem atom_makes : Makes atom fun o => ∀ e, o = some e → e.Proper := by
  rintro ⟨rest, errors⟩ genuine
  cases rest with
  | nil => exact ⟨genuine, List.prefix_refl _, fun _ _ h => by cases h⟩
  | cons t ts =>
    cases h : atom? t with
    | none =>
      simp only [atom, h]
      exact ⟨genuine, List.prefix_refl _, fun _ _ h => by cases h⟩
    | some e =>
      simp only [atom, h]
      refine ⟨fun t' mem => genuine t' (List.mem_cons_of_mem _ mem), List.prefix_refl _, ?_⟩
      rintro _ _ ⟨⟩
      exact proper_of_atom? (genuine t List.mem_cons_self) h

theorem mem_resumeAfter {t : Token} : ∀ (previous : Token) (ts : List Token),
    t ∈ resumeAfter previous ts → t ∈ ts
  | _, [], h => h
  | previous, s :: ss, h => by
    unfold resumeAfter at h
    split at h
    · exact h
    · exact List.mem_cons_of_mem _ (mem_resumeAfter s ss h)

theorem mem_resume {t : Token} : ∀ ts : List Token, t ∈ resume ts → t ∈ ts
  | [], h => h
  | s :: ss, h => List.mem_cons_of_mem _ (mem_resumeAfter s ss h)

theorem proper_join {level : Level} {left right : Expr} {op : Token} (operator : level.isOperator op)
    (hl : left.Proper) (hr : right.Proper) : (level.join left op right).Proper := by
  cases level with
  | disjunction => exact ⟨hl, .inl operator, hr⟩
  | conjunction => exact ⟨hl, .inr operator, hr⟩
  | equality => exact ⟨hl, .inl operator, hr⟩
  | comparison => exact ⟨hl, .inr (.inl operator), hr⟩
  | term => exact ⟨hl, .inr (.inr (.inl operator)), hr⟩
  | factor => exact ⟨hl, .inr (.inr (.inr operator)), hr⟩

/-- The loop that `for` stands for is proper if its parts are. -/
theorem proper_forLoop {initial : Option Stmt} {condition increment : Option Expr} {body : Stmt}
    (hi : ∀ s, initial = some s → s.Proper) (hc : ∀ e, condition = some e → e.Proper)
    (hn : ∀ e, increment = some e → e.Proper) (hb : body.isDeclaration = false ∧ body.Proper) :
    (Stmt.forLoop initial condition increment body).isDeclaration = false ∧
      (Stmt.forLoop initial condition increment body).Proper := by
  have condition : (condition.getD (.literal (.bool true))).Proper := by
    cases condition with
    | none => trivial
    | some e => exact hc e rfl
  cases increment with
  | none =>
    cases initial with
    | none => exact ⟨rfl, condition, hb⟩
    | some s => exact ⟨rfl, hi s rfl, ⟨condition, hb⟩, trivial⟩
  | some e =>
    have round : (Stmt.block [body, .expression e]).Proper := ⟨hb.2, hn e rfl, trivial⟩
    cases initial with
    | none => exact ⟨rfl, condition, rfl, round⟩
    | some s => exact ⟨rfl, hi s rfl, ⟨condition, rfl, round⟩, trivial⟩

section

variable (last : Token)

structure Makes (n : Nat) : Prop where
  moreParams (count : Nat) : Parse.Makes (moreParams last n count) fun ts =>
    (ts ≠ [] → count + ts.length ≤ maxArity) ∧ ∀ t ∈ ts, t.IsName
  expression : Parse.Makes (expression last n) Expr.Proper
  lambda : Parse.Makes (lambda last n) Expr.Proper
  lambdaBody : Parse.Makes (lambdaBody last n) Stmt.AllProper
  ternary : Parse.Makes (ternary last n) Expr.Proper
  operation (level : Level) : Parse.Makes (operation last n level) Expr.Proper
  operand (level : Level) : Parse.Makes (operand last n level) Expr.Proper
  moreOperation (level : Level) (left : Expr) :
    Parse.Makes (moreOperation last n level left) fun e => left.Proper → e.Proper
  unary : Parse.Makes (unary last n) Expr.Proper
  moreCall (callee : Expr) :
    Parse.Makes (moreCall last n callee) fun e => callee.Proper → e.Proper
  moreArguments (count : Nat) : Parse.Makes (moreArguments last n count) fun es =>
    (es ≠ [] → count + es.length ≤ maxArity) ∧ Expr.AllProper es
  primary : Parse.Makes (primary last n) Expr.Proper
  declaration : Parse.Makes (declaration last n) fun o => ∀ s, o = some s → s.Proper
  declarationRule : Parse.Makes (declarationRule last n) Stmt.Proper
  classRule : Parse.Makes (classRule last n) Stmt.Proper
  members : Parse.Makes (members last n) fun fs =>
    Function.AllProper fs.1 ∧ Function.AllProper fs.2
  function (callee : Callee) :
    Parse.Makes (function last n callee) fun f => f.name.IsName ∧ f.Proper
  varRule : Parse.Makes (varRule last n) Stmt.Proper
  declarators : Parse.Makes (declarators last n) fun ds =>
    ds.1.Proper ∧ Declarator.AllProper ds.2
  statement : Parse.Makes (statement last n) fun s => s.isDeclaration = false ∧ s.Proper
  forRule : Parse.Makes (forRule last n) fun s => s.isDeclaration = false ∧ s.Proper
  forInitial : Parse.Makes (forInitial last n) fun o => ∀ s, o = some s → s.Proper
  ifRule : Parse.Makes (ifRule last n) fun s => s.isDeclaration = false ∧ s.Proper
  returnRule (keyword : Token) :
    Parse.Makes (returnRule last n keyword) fun s => s.isDeclaration = false ∧ s.Proper
  whileRule : Parse.Makes (whileRule last n) fun s => s.isDeclaration = false ∧ s.Proper
  expressionRule :
    Parse.Makes (expressionRule last n) fun s => s.isDeclaration = false ∧ s.Proper
  block : Parse.Makes (block last n) Stmt.AllProper
  declarations (inBlock : Bool) : Parse.Makes (declarations last n inBlock) Stmt.AllProper

theorem Makes.zero : Makes last 0 where
  moreParams _ := .starved
  expression := .starved
  lambda := .starved
  lambdaBody := .starved
  ternary := .starved
  operation _ := .starved
  operand _ := .starved
  moreOperation _ _ := .starved
  unary := .starved
  moreCall _ := .starved
  moreArguments _ := .starved
  primary := .starved
  declaration := .starved
  declarationRule := .starved
  classRule := .starved
  members := .starved
  function _ := .starved
  varRule := .starved
  declarators := .starved
  statement := .starved
  forRule := .starved
  forInitial := .starved
  ifRule := .starved
  returnRule _ := .starved
  whileRule := .starved
  expressionRule := .starved
  block := .starved
  declarations _ := .starved

variable {last} {n : Nat}

theorem params_makes (h : Makes last n) :
    Parse.Makes (params last n) fun ts => ts.length ≤ maxArity ∧ ∀ t ∈ ts, t.IsName := by
  unfold params
  refine .skip (.next _) fun closed => ?_
  dsimp only
  split
  · refine .bind (Q := fun ts : List Token => ts = []) (.pure rfl) fun ts => ?_
    refine .skip (.expect last _ _) fun _ => .pure ?_
    rintro rfl
    exact ⟨Nat.zero_le _, fun _ mem => by cases mem⟩
  · refine (h.moreParams 0).bind fun ts => .skip (.expect last _ _) fun _ => .pure fun made => ?_
    refine ⟨?_, made.2⟩
    cases ts with
    | nil => exact Nat.zero_le _
    | cons t ts => simpa using made.1 (by simp)

/-- If no fault was noted there is room for what is read. -/
theorem counted_makes {α : Type} {fault : SyntaxFault} {count : Nat} {rule : Parse α} {S : α → Prop}
    (h : Parse.Makes rule S) :
    Parse.Makes (counted last fault count rule) fun x => count < maxArity ∧ S x := by
  unfold counted
  dsimp only
  split
  · exact .skip (.peek last) fun t => .reported fun _ => h
  · rename_i room
    exact h.imp fun x made => ⟨Nat.lt_of_not_le room, made⟩

/-- Behind one for which there is room, there was room for the others. -/
theorem room_cons {α : Type} {count : Nat} {x : α} {xs : List α} (room : count < maxArity)
    (others : xs ≠ [] → count + 1 + xs.length ≤ maxArity) : count + (x :: xs).length ≤ maxArity := by
  cases xs with
  | nil => exact room
  | cons y ys =>
    have := others (List.cons_ne_nil y ys)
    simp only [List.length_cons] at this ⊢
    omega

theorem moreParams_makes (h : Makes last n) (count : Nat) :
    Parse.Makes (moreParams last (n + 1) count) fun ts =>
      (ts ≠ [] → count + ts.length ≤ maxArity) ∧ ∀ t ∈ ts, t.IsName := by
  rw [moreParams_eq]
  have rest : Parse.Makes (paramsFrom last n count) fun ts =>
      (count < maxArity → count + ts.length ≤ maxArity) ∧ ∀ t ∈ ts, t.IsName := by
    refine (Makes.expectName last _).bind fun name => .skip (.accept _) fun more => ?_
    split
    · refine (h.moreParams (count + 1)).bind fun names => .pure fun made isName => ?_
      exact ⟨fun room => room_cons room made.1, List.forall_mem_cons.mpr ⟨isName, made.2⟩⟩
    · exact .pure fun isName => ⟨fun room => room, List.forall_mem_singleton.mpr isName⟩
  exact (counted_makes rest).imp fun ts made => ⟨fun _ => made.2.1 made.1, made.2.2⟩

theorem expression_makes (h : Makes last n) :
    Parse.Makes (expression last (n + 1)) Expr.Proper := by
  unfold expression
  refine h.lambda.bind fun target => .skip (.take? _) fun equals => ?_
  cases equals with
  | none => exact .pure fun made => made
  | some equals =>
    refine h.expression.bind fun value => ?_
    split
    · exact .pure fun made target => ⟨target.1, made, rfl⟩
    · exact .pure fun made target => ⟨target.1, target.2, made⟩
    · exact .reported (R := fun _ => True) fun _ => .pure trivial

theorem lambda_makes (h : Makes last n) : Parse.Makes (lambda last (n + 1)) Expr.Proper := by
  unfold lambda
  refine (Makes.take? _).bind fun keyword => ?_
  cases keyword with
  | none => exact h.ternary.imp fun _ made _ => made
  | some keyword =>
    refine .skip (.expect last _ _) fun _ => (params_makes h).bind fun names => ?_
    refine h.lambdaBody.bind fun body => .pure fun made short keyword => ?_
    exact ⟨(keyword _ rfl).1, short, made⟩

theorem lambdaBody_makes (h : Makes last n) :
    Parse.Makes (lambdaBody last (n + 1)) Stmt.AllProper := by
  unfold lambdaBody
  refine .skip (.accept _) fun braced => ?_
  split
  · exact h.block
  · have rest : Parse.Makes (valueBody last n) Stmt.AllProper :=
      .skip (.peek last) fun _ => h.expression.bind fun _ => .pure fun made => ⟨made, trivial⟩
    refine .skip (.take? _) fun keyword => ?_
    cases keyword with
    | none => exact rest
    | some keyword => exact .reported fun _ => rest

theorem ternary_makes (h : Makes last n) : Parse.Makes (ternary last (n + 1)) Expr.Proper := by
  unfold ternary
  refine (h.operation .disjunction).bind fun condition => .skip (.accept _) fun choice => ?_
  split
  · refine h.ternary.bind fun whenTrue => .skip (.expect last _ _) fun _ => ?_
    exact h.ternary.bind fun whenFalse => .pure fun f t c => ⟨c, t, f⟩
  · exact .pure fun made => made

theorem operation_makes (h : Makes last n) (level : Level) :
    Parse.Makes (operation last (n + 1) level) Expr.Proper := by
  unfold operation
  exact (h.operand level).bind fun left => (h.moreOperation level left).imp fun _ made => made

theorem operand_makes (h : Makes last n) (level : Level) :
    Parse.Makes (operand last (n + 1) level) Expr.Proper := by
  unfold operand
  split
  · exact h.operation _
  · exact h.unary

theorem moreOperation_makes (h : Makes last n) (level : Level) (left : Expr) :
    Parse.Makes (moreOperation last (n + 1) level left) fun e => left.Proper → e.Proper := by
  unfold moreOperation
  refine (Makes.take? _).bind fun op => ?_
  cases op with
  | none => exact .pure fun _ made => made
  | some op =>
    refine (h.operand level).bind fun right => ?_
    refine (h.moreOperation level _).imp fun e made right operator left => ?_
    exact made (proper_join (operator _ rfl).1 left right)

theorem unary_makes (h : Makes last n) : Parse.Makes (unary last (n + 1)) Expr.Proper := by
  unfold unary
  refine (Makes.take? _).bind fun op => ?_
  cases op with
  | some op => exact h.unary.bind fun right => .pure fun made operator => ⟨(operator _ rfl).1, made⟩
  | none =>
    exact h.primary.bind fun callee => (h.moreCall callee).imp fun _ made callee _ => made callee

theorem moreCall_makes (h : Makes last n) (callee : Expr) :
    Parse.Makes (moreCall last (n + 1) callee) fun e => callee.Proper → e.Proper := by
  have rest (values : List Expr) : Parse.Makes (closeCall last n callee values) fun e =>
        values.length ≤ maxArity ∧ Expr.AllProper values → callee.Proper → e.Proper :=
    .skip (.expect last _ _) fun paren =>
      (h.moreCall _).imp fun e made values callee => made ⟨callee, values⟩
  unfold moreCall
  refine .skip (.accept _) fun opened => ?_
  split
  · refine .skip (.next _) fun closed => ?_
    dsimp only
    split
    · exact (Parse.Makes.pure (Q := fun es : List Expr => es = []) rfl).bind fun values =>
        (rest values).imp fun e made empty => made (by subst empty; exact ⟨Nat.zero_le _, trivial⟩)
    · refine (h.moreArguments 0).bind fun values => (rest values).imp fun e made proper => ?_
      refine made ⟨?_, proper.2⟩
      cases values with
      | nil => exact Nat.zero_le _
      | cons e es => simpa using proper.1 (by simp)
  · refine .skip (.accept _) fun dot => ?_
    split
    · refine (Makes.expectName last _).bind fun name => ?_
      exact (h.moreCall _).imp fun e made name callee => made ⟨callee, name⟩
    · exact .pure fun made => made

theorem moreArguments_makes (h : Makes last n) (count : Nat) :
    Parse.Makes (moreArguments last (n + 1) count) fun es =>
      (es ≠ [] → count + es.length ≤ maxArity) ∧ Expr.AllProper es := by
  rw [moreArguments_eq]
  have rest : Parse.Makes (argumentsFrom last n count) fun es =>
      (count < maxArity → count + es.length ≤ maxArity) ∧ Expr.AllProper es := by
    refine h.expression.bind fun value => .skip (.accept _) fun more => ?_
    split
    · refine (h.moreArguments (count + 1)).bind fun values => .pure fun made proper => ?_
      exact ⟨fun room => room_cons room made.1, proper, made.2⟩
    · exact .pure fun proper => ⟨fun room => room, proper, trivial⟩
  exact (counted_makes rest).imp fun es made => ⟨fun _ => made.2.1 made.1, made.2.2⟩

theorem primary_makes (h : Makes last n) : Parse.Makes (primary last (n + 1)) Expr.Proper := by
  unfold primary
  refine atom_makes.bind fun found => ?_
  cases found with
  | some e => exact .pure fun made => made e rfl
  | none =>
    refine .skip (.accept _) fun opened => ?_
    split
    · exact h.expression.bind fun inner => .skip (.expect last _ _) fun _ =>
        .pure fun made _ => made
    · exact .fail last _

theorem declaration_makes (h : Makes last n) :
    Parse.Makes (declaration last (n + 1)) fun o => ∀ s, o = some s → s.Proper := by
  intro c genuine
  have made := h.declarationRule c genuine
  unfold declaration
  cases hr : declarationRule last n c with
  | ok s next =>
    rw [hr] at made
    exact ⟨made.1, made.2.1, fun clean _ eq => by cases eq; exact made.2.2 clean⟩
  | fail e next =>
    rw [hr] at made
    refine ⟨fun t mem => made.1 t (mem_resume _ mem), ?_, fun clean => by simp at clean⟩
    exact made.2.trans (List.prefix_append _ _)
  | starved => trivial

theorem declarationRule_makes (h : Makes last n) :
    Parse.Makes (declarationRule last (n + 1)) Stmt.Proper := by
  unfold declarationRule
  refine .skip (.accept _) fun isClass => ?_
  split
  · exact h.classRule
  refine .skip (.accept _) fun isFunction => ?_
  split
  · exact (h.function .function).bind fun code => .pure fun made => made
  refine .skip (.accept _) fun isVariable => ?_
  split
  · exact h.varRule
  · exact h.statement.imp fun _ made => made.2

theorem classRule_makes (h : Makes last n) :
    Parse.Makes (classRule last (n + 1)) Stmt.Proper := by
  unfold classRule
  refine (Makes.expectName last _).bind fun name => .skip (.expect last _ _) fun _ => ?_
  refine h.members.bind fun fs => .skip (.expect last _ _) fun _ => ?_
  exact .pure fun made name => ⟨name, made⟩

theorem declarationsOver_makes (inBlock : Bool) :
    Parse.Makes (declarationsOver inBlock) fun _ => True := by
  rintro ⟨rest, errors⟩ genuine
  cases rest with
  | nil => exact ⟨genuine, List.prefix_refl _, fun _ => trivial⟩
  | cons t ts => exact ⟨genuine, List.prefix_refl _, fun _ => trivial⟩

theorem members_makes (h : Makes last n) :
    Parse.Makes (members last (n + 1)) fun fs =>
      Function.AllProper fs.1 ∧ Function.AllProper fs.2 := by
  unfold members
  refine .skip (declarationsOver_makes true) fun ended => ?_
  split
  · exact .pure ⟨trivial, trivial⟩
  refine .skip (.accept _) fun isStatic => ?_
  split
  · refine (h.function .method).bind fun code => h.members.bind fun fs => ?_
    exact .pure fun made code => ⟨made.1, code, made.2⟩
  · refine (h.function .method).bind fun code => h.members.bind fun fs => ?_
    exact .pure fun made code => ⟨⟨code, made.1⟩, made.2⟩

theorem function_makes (h : Makes last n) (callee : Callee) :
    Parse.Makes (Grammar.function last (n + 1) callee) fun f => f.name.IsName ∧ f.Proper := by
  unfold Grammar.function
  refine (Makes.expectName last _).bind fun name => .skip (.expect last _ _) fun _ => ?_
  refine (params_makes h).bind fun names => .skip (.expect last _ _) fun _ => ?_
  exact h.block.bind fun body => .pure fun body params name => ⟨name, params, body⟩

theorem declarators_makes (h : Makes last n) :
    Parse.Makes (declarators last (n + 1)) fun ds =>
      ds.1.Proper ∧ Declarator.AllProper ds.2 := by
  have rest (first : Declarator) : Parse.Makes (declaratorsBehind last n first) fun ds =>
      first.Proper → ds.1.Proper ∧ Declarator.AllProper ds.2 := by
    refine .skip (.accept _) fun more => ?_
    split
    · exact h.declarators.bind fun ds => .pure fun made first => ⟨first, made⟩
    · exact .pure fun first => ⟨first, trivial⟩
  unfold Grammar.declarators
  refine (Makes.expectName last _).bind fun name => .skip (.accept _) fun given => ?_
  dsimp only
  split
  · refine h.expression.bind fun value => ?_
    refine (Parse.Makes.pure (Q := fun o => o = some value) rfl).bind fun initial => ?_
    refine (rest ⟨name, initial⟩).imp fun ds made same value name => made ?_
    subst same
    exact ⟨name, value⟩
  · refine (Parse.Makes.pure (Q := fun o : Option Expr => o = none) rfl).bind fun initial => ?_
    refine (rest ⟨name, initial⟩).imp fun ds made same name => made ?_
    subst same
    exact name

theorem varRule_makes (h : Makes last n) : Parse.Makes (varRule last (n + 1)) Stmt.Proper := by
  unfold varRule
  refine h.declarators.bind fun ds => .skip (.expect last _ _) fun _ => ?_
  obtain ⟨first, others⟩ := ds
  cases others with
  | nil => exact .pure fun made => made.1
  | cons second others => exact .pure fun made => ⟨by simp, made⟩

theorem expressionRule_makes (h : Makes last n) :
    Parse.Makes (expressionRule last (n + 1)) fun s => s.isDeclaration = false ∧ s.Proper := by
  unfold expressionRule
  exact h.expression.bind fun value => .skip (.expect last _ _) fun _ =>
    .pure fun made => ⟨rfl, made⟩

theorem statement_makes (h : Makes last n) :
    Parse.Makes (statement last (n + 1)) fun s => s.isDeclaration = false ∧ s.Proper := by
  unfold statement
  refine .skip (.accept _) fun isFor => ?_
  split
  · exact h.forRule
  refine .skip (.accept _) fun isIf => ?_
  split
  · exact h.ifRule
  refine .skip (.accept _) fun isPrint => ?_
  split
  · exact h.expression.bind fun value => .skip (.expect last _ _) fun _ =>
      .pure fun made => ⟨rfl, made⟩
  refine .skip (.take? _) fun keyword => ?_
  cases keyword with
  | some keyword => exact h.returnRule keyword
  | none =>
    refine .skip (.accept _) fun isWhile => ?_
    split
    · exact h.whileRule
    refine .skip (.accept _) fun isBlock => ?_
    split
    · exact h.block.bind fun body => .pure fun made => ⟨rfl, made⟩
    · exact h.expressionRule

theorem optional_makes (h : Makes last n) (p : Token → Bool) {α : Type} {S : α → Prop}
    {next : Option Expr → Parse α}
    (h' : ∀ o, Parse.Makes (next o) fun a => (∀ e, o = some e → e.Proper) → S a) :
    Parse.Makes (optional last n p next) S := by
  refine .skip (.next p) fun missing => ?_
  split
  · refine (Parse.Makes.pure (Q := fun o : Option Expr => o = none) rfl).bind fun o => ?_
    exact (h' o).imp fun a made empty => made fun e eq => by rw [empty] at eq; cases eq
  · refine h.expression.bind fun value => ?_
    refine (Parse.Makes.pure (Q := fun o => o = some value) rfl).bind fun o => ?_
    refine (h' o).imp fun a made same proper => made fun e eq => ?_
    rw [same] at eq
    cases eq
    exact proper

theorem forRule_makes (h : Makes last n) :
    Parse.Makes (forRule last (n + 1)) fun s => s.isDeclaration = false ∧ s.Proper := by
  unfold forRule
  refine .skip (.expect last _ _) fun _ => h.forInitial.bind fun initial => ?_
  refine optional_makes h _ fun condition => .skip (.expect last _ _) fun _ => ?_
  refine optional_makes h _ fun increment => .skip (.expect last _ _) fun _ => ?_
  exact h.statement.bind fun body => .pure fun body increment condition initial =>
    proper_forLoop initial condition increment body

theorem forInitial_makes (h : Makes last n) :
    Parse.Makes (forInitial last (n + 1)) fun o => ∀ s, o = some s → s.Proper := by
  unfold forInitial
  refine .skip (.accept _) fun isEmpty => ?_
  split
  · exact .pure fun s eq => by cases eq
  refine .skip (.accept _) fun isVariable => ?_
  split
  · exact h.varRule.bind fun s => .pure fun made _ eq => by cases eq; exact made
  · exact h.expressionRule.bind fun s => .pure fun made _ eq => by cases eq; exact made.2

theorem ifRule_makes (h : Makes last n) :
    Parse.Makes (ifRule last (n + 1)) fun s => s.isDeclaration = false ∧ s.Proper := by
  unfold ifRule
  refine .skip (.expect last _ _) fun _ => h.expression.bind fun condition => ?_
  refine .skip (.expect last _ _) fun _ => h.statement.bind fun whenTrue => ?_
  refine .skip (.accept _) fun otherwise => ?_
  split
  · exact h.statement.bind fun whenFalse => .pure fun f t c => ⟨rfl, c, t, f⟩
  · exact .pure fun t c => ⟨rfl, c, t⟩

theorem returnRule_makes (h : Makes last n) (keyword : Token) :
    Parse.Makes (returnRule last (n + 1) keyword) fun s =>
      s.isDeclaration = false ∧ s.Proper := by
  unfold returnRule
  refine optional_makes h _ fun value => .skip (.expect last _ _) fun _ => .pure fun made => ?_
  cases value with
  | none => exact ⟨rfl, trivial⟩
  | some e => exact ⟨rfl, made e rfl⟩

theorem whileRule_makes (h : Makes last n) :
    Parse.Makes (whileRule last (n + 1)) fun s => s.isDeclaration = false ∧ s.Proper := by
  unfold whileRule
  refine .skip (.expect last _ _) fun _ => h.expression.bind fun condition => ?_
  refine .skip (.expect last _ _) fun _ => ?_
  exact h.statement.bind fun body => .pure fun body condition => ⟨rfl, condition, body⟩

theorem block_makes (h : Makes last n) : Parse.Makes (block last (n + 1)) Stmt.AllProper := by
  unfold block
  exact (h.declarations true).bind fun body => .skip (.expect last _ _) fun _ =>
    .pure fun made => made

theorem declarations_makes (h : Makes last n) (inBlock : Bool) :
    Parse.Makes (declarations last (n + 1) inBlock) Stmt.AllProper := by
  unfold declarations
  refine .skip (declarationsOver_makes inBlock) fun ended => ?_
  split
  · exact .pure trivial
  · refine h.declaration.bind fun first => (h.declarations inBlock).bind fun others => ?_
    cases first with
    | none => exact .pure fun made _ => made
    | some s => exact .pure fun made first => ⟨first s rfl, made⟩

/-- All rules make proper trees at every depth. -/
theorem makes (last : Token) : ∀ n, Makes last n
  | 0 => .zero last
  | n + 1 =>
    have h := makes last n
    { moreParams := moreParams_makes h
      expression := expression_makes h
      lambda := lambda_makes h
      lambdaBody := lambdaBody_makes h
      ternary := ternary_makes h
      operation := operation_makes h
      operand := operand_makes h
      moreOperation := moreOperation_makes h
      unary := unary_makes h
      moreCall := moreCall_makes h
      moreArguments := moreArguments_makes h
      primary := primary_makes h
      declaration := declaration_makes h
      declarationRule := declarationRule_makes h
      classRule := classRule_makes h
      members := members_makes h
      function := function_makes h
      varRule := varRule_makes h
      declarators := declarators_makes h
      statement := statement_makes h
      forRule := forRule_makes h
      forInitial := forInitial_makes h
      ifRule := ifRule_makes h
      returnRule := returnRule_makes h
      whileRule := whileRule_makes h
      expressionRule := expressionRule_makes h
      block := block_makes h
      declarations := declarations_makes h }

end

end Grammar

theorem Token.mem_untilEof {t : Token} : ∀ ts : List Token, t ∈ (Token.untilEof ts).1 → t ∈ ts
  | [], h => by cases h
  | s :: ss, h => by
    unfold Token.untilEof at h
    split at h
    · cases h
    · rcases List.mem_cons.mp h with rfl | h
      · exact List.mem_cons_self
      · exact List.mem_cons_of_mem _ (mem_untilEof ss h)

theorem proper_of_programOfTokens {tokens : List Token} {program : List Stmt}
    (genuine : ∀ t ∈ tokens, t.Genuine) (h : Stmt.programOfTokens tokens = .ok program) :
    Stmt.AllProper program := by
  unfold Stmt.programOfTokens at h
  have made := (Grammar.makes (Token.untilEof tokens).2
    (Grammar.depthFor (Token.untilEof tokens).1)).declarations false ⟨(Token.untilEof tokens).1, []⟩
    fun t mem => genuine t (Token.mem_untilEof _ mem)
  simp only at h
  split at h
  · rename_i found c eq
    rw [eq] at made
    split at h
    · rename_i clean
      cases h
      exact made.2.2 (by simpa using clean)
    · cases h
  · cases h
  · cases h

theorem proper_of_ofTokens {tokens : List Token} {e : Expr} (genuine : ∀ t ∈ tokens, t.Genuine)
    (h : Expr.ofTokens tokens = .ok e) : e.Proper := by
  rw [Expr.ofTokens_eq] at h
  have reading : Parse.Makes (Grammar.alone (Token.untilEof tokens).2
      (Grammar.depthFor (Token.untilEof tokens).1)) Expr.Proper := by
    refine (Grammar.makes _ _).expression.bind fun e => .skip (.accept _) fun _ => ?_
    refine .skip (.next _) fun trailing => ?_
    dsimp only
    split
    · exact .skip (.peek _) fun _ => .reported (R := fun _ => True) fun _ => .pure trivial
    · exact .pure fun made => made
  have made := reading ⟨(Token.untilEof tokens).1, []⟩
    fun t mem => genuine t (Token.mem_untilEof _ mem)
  simp only at h
  split at h
  · rename_i found c eq
    rw [eq] at made
    split at h
    · rename_i clean
      cases h
      exact made.2.2 (by simpa using clean)
    · cases h
  · cases h
  · cases h

theorem proper_of_promptStatements {tokens : List Token} {program : List Stmt}
    (genuine : ∀ t ∈ tokens, t.Genuine) (h : Session.promptStatements tokens = .ok program) :
    Stmt.AllProper program := by
  unfold Session.promptStatements at h
  split at h
  · exact proper_of_programOfTokens genuine h
  · cases he : Expr.ofTokens tokens with
    | error e => simp [he, Except.map] at h
    | ok e =>
      simp only [he, Except.map, Except.ok.injEq] at h
      subst h
      exact ⟨proper_of_ofTokens genuine he, trivial⟩

end LoxLang
