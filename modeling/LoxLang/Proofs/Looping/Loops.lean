import LoxLang.Proofs.Nesting.Placing
import LoxLang.Proofs.Nesting.Walking
import LoxLang.Proofs.Syntax.Totality
/-!
Loops with a head. `for` has up to three parts in its head and a body, and the parser makes blocks and a `while`
of them (`Stmt.forLoop`). Here the parts are kept as they are written, and are resolved where they are written:
what is declared first in one scope, which all the other parts stand in, and nothing else in a scope of its own.

What is proved:
  1. what the parser makes of the tokens behind `for` is the tree of the loop that these tokens are, part by part
     (`Grammar.forRule_reads`), and of every such loop it makes the tree (`Grammar.forRule_made`);
  2. the walk over the tree finds the same as the walk over the parts, and gives names the same distances but
     for the block around the body, if there is something behind it (`Resolve.forLoop_nests`).
-/
namespace LoxLang

/-! The parts of a loop -/

/-- What is done in every round of a loop: the condition is asked, the body is run, and what stands last in the
head is evaluated. -/
structure Rounds where
  condition : Option Expr
  increment : Option Expr
  body : Stmt

/-- A loop with what is run before its rounds. -/
structure ForLoop where
  initial : Option Stmt
  rounds : Rounds

/-- A declaration of variables or an expression. -/
def Stmt.IsInitial : Stmt → Prop
  | .declare _ => True
  | .declareAll _ => True
  | .expression _ => True
  | _ => False

/-- What the parser makes of the body: with what is done after it, it has a block. -/
def Rounds.block (r : Rounds) : Stmt :=
  match r.increment with
  | some e => .block [r.body, .expression e]
  | none => r.body

/-- What the parser makes of the rounds; a condition that is left out holds. -/
def Rounds.tree (r : Rounds) : Stmt := .loop (r.condition.getD (.literal (.bool true))) r.block

namespace ForLoop

/-- What the parser makes of the loop. -/
def tree (loop : ForLoop) : Stmt :=
  Stmt.forLoop loop.initial loop.rounds.condition loop.rounds.increment loop.rounds.body

theorem tree_plain (loop : ForLoop) : loop.tree.isDeclaration = false := by
  obtain ⟨initial, r⟩ := loop
  cases initial <;> rfl

structure Written (loop : ForLoop) : Prop where
  initial : ∀ s, loop.initial = some s → s.IsInitial
  body : loop.rounds.body.isDeclaration = false

end ForLoop

/-! The loops that are read -/

namespace Reading

open Grammar Parse

/-- The parts of a loop as they stand behind `for`: what comes first with its semicolon, the condition and what
is done after the body, each of which may be missing, and the body. -/
inductive Loop : List Token → List Token → ForLoop → List SyntaxError → Prop where
  | mk {opened semicolon closed : Token} {a b c d e : List Token} {initial : Option Stmt}
    {condition increment : Option Expr} {body : Stmt} {vs ws xs ys : List SyntaxError}
    (ho : opened.isSymbol .leftParen = true) (hi : Initial a b initial vs)
    (hn : Maybe b (semicolon :: c) condition ws) (hs : semicolon.isSymbol .semicolon = true)
    (hx : Maybe c (closed :: d) increment xs) (hc : closed.isSymbol .rightParen = true)
    (hb : Statement d e body ys) :
    Loop (opened :: a) e ⟨initial, condition, increment, body⟩ (vs ++ (ws ++ (xs ++ ys)))

variable {a b : List Token} {s : Stmt} {vs : List SyntaxError}

/-- A statement that begins with `for` is a loop. -/
theorem Statement.loop {word : Token} (hw : word.isKeyword .for = true) (h : Statement (word :: a) b s vs) :
    ∃ loop, Loop a b loop vs ∧ s = loop.tree := by
  cases h with
  | ofFor _ ho hi hn hs hx hc hb => exact ⟨_, .mk ho hi hn hs hx hc hb, rfl⟩
  -- All others begin with another token.
  | ofIf other | ofIfElse other | ofPrint other | ofReturn other | ofWhile other | ofBlock other =>
    cases (Token.isKeyword_elim hw fun _ _ => rfl).symm.trans other
  | ofExpression h => cases (stops_cons.mp (h.begins.stops_keyword fun _ _ => rfl)).symm.trans hw

theorem Loop.statement {word : Token} {loop : ForLoop} (hw : word.isKeyword .for = true) (h : Loop a b loop vs) :
    Statement (word :: a) b loop.tree vs := by
  obtain ⟨ho, hi, hn, hs, hx, hc, hb⟩ := h
  exact .ofFor hw ho hi hn hs hx hc hb

theorem Statement.plain (h : Statement a b s vs) : s.isDeclaration = false := by
  cases h with
  | @ofFor _ _ _ _ _ _ _ _ _ initial condition increment body =>
    exact ForLoop.tree_plain ⟨initial, condition, increment, body⟩
  | _ => rfl

theorem Initial.isInitial {o : Option Stmt} (h : Initial a b o vs) : ∀ s, o = some s → s.IsInitial := by
  cases h with
  | none => exact nofun
  | ofVariables _ h =>
    rintro _ ⟨⟩
    obtain ⟨others⟩ := h
    cases others <;> trivial
  | ofExpression =>
    rintro _ ⟨⟩
    trivial

theorem Loop.written {loop : ForLoop} (h : Loop a b loop vs) : loop.Written := by
  obtain ⟨_, hi, _, _, _, _, hb⟩ := h
  exact ⟨hi.isInitial, hb.plain⟩

end Reading

namespace Grammar

open Parse Reading

variable (last : Token)

/-- What follows `for`, read as `forRule` reads it, but with the parts of the loop kept apart. -/
def forParts : Nat → Parse ForLoop
  | 0 => starved
  | n + 1 => do
    let _ ← expect last (Token.isSymbol .leftParen) .forStart
    let initial ← forInitial last n
    optional last n (Token.isSymbol .semicolon) fun condition => do
      let _ ← expect last (Token.isSymbol .semicolon) .forCondition
      optional last n (Token.isSymbol .rightParen) fun increment => do
        let _ ← expect last (Token.isSymbol .rightParen) .forEnd
        let body ← statement last n
        pure ⟨initial, condition, increment, body⟩

theorem optional_bind {α β : Type} (n : Nat) (p : Token → Bool) (cont : Option Expr → Parse α) (next : α → Parse β) :
    optional last n p cont >>= next = optional last n p fun o => cont o >>= next := by
  unfold optional
  rw [bind_assoc]
  refine congrArg _ (funext fun missing => ?_)
  cases missing
  · exact bind_assoc _ _ _
  · rfl

theorem forRule_eq : ∀ n, forRule last n = forParts last n >>= fun loop => pure loop.tree
  | 0 => rfl
  | n + 1 => by
    unfold forParts
    simp only [bind_assoc, optional_bind, pure_bind]
    rfl

theorem forParts_follows : ∀ n {a b loop vs}, Loop a b loop vs → Follows (forParts last n) a loop b vs
  | 0, _, _, _, _, _ => .starved
  | n + 1, _, _, _, _, .mk ho hi hn hs hx hc hb => by
    unfold forParts
    refine (follows_expect ho).skip ((hi.follows last n).bind ?_)
    refine follows_maybe last (Expression.follows last n) hs (fun _ _ => rfl) hn ((follows_expect hs).skip ?_)
    refine follows_maybe last (Expression.follows last n) hc (fun _ _ => rfl) hx ((follows_expect hc).skip ?_)
    exact (hb.follows last n).close .pure

/-- What is read behind `for` without a fault is the tree of a loop that is read there, part by part. -/
theorem forRule_reads {n : Nat} {a b : List Token} {s : Stmt} {errors : List SyntaxError}
    (read : forRule last n ⟨a, errors⟩ = .ok s ⟨b, errors⟩) :
    ∃ loop, Loop a b loop [] ∧ s = loop.tree := by
  -- At a depth that suffices it reads the same.
  have deep : 32 * a.length + 1 ≤ max n (32 * a.length + 1) := Nat.le_max_right _ _
  have settled := (settles last _).forRule a deep errors
  have ends : forRule last n ⟨a, errors⟩ ≠ .starved := by
    rw [read]
    nofun
  rw [(locality [] last (Nat.le_max_left _ _)).forRule.2.deeper ends, read] at settled
  have word : (⟨.keyword .for, "for", 1⟩ : Token).isKeyword .for = true := rfl
  exact (settled.2.2 rfl _ word).loop word

/-- A loop that can be read is read, with its faults. -/
theorem forRule_made {n : Nat} {a b : List Token} {loop : ForLoop} {vs : List SyntaxError} (h : Loop a b loop vs)
    (deep : depthFor a ≤ n) (errors : List SyntaxError) :
    forRule last n ⟨a, errors⟩ = .ok loop.tree ⟨b, errors ++ vs⟩ := by
  have settled : forRule last n ⟨a, errors⟩ ≠ .starved := by
    refine ((settles last n).forRule a ?_).ends errors
    simp only [depthFor, depthPerToken] at deep
    omega
  have follows : Follows (forRule last n) a loop.tree b vs := by
    rw [forRule_eq]
    exact (forParts_follows last n h).close .pure
  exact (follows errors).resolve_left settled

end Grammar

/-! The walk over the parts -/

namespace Resolve

def optional (place : Surroundings) : Option Expr → Resolve (Option Expr)
  | none => pure none
  | some e => do
    let e ← expression place e
    pure (some e)

/-- Resolves what is done in a round, all of it in the scope that the loop stands in. -/
def rounds (place : Surroundings) (r : Rounds) : Resolve Rounds := do
  let condition ← optional place r.condition
  let body ← statement place r.body
  let increment ← optional place r.increment
  pure ⟨condition, increment, body⟩

/-- Resolves a loop. If something is run before its rounds, the loop has a scope. -/
def forLoop (place : Surroundings) : ForLoop → Resolve ForLoop
  | ⟨none, r⟩ => do
    let r ← rounds place r
    pure ⟨none, r⟩
  | ⟨some s, r⟩ => do
    openScope []
    let s ← statement place s
    let r ← rounds place r
    closeScope
    pure ⟨some s, r⟩

theorem forLoop_increment (place : Surroundings) (loop : ForLoop) (r : Resolution) :
    (forLoop place loop r).1.rounds.increment.isSome = loop.rounds.increment.isSome := by
  obtain ⟨initial, _, increment, _⟩ := loop
  cases initial <;> cases increment <;> rfl

end Resolve

/-! Loops side by side -/

/-- Rounds of which the second ones are taken from the tree of a loop: what is done after the body stands with
the body in a marked scope. -/
inductive Rounds.Nested (marks : List Bool) : Rounds → Rounds → Prop
  | plain {condition condition' body body'} : Option.Rel (Expr.Nested marks) condition condition' →
    Stmt.Nested marks body body' → Rounds.Nested marks ⟨condition, none, body⟩ ⟨condition', none, body'⟩
  | stepped {condition condition' increment increment' body body'} :
    Option.Rel (Expr.Nested marks) condition condition' → Stmt.Nested (true :: marks) body body' →
    Expr.Nested (true :: marks) increment increment' →
    Rounds.Nested marks ⟨condition, some increment, body⟩ ⟨condition', some increment', body'⟩

theorem Rounds.Nested.condition {marks : List Bool} {r r' : Rounds} (h : Rounds.Nested marks r r') :
    Option.Rel (Expr.Nested marks) r.condition r'.condition := by
  cases h with
  | plain condition => exact condition
  | stepped condition => exact condition

theorem Rounds.Nested.increment {marks : List Bool} {r r' : Rounds} (h : Rounds.Nested marks r r') :
    r'.increment.isSome = r.increment.isSome := by
  cases h <;> rfl

/-- Loops of which the second one is taken from a tree. -/
inductive ForLoop.Nested (marks : List Bool) : ForLoop → ForLoop → Prop
  | bare {r r'} : Rounds.Nested marks r r' → ForLoop.Nested marks ⟨none, r⟩ ⟨none, r'⟩
  | opened {s s' r r'} : s.IsInitial → Stmt.Nested (false :: marks) s s' →
    Rounds.Nested (false :: marks) r r' → ForLoop.Nested marks ⟨some s, r⟩ ⟨some s', r'⟩

theorem ForLoop.Nested.rounds {marks : List Bool} {loop loop' : ForLoop} (h : ForLoop.Nested marks loop loop') :
    ∃ marks', Rounds.Nested marks' loop.rounds loop'.rounds := by
  cases h with
  | bare nested => exact ⟨_, nested⟩
  | opened _ _ nested => exact ⟨_, nested⟩

namespace Resolve

open Resolution

variable {place : Surroundings} {marks : List Bool} {r r' : Resolution}

theorem unchosen (here : List Nat) : Unchosen (fun _ => false) here := fun _ => rfl

theorem expression_nests_self (place : Surroundings) {e : Expr} (proper : e.Proper) :
    Nests (Pads marks) (Expr.Nested marks) (expression place e) (expression place e) := by
  have nests : Nests (Pads marks) (Expr.Nested marks) (expression place e)
      (expression place (e.wrap (fun _ => false) [])) := expression_nests place e [] proper
  rwa [e.wrap_unchosen (unchosen [])] at nests

theorem statement_nests_self (place : Surroundings) {s : Stmt} (proper : s.Proper)
    (unmarked : s.isDeclaration = true → marks.headD false = false) :
    Nests (Paused marks) (Stmt.Nested marks) (statement place s) (statement place s) := by
  have nests : Nests (Paused marks) (Stmt.Nested marks) (statement place s)
      (statement place (s.wrap (fun _ => false) [])) := statement_nests place s [] proper unmarked
  rwa [Stmt.bare_of_unchosen (unchosen []) (s.wrap_above fun _ => unchosen _)] at nests

theorem condition_nests {condition : Option Expr}
    (proper : (condition.getD (.literal (.bool true))).Proper) :
    Nests (Paused marks)
      (fun o e => ∃ o', Option.Rel (Expr.Nested marks) o o' ∧ e = o'.getD (.literal (.bool true)))
      (optional place condition) (expression place (condition.getD (.literal (.bool true)))) := by
  intro r r' paused
  cases condition with
  | none => exact ⟨⟨none, .none, rfl⟩, paused⟩
  | some e =>
    obtain ⟨nested, after⟩ := (expression_nests_self place proper).condition r r' paused
    exact ⟨⟨some _, .some nested, rfl⟩, after⟩

theorem rounds_nests {rounds : Rounds} (proper : rounds.tree.Proper)
    (plain : rounds.body.isDeclaration = false) :
    Nests (Paused marks) (fun a s => ∃ a', Rounds.Nested marks a a' ∧ s = a'.tree)
      (Resolve.rounds place rounds) (statement place rounds.tree) := by
  intro r r' paused
  obtain ⟨condition, increment, body⟩ := rounds
  obtain ⟨properCondition, -, properBody⟩ := proper
  obtain ⟨⟨condition', asked, same⟩, between⟩ := condition_nests properCondition r r' paused
  cases increment with
  | none =>
    obtain ⟨nested, after⟩ := statement_nests_self place properBody (plain_stands plain) _ _ between
    exact ⟨⟨⟨condition', none, _⟩, .plain asked nested, congrArg (fun c => Stmt.loop c _) same⟩, after⟩
  | some e =>
    -- The walk over the tree opens one more scope, in which nothing is declared.
    obtain ⟨properBody, properIncrement, -⟩ := properBody
    have opened := And.intro (Pads.openMarked between) between.2
    obtain ⟨ran, ended⟩ := statement_nests_self place properBody (plain_stands plain) _ _ opened
    obtain ⟨stepped, after⟩ := (expression_nests_self place properIncrement).condition _ _ ended
    exact ⟨⟨⟨condition', some _, _⟩, .stepped asked ran stepped, congrArg (fun c => Stmt.loop c _) same⟩,
      after.1.closeMarked, after.2⟩

theorem isInitial_statement {s : Stmt} (h : s.IsInitial) (place : Surroundings) (r : Resolution) :
    (statement place s r).1.IsInitial := by
  cases s with
  | declare => trivial
  | declareAll => trivial
  | expression => trivial
  | _ => exact h.elim

/-- Between two declarations the walk over the parts of a loop finds the same as the walk over its tree, and
what they make of it differs in nothing but the scope around the body. -/
theorem forLoop_nests (place : Surroundings) {loop : ForLoop} (written : loop.Written)
    (proper : loop.tree.Proper) (paused : Paused marks r r') :
    (∃ resolved, ForLoop.Nested marks (forLoop place loop r).1 resolved ∧
      (statement place loop.tree r').1 = resolved.tree) ∧
    Pads marks (forLoop place loop r).2 (statement place loop.tree r').2 := by
  obtain ⟨initial, rounds⟩ := loop
  obtain ⟨isInitial, plain⟩ := written
  cases initial with
  | none =>
    obtain ⟨⟨resolved, nested, same⟩, after⟩ := rounds_nests proper plain r r' paused
    exact ⟨⟨⟨none, resolved⟩, .bare nested, same⟩, after.1⟩
  | some s =>
    obtain ⟨properInitial, properRounds, -⟩ := proper
    have opened := Paused.openScope paused.1
    obtain ⟨first, between⟩ := statement_nests_self place properInitial (fun _ => rfl) _ _ opened
    obtain ⟨⟨resolved, nested, same⟩, after⟩ := rounds_nests properRounds plain _ _ between
    have initial' := isInitial_statement (isInitial s rfl) place (openScope [] r).2
    exact ⟨⟨⟨some _, resolved⟩, .opened initial' first nested, congrArg (fun s => Stmt.block [_, s]) same⟩,
      after.1.closeScope⟩

end Resolve

end LoxLang
