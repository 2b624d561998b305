import Mathlib.Data.List.Forall2
import LoxLang.Proofs.Syntax.Acceptance
import LoxLang.Proofs.Syntax.Proper
/-!
Expressions and the tokens they are written with. The strength of a tree without lambdas is that of its
root; a tree is stratified if each part is at least as strong as its place asks for: the left operand as
strong as the operator, the right operand stronger, and so on. `Expr.yield` are the tokens of a tree in
order, as far as the tree determines them.

What is proved: a stratified tree is what its tokens are read as, whatever the tokens are that the tree
does not keep (`Expr.reads`), and what is read without lambdas and without a fault is stratified
and has the tokens it was read from (`Reading.Expression.spans`). So reading expressions and writing them
out undo one another.
-/
namespace LoxLang

/-! Trees and their tokens -/

/-- The strength of an operator between two operands, 0 of other tokens. -/
def Token.strength (op : Token) : Nat :=
  match Level.all.find? fun level => level.isOperator op with
  | some level => level.strength
  | none => 0

/-- The kind of token that a constant is written as. -/
def Literal.kind : Literal → Kind
  | .nil => .keyword .nil
  | .bool true => .keyword .true
  | .bool false => .keyword .false
  | .number x => .number x
  | .string s => .string s

/-- What a tree says about one of its tokens. -/
inductive Slot where
  /-- The token is kept in the tree. -/
  | kept (t : Token)
  /-- The tree determines the kind, and with it the value. -/
  | kind (k : Kind)

/-- Whether a token may stand in a place of the tree's text. -/
def Slot.Fits : Slot → Token → Prop
  | .kept t, s => s = t
  | .kind k, s => s.kind = k

/-- A symbol that is not kept. -/
def Slot.symbol (s : Symbol) : Slot := .kind (.symbol s)

namespace Expr

def strength : Expr → Nat
  | .assign .. | .setProperty .. | .lambda _ => 0
  | .ternary .. => 1
  | .binary _ op _ | .logical _ op _ => op.strength
  | .unary .. => 8
  | .call .. | .property .. => 9
  | .literal _ | .group _ | .variable .. | .this .. => 10

mutual

/-- Whether no function without a name is part of the expression. -/
def LambdaFree : Expr → Prop
  | .literal _ | .variable .. | .this .. => True
  | .group inner => inner.LambdaFree
  | .unary _ right => right.LambdaFree
  | .binary left _ right | .logical left _ right => left.LambdaFree ∧ right.LambdaFree
  | .ternary condition whenTrue whenFalse =>
    condition.LambdaFree ∧ whenTrue.LambdaFree ∧ whenFalse.LambdaFree
  | .assign _ value _ => value.LambdaFree
  | .call callee _ arguments => callee.LambdaFree ∧ AllLambdaFree arguments
  | .property object _ => object.LambdaFree
  | .setProperty object _ value => object.LambdaFree ∧ value.LambdaFree
  | .lambda _ => False

/-- Whether no function without a name is part of the expressions. -/
def AllLambdaFree : List Expr → Prop
  | [] => True
  | e :: es => e.LambdaFree ∧ AllLambdaFree es

end

mutual

/-- Every part of the tree is as strong as its place asks for, and every token kept in it is of the kind
that its place asks for. -/
def Stratified : Expr → Prop
  | .literal _ => True
  | .group inner => inner.Stratified
  | .unary op right =>
    Grammar.isUnaryOperator op = true ∧ 8 ≤ right.strength ∧ right.Stratified
  | .binary left op right =>
    op.IsBinary ∧ op.strength ≤ left.strength ∧ op.strength < right.strength ∧
      left.Stratified ∧ right.Stratified
  | .logical left op right =>
    op.IsLogical ∧ op.strength ≤ left.strength ∧ op.strength < right.strength ∧
      left.Stratified ∧ right.Stratified
  | .ternary condition whenTrue whenFalse =>
    2 ≤ condition.strength ∧ 1 ≤ whenTrue.strength ∧ 1 ≤ whenFalse.strength ∧
      condition.Stratified ∧ whenTrue.Stratified ∧ whenFalse.Stratified
  | .variable name _ => name.isIdentifier = true
  | .this keyword _ => keyword.isKeyword .this = true
  | .assign name value _ => name.isIdentifier = true ∧ value.Stratified
  | .call callee paren arguments =>
    9 ≤ callee.strength ∧ paren.isSymbol .rightParen = true ∧ callee.Stratified ∧
      AllStratified arguments
  | .property object name =>
    9 ≤ object.strength ∧ name.isIdentifier = true ∧ object.Stratified
  | .setProperty object name value =>
    9 ≤ object.strength ∧ name.isIdentifier = true ∧ object.Stratified ∧ value.Stratified
  | .lambda _ => False

def AllStratified : List Expr → Prop
  | [] => True
  | e :: es => e.Stratified ∧ AllStratified es

end

mutual

/-- The tree as it is made: no distance is filled in, and no call has too many arguments. -/
def Fresh : Expr → Prop
  | .literal _ => True
  | .group inner => inner.Fresh
  | .unary _ right => right.Fresh
  | .binary left _ right | .logical left _ right => left.Fresh ∧ right.Fresh
  | .ternary condition whenTrue whenFalse =>
    condition.Fresh ∧ whenTrue.Fresh ∧ whenFalse.Fresh
  | .variable _ depth | .this _ depth => depth = none
  | .assign _ value depth => depth = none ∧ value.Fresh
  | .call callee _ arguments =>
    arguments.length ≤ maxArity ∧ callee.Fresh ∧ AllFresh arguments
  | .property object _ => object.Fresh
  | .setProperty object _ value => object.Fresh ∧ value.Fresh
  | .lambda _ => False

/-- Each of the expressions is as it is made. -/
def AllFresh : List Expr → Prop
  | [] => True
  | e :: es => e.Fresh ∧ AllFresh es

end

mutual

def yield : Expr → List Slot
  | .literal value => [.kind value.kind]
  | .group inner => .symbol .leftParen :: (inner.yield ++ [.symbol .rightParen])
  | .unary op right => .kept op :: right.yield
  | .binary left op right | .logical left op right => left.yield ++ .kept op :: right.yield
  | .ternary condition whenTrue whenFalse =>
    condition.yield ++
      .symbol .question :: (whenTrue.yield ++ .symbol .colon :: whenFalse.yield)
  | .variable name _ => [.kept name]
  | .this keyword _ => [.kept keyword]
  | .assign name value _ => .kept name :: .symbol .equal :: value.yield
  | .call callee paren arguments =>
    callee.yield ++ .symbol .leftParen :: (yields arguments ++ [.kept paren])
  | .property object name => object.yield ++ [.symbol .dot, .kept name]
  | .setProperty object name value =>
    object.yield ++ .symbol .dot :: .kept name :: .symbol .equal :: value.yield
  | .lambda _ => []

def yields : List Expr → List Slot
  | [] => []
  | [e] => e.yield
  | e :: e' :: es => e.yield ++ .symbol .comma :: yields (e' :: es)

end

/-- The tokens `u` are the text of the tree. -/
def WrittenAs (e : Expr) (u : List Token) : Prop := List.Forall₂ Slot.Fits e.yield u

end Expr

namespace Token

variable {t op : Token}

theorem isSymbol_of_kind {s : Symbol} (h : t.kind = .symbol s) : t.isSymbol s = true := by
  simp [isSymbol, is, h, Kind.same]

theorem strength_of_isOperator {level : Level} (h : level.isOperator op = true) :
    op.strength = level.strength := by
  obtain ⟨kind, lexeme, line⟩ := op
  cases kind with
  | symbol s => cases level <;> cases s <;> first | rfl | cases h
  | keyword k => cases level <;> cases k <;> first | rfl | cases h
  | _ => cases level <;> cases h

theorem IsBinary.level (h : op.IsBinary) : ∃ level : Level, level.isOperator op = true ∧
    ∀ left right, level.join left op right = .binary left op right := by
  rcases h with h | h | h | h
  · exact ⟨.equality, h, fun _ _ => rfl⟩
  · exact ⟨.comparison, h, fun _ _ => rfl⟩
  · exact ⟨.term, h, fun _ _ => rfl⟩
  · exact ⟨.factor, h, fun _ _ => rfl⟩

/-- The level of an operator that may leave its right operand alone. -/
theorem IsLogical.level (h : op.IsLogical) : ∃ level : Level, level.isOperator op = true ∧
    ∀ left right, level.join left op right = .logical left op right := by
  rcases h with h | h
  · exact ⟨.disjunction, h, fun _ _ => rfl⟩
  · exact ⟨.conjunction, h, fun _ _ => rfl⟩

end Token

/-- The tokens of a text in two parts are those of the parts. -/
theorem fits_append {xs ys : List Slot} {u : List Token} :
    List.Forall₂ Slot.Fits (xs ++ ys) u ↔
      ∃ v w, List.Forall₂ Slot.Fits xs v ∧ List.Forall₂ Slot.Fits ys w ∧ u = v ++ w := by
  constructor
  · intro h
    induction xs generalizing u with
    | nil => exact ⟨[], u, .nil, h, rfl⟩
    | cons x xs ih =>
      obtain ⟨t, u', fits, rest, rfl⟩ := List.forall₂_cons_left_iff.mp h
      obtain ⟨v, w, first, second, rfl⟩ := ih rest
      exact ⟨t :: v, w, .cons fits first, second, rfl⟩
  · rintro ⟨v, w, first, second, rfl⟩
    exact List.rel_append first second

theorem fits_cons {x : Slot} {xs : List Slot} {u : List Token} :
    List.Forall₂ Slot.Fits (x :: xs) u ↔
      ∃ t v, x.Fits t ∧ List.Forall₂ Slot.Fits xs v ∧ u = t :: v :=
  List.forall₂_cons_left_iff

theorem fits_single {x : Slot} {u : List Token} :
    List.Forall₂ Slot.Fits [x] u ↔ ∃ t, x.Fits t ∧ u = [t] := by
  simp [fits_cons]

theorem fits_symbol {s : Symbol} {t : Token} (h : (Slot.symbol s).Fits t) : t.isSymbol s = true :=
  Token.isSymbol_of_kind h

/-! From trees to readings -/

open Reading Grammar

/-- The tokens `u` are read as the tree wherever the tree may stand. -/
structure Expr.ReadFrom (e : Expr) (u : List Token) : Prop where
  /-- Alone, by every rule that is not stronger than the tree. -/
  whole : ∀ {n b}, n ≤ e.strength → n ≤ 8 → Stops (Token.continues n) b → At n (u ++ b) b e []
  /-- With the operators behind it, as the left end of a chain. -/
  chain : ∀ {level : Level} {b c e' vs}, level.strength ≤ e.strength →
    Stops (Token.continues (level.strength + 1)) b → Operators level e b c e' vs →
      Operation level (u ++ b) c e' vs
  /-- With the calls and properties behind it. -/
  calls : ∀ {b c e' vs}, 9 ≤ e.strength → Calls e b c e' vs → Unary (u ++ b) c e' vs

namespace Expr

variable {e : Expr} {u b : List Token} {t : Token}

theorem operand_of_at {level : Level} (h : At (level.strength + 1) u b e []) :
    Operand level u b e [] := by
  cases level with
  | factor => exact .unary rfl h
  | _ => exact .tighter rfl h

/-- A tree whose strength is that of a rule, but not of operators. -/
theorem ReadFrom.of_rule {n : Nat} (same : e.strength = n) (le : n ≤ 8)
    (whole : ∀ {b}, Stops (Token.continues n) b → At n (u ++ b) b e [])
    (chain : ∀ {level : Level} {b c e' vs}, level.strength = n →
      Stops (Token.continues (level.strength + 1)) b → Operators level e b c e' vs →
        Operation level (u ++ b) c e' vs) : e.ReadFrom u := by
  have loose : ∀ {m b}, m ≤ n → Stops (Token.continues m) b → At m (u ++ b) b e [] :=
    fun le' stops => (whole (stops.tighter le')).loosen le le' stops
  refine ⟨fun le' _ stops => loose (same ▸ le') stops, ?_, fun strong => by omega⟩
  intro level b c e' vs le' stops operators
  rcases Nat.eq_or_lt_of_le le' with equal | less
  · exact chain (equal.trans same) stops operators
  · exact .chain (operand_of_at (loose (same ▸ less) stops)) operators

theorem ReadFrom.of_calls
    (calls : ∀ {b c e' vs}, Calls e b c e' vs → Unary (u ++ b) c e' vs) : e.ReadFrom u := by
  have unary : ∀ {b}, Stops (Token.continues 8) b → At 8 (u ++ b) b e [] :=
    fun stops => calls (.done stops.call stops.property)
  have loose : ∀ {m b}, m ≤ 8 → Stops (Token.continues m) b → At m (u ++ b) b e [] :=
    fun le stops => (unary (stops.tighter le)).loosen (Nat.le_refl 8) le stops
  refine ⟨fun _ le stops => loose le stops, ?_, fun _ => calls⟩
  intro level b c e' vs _ stops operators
  have := level.strength_le
  exact .chain (operand_of_at (loose (by omega) stops)) operators

/-- A tree that is read by the rule of its strength and starts no chain. -/
theorem ReadFrom.of_alone {n : Nat} (same : e.strength = n) (le : n ≤ 8) (apart : n ∉ [2, 3, 4, 5, 6, 7])
    (whole : ∀ {b}, Stops (Token.continues n) b → At n (u ++ b) b e []) : e.ReadFrom u := by
  refine .of_rule same le whole fun {level} {b c e' vs} at_ _ _ => ?_
  cases level <;> simp [← at_, Level.strength] at apart

theorem ReadFrom.join {level : Level} {left right : Expr} {op : Token} {v w : List Token}
    (ho : level.isOperator op = true) (same : (level.join left op right).strength = level.strength)
    (first : left.ReadFrom v) (hl : level.strength ≤ left.strength)
    (second : right.ReadFrom w) (hr : level.strength < right.strength) :
    (level.join left op right).ReadFrom (v ++ op :: w) := by
  have strong := level.strength_le
  -- With the operator behind it the left operand is the left end of a longer chain.
  have chain {b c e' vs} (stops : Stops (Token.continues (level.strength + 1)) b)
      (operators : Operators level (level.join left op right) b c e' vs) :
      Operation level (v ++ op :: w ++ b) c e' vs := by
    have operand : Operand level (w ++ b) b right [] :=
      operand_of_at (second.whole hr (by omega) stops)
    have more : Operators level left (op :: (w ++ b)) c e' ([] ++ vs) := .more ho operand operators
    have read := first.chain hl (.of_operator ho (Nat.lt_succ_self _)) more
    simpa using read
  refine .of_rule same (by omega) (fun {b} stops => ?_) fun {level'} {b c e' vs} eq stops ops => ?_
  · rw [at_strength]
    exact chain (stops.tighter (Nat.le_succ _)) (.done (stops.operator (Nat.le_refl _)))
  · have : level' = level := by
      cases level' <;> cases level <;> first | rfl | cases eq
    subst this
    exact chain stops ops

theorem ReadFrom.of_atom (h : atom? t = some e) : e.ReadFrom [t] :=
  .of_calls fun calls => .call (.atom h) calls

theorem atom_of_literal {value : Literal} (h : t.kind = value.kind) :
    atom? t = some (.literal value) := by
  unfold atom?
  rw [h]
  cases value with
  | bool b => cases b <;> rfl
  | _ => rfl

theorem atom_of_this (h : t.isKeyword .this = true) : atom? t = some (.this t none) := by
  obtain ⟨kind, lexeme, line⟩ := t
  cases kind with
  | keyword k => cases k <;> first | rfl | cases h
  | _ => cases h

/-! Each form of tree is read from its tokens if its parts are from theirs -/

theorem ReadFrom.group {opened closed : Token} (ho : opened.isSymbol .leftParen = true)
    (inside : e.ReadFrom u) (hc : closed.isSymbol .rightParen = true) :
    (Expr.group e).ReadFrom (opened :: (u ++ [closed])) := by
  refine .of_calls fun {b c e' vs} calls => ?_
  have stops : Stops (Token.continues 0) (closed :: b) := .of_symbol hc fun _ _ => rfl
  have within : Expression (u ++ closed :: b) (closed :: b) e [] :=
    inside.whole (Nat.zero_le _) (Nat.zero_le 8) stops
  simpa using Unary.call (.group ho within hc) calls

theorem ReadFrom.unary {op : Token} (ho : isUnaryOperator op = true) (operand : e.ReadFrom u)
    (strong : 8 ≤ e.strength) : (Expr.unary op e).ReadFrom (op :: u) := by
  refine .of_alone (n := 8) rfl (Nat.le_refl 8) (by decide) fun {b} stops => ?_
  have operand : Unary (u ++ b) b e [] := operand.whole strong (Nat.le_refl 8) stops
  exact Unary.operator ho operand

/-- The node that a level makes of its operator and two operands. -/
theorem ReadFrom.operator {level : Level} {left right : Expr} {op : Token} {v w : List Token}
    (ho : level.isOperator op = true) (node : level.join left op right = e)
    (same : e.strength = op.strength) (first : left.ReadFrom v) (hl : op.strength ≤ left.strength)
    (second : right.ReadFrom w) (hr : op.strength < right.strength) :
    e.ReadFrom (v ++ op :: w) := by
  have strength := Token.strength_of_isOperator ho
  subst node
  exact .join ho (same.trans strength) first (strength ▸ hl) second (strength ▸ hr)

theorem ReadFrom.ternary {condition whenTrue whenFalse : Expr} {question colon : Token}
    {v w x : List Token} (first : condition.ReadFrom v) (two : 2 ≤ condition.strength)
    (hq : question.isSymbol .question = true) (second : whenTrue.ReadFrom w)
    (one : 1 ≤ whenTrue.strength) (hc : colon.isSymbol .colon = true)
    (third : whenFalse.ReadFrom x) (one' : 1 ≤ whenFalse.strength) :
    (Expr.ternary condition whenTrue whenFalse).ReadFrom
      (v ++ question :: (w ++ colon :: x)) := by
  refine .of_alone (n := 1) rfl (by decide) (by decide) fun {b} stops => ?_
  have first : Operation .disjunction (v ++ question :: (w ++ colon :: (x ++ b)))
      (question :: (w ++ colon :: (x ++ b))) condition [] :=
    first.whole two (by decide) (.of_question hq (by decide))
  have second : Ternary (w ++ colon :: (x ++ b)) (colon :: (x ++ b)) whenTrue [] :=
    second.whole one (by decide) (.of_symbol hc fun _ _ => rfl)
  have third : Ternary (x ++ b) b whenFalse [] := third.whole one' (by decide) stops
  simpa [At] using Ternary.choice first hq second hc third

theorem ReadFrom.property {name dot : Token} (object : e.ReadFrom u) (strong : 9 ≤ e.strength)
    (hd : dot.isSymbol .dot = true) (hn : name.isIdentifier = true) :
    (Expr.property e name).ReadFrom (u ++ [dot, name]) := by
  refine .of_calls fun {b c e' vs} calls => ?_
  simpa using object.calls strong (.property hd hn calls)

theorem ReadFrom.assigned {target value : Expr} {equals : Token} {v w : List Token}
    (left : target.ReadFrom v) (strong : 9 ≤ target.strength)
    (he : equals.isSymbol .equal = true) (none : target.targetFaults equals = [])
    (right : value.ReadFrom w) (weak : (target.assigned value).strength = 0) :
    (target.assigned value).ReadFrom (v ++ equals :: w) := by
  refine .of_alone weak (by decide) (by decide) fun {b} stops => ?_
  have behind : Stops (Token.continues 8) (equals :: (w ++ b)) := .of_equal he (by decide)
  have first : Unary (v ++ equals :: (w ++ b)) (equals :: (w ++ b)) target [] :=
    left.calls strong (.done behind.call behind.property)
  have read : Expression (w ++ b) b value [] := right.whole (Nat.zero_le _) (Nat.zero_le 8) stops
  have whole := Expression.assign (.of_unary first he) he read
  rw [none] at whole
  simpa [At] using whole

mutual

/-- A stratified tree is read from its tokens. -/
theorem reads : ∀ (e : Expr) {u}, e.Stratified → e.Fresh → e.WrittenAs u → e.ReadFrom u
  | .literal value, u, _, _, written => by
    obtain ⟨t, fits, rfl⟩ := fits_single.mp written
    exact .of_atom (atom_of_literal fits)
  | .variable name depth, u, stratified, fresh, written => by
    obtain ⟨_, rfl, rfl⟩ := fits_single.mp written
    cases fresh
    exact .of_atom (atom_of_isIdentifier stratified)
  | .this keyword depth, u, stratified, fresh, written => by
    obtain ⟨_, rfl, rfl⟩ := fits_single.mp written
    cases fresh
    exact .of_atom (atom_of_this stratified)
  | .group inner, u, stratified, fresh, written => by
    obtain ⟨opened, _, ho, rest, rfl⟩ := fits_cons.mp written
    obtain ⟨v, _, inside, closing, rfl⟩ := fits_append.mp rest
    obtain ⟨closed, hc, rfl⟩ := fits_single.mp closing
    exact .group (fits_symbol ho) (reads inner stratified fresh inside) (fits_symbol hc)
  | .unary op right, u, stratified, fresh, written => by
    obtain ⟨_, v, rfl, rest, rfl⟩ := fits_cons.mp written
    obtain ⟨ho, strong, stratified⟩ := stratified
    exact .unary ho (reads right stratified fresh rest) strong
  | .binary left op right, u, stratified, fresh, written => by
    obtain ⟨v, _, first, rest, rfl⟩ := fits_append.mp written
    obtain ⟨_, w, rfl, second, rfl⟩ := fits_cons.mp rest
    obtain ⟨isBinary, hl, hr, stratified, stratified'⟩ := stratified
    -- The operator is one of a level, and the level makes such a node of it.
    obtain ⟨level, ho, join⟩ := isBinary.level
    exact .operator ho (join left right) rfl (reads left stratified fresh.1 first) hl
      (reads right stratified' fresh.2 second) hr
  | .logical left op right, u, stratified, fresh, written => by
    obtain ⟨v, _, first, rest, rfl⟩ := fits_append.mp written
    obtain ⟨_, w, rfl, second, rfl⟩ := fits_cons.mp rest
    obtain ⟨isLogical, hl, hr, stratified, stratified'⟩ := stratified
    obtain ⟨level, ho, join⟩ := isLogical.level
    exact .operator ho (join left right) rfl (reads left stratified fresh.1 first) hl
      (reads right stratified' fresh.2 second) hr
  | .ternary condition whenTrue whenFalse, u, stratified, fresh, written => by
    obtain ⟨v, _, first, rest, rfl⟩ := fits_append.mp written
    obtain ⟨question, _, hq, branches, rfl⟩ := fits_cons.mp rest
    obtain ⟨w, _, second, rest', rfl⟩ := fits_append.mp branches
    obtain ⟨colon, x, hc, third, rfl⟩ := fits_cons.mp rest'
    obtain ⟨two, one, one', stratified, stratified', stratified''⟩ := stratified
    exact .ternary (reads condition stratified fresh.1 first) two (fits_symbol hq)
      (reads whenTrue stratified' fresh.2.1 second) one (fits_symbol hc)
      (reads whenFalse stratified'' fresh.2.2 third) one'
  | .assign name value depth, u, stratified, fresh, written => by
    obtain ⟨name, _, rfl, rest, rfl⟩ := fits_cons.mp written
    obtain ⟨equals, w, equal, assigned, rfl⟩ := fits_cons.mp rest
    obtain ⟨rfl, fresh⟩ := fresh
    have target : ReadFrom (.variable name none) [name] :=
      .of_atom (atom_of_isIdentifier stratified.1)
    exact target.assigned (Nat.le_succ 9) (fits_symbol equal) rfl
      (reads value stratified.2 fresh assigned) rfl
  | .call callee paren arguments, u, stratified, fresh, written => by
    obtain ⟨v, _, first, rest, rfl⟩ := fits_append.mp written
    obtain ⟨opened, _, ho, inside, rfl⟩ := fits_cons.mp rest
    obtain ⟨w, _, passed, closing, rfl⟩ := fits_append.mp inside
    obtain ⟨paren, rfl, rfl⟩ := fits_single.mp closing
    obtain ⟨strong, hc, stratified, all⟩ := stratified
    have first := reads callee stratified fresh.2.1 first
    refine .of_calls fun {b c e' vs} calls => ?_
    have passed : Passed (w ++ paren :: b) (paren :: b) arguments [] := by
      cases arguments with
      | nil =>
        cases passed
        exact .none
      | cons e es =>
        exact .some (readsAll (e :: es) 0 all fresh.2.2 passed (by simp)
          (by simpa using fresh.1) hc)
    have more := Calls.call (fits_symbol ho) passed hc calls
    have whole := first.calls strong more
    simpa using whole
  | .property object name, u, stratified, fresh, written => by
    obtain ⟨v, _, first, rest, rfl⟩ := fits_append.mp written
    obtain ⟨dot, _, hd, named, rfl⟩ := fits_cons.mp rest
    obtain ⟨name, rfl, rfl⟩ := fits_single.mp named
    obtain ⟨strong, hn, stratified⟩ := stratified
    exact .property (reads object stratified fresh first) strong (fits_symbol hd) hn
  | .setProperty object name value, u, stratified, fresh, written => by
    obtain ⟨v, _, first, rest, rfl⟩ := fits_append.mp written
    obtain ⟨dot, _, hd, named, rfl⟩ := fits_cons.mp rest
    obtain ⟨name, _, rfl, rest', rfl⟩ := fits_cons.mp named
    obtain ⟨equals, w, equal, assigned, rfl⟩ := fits_cons.mp rest'
    obtain ⟨strong, hn, stratified, stratified'⟩ := stratified
    have target := ReadFrom.property (reads object stratified fresh.1 first) strong (fits_symbol hd) hn
    -- The tokens of the target are those of a property of their own.
    have whole : v ++ dot :: name :: equals :: w = v ++ [dot, name] ++ equals :: w := by simp
    rw [whole]
    exact target.assigned (Nat.le_refl 9) (fits_symbol equal) rfl
      (reads value stratified' fresh.2 assigned) rfl
  | .lambda code, u, stratified, _, _ => stratified.elim

theorem readsAll : ∀ (es : List Expr) (count : Nat) {u closed b}, AllStratified es → AllFresh es →
    List.Forall₂ Slot.Fits (yields es) u → es ≠ [] → count + es.length ≤ maxArity →
      closed.isSymbol .rightParen = true → Arguments count (u ++ closed :: b) (closed :: b) es []
  | [], _, _, _, _, _, _, _, given, _, _ => (given rfl).elim
  | [e], count, u, closed, b, stratified, fresh, written, _, room, hc => by
    have read := reads e stratified.1 fresh.1 written
    have whole : Expression (u ++ closed :: b) (closed :: b) e [] :=
      read.whole (Nat.zero_le _) (Nat.zero_le 8) (.of_symbol hc fun _ _ => rfl)
    obtain ⟨first, a, eq, _⟩ := whole.begins
    rw [eq] at whole ⊢
    have stops : Stops (Token.isSymbol .comma) (closed :: b) :=
      stops_cons.mpr (Token.isSymbol_elim hc fun _ _ => rfl)
    have arguments : Arguments count (first :: a) (closed :: b) [e] _ := .last whole stops
    rwa [excess_room room] at arguments
  | e :: e' :: es, count, u, closed, b, stratified, fresh, written, _, room, hc => by
    obtain ⟨v, _, first, rest, rfl⟩ := fits_append.mp written
    obtain ⟨comma, w, hcomma, behind, rfl⟩ := fits_cons.mp rest
    have read := reads e stratified.1 fresh.1 first
    have others := readsAll (e' :: es) (count + 1) (b := b) stratified.2 fresh.2 behind (by simp)
      (by simp only [List.length_cons] at room ⊢; omega) hc
    have whole : Expression (v ++ comma :: (w ++ closed :: b)) (comma :: (w ++ closed :: b)) e [] :=
      read.whole (Nat.zero_le _) (Nat.zero_le 8) (.of_symbol (fits_symbol hcomma) fun _ _ => rfl)
    obtain ⟨t, a, eq, _⟩ := whole.begins
    have front : v ++ comma :: w ++ closed :: b = t :: a := by
      rw [← eq]
      simp
    rw [eq] at whole
    rw [front]
    have arguments : Arguments count (t :: a) (closed :: b) (e :: e' :: es) _ :=
      .more whole (fits_symbol hcomma) others
    have room : count < maxArity := by
      simp only [List.length_cons] at room
      omega
    rwa [excess_room room] at arguments

end

/-! From readings to trees -/

/-- From `a` to `b` the tokens are the text of the tree, which is stratified and at least so strong. -/
structure Spans (n : Nat) (a b : List Token) (e : Expr) : Prop where
  strong : n ≤ e.strength
  stratified : e.Stratified
  fresh : e.Fresh
  written : ∃ u, a = u ++ b ∧ e.WrittenAs u

/-- From `a` to `b` the tokens are the texts of the trees, divided by commas. -/
structure SpansAll (a b : List Token) (es : List Expr) : Prop where
  stratified : AllStratified es
  fresh : AllFresh es
  written : ∃ u, a = u ++ b ∧ List.Forall₂ Slot.Fits (yields es) u

variable {a c : List Token} {m n : Nat} {left right target value : Expr} {op equals : Token}

theorem Spans.loosen (h : e.Spans n a b) (le : m ≤ n) : e.Spans m a b :=
  ⟨Nat.le_trans le h.strong, h.stratified, h.fresh, h.written⟩

theorem kind_of_isSymbol {s : Symbol} (h : t.isSymbol s = true) : (Slot.symbol s).Fits t := by
  obtain ⟨kind, lexeme, line⟩ := t
  cases kind with
  | symbol s' => simpa [Token.isSymbol, Token.is, Kind.same, Slot.symbol, Slot.Fits] using h
  | _ => cases h

theorem Spans.of_atom (h : atom? t = some e) : e.Spans 10 (t :: b) b := by
  obtain ⟨kind, lexeme, line⟩ := t
  unfold atom? at h
  split at h
  case h_8 => cases h
  all_goals
    rename_i eq
    cases eq
    cases h
    exact ⟨Nat.le_refl 10, by trivial, by trivial, [_], rfl, .cons rfl .nil⟩

theorem Spans.group {opened closed : Token} {inner : Expr} (ho : opened.isSymbol .leftParen = true)
    (h : inner.Spans 0 a (closed :: b)) (hc : closed.isSymbol .rightParen = true) :
    (Expr.group inner).Spans 10 (opened :: a) b := by
  obtain ⟨u, rfl, written⟩ := h.written
  refine ⟨Nat.le_refl 10, h.stratified, h.fresh, opened :: (u ++ [closed]), by simp, ?_⟩
  have closing : List.Forall₂ Slot.Fits [Slot.symbol .rightParen] [closed] :=
    fits_single.mpr ⟨closed, kind_of_isSymbol hc, rfl⟩
  exact .cons (kind_of_isSymbol ho) (fits_append.mpr ⟨u, [closed], written, closing, rfl⟩)

theorem Spans.join {level : Level} (ho : level.isOperator op = true)
    (first : left.Spans level.strength a (op :: b)) (second : right.Spans (level.strength + 1) b c) :
    (level.join left op right).Spans level.strength a c := by
  have strength := Token.strength_of_isOperator ho
  have hl : op.strength ≤ left.strength := strength ▸ first.strong
  have hr : op.strength < right.strength := strength ▸ second.strong
  obtain ⟨u, rfl, written⟩ := first.written
  obtain ⟨v, rfl, written'⟩ := second.written
  have whole : List.Forall₂ Slot.Fits (left.yield ++ .kept op :: right.yield) (u ++ op :: v) :=
    List.rel_append written (.cons rfl written')
  have text : ∃ w, u ++ op :: (v ++ c) = w ++ c ∧
      List.Forall₂ Slot.Fits (left.yield ++ .kept op :: right.yield) w :=
    ⟨u ++ op :: v, by simp, whole⟩
  have parts := And.intro first.stratified second.stratified
  have fresh := And.intro first.fresh second.fresh
  -- What the levels differ in is which kind of node they make.
  cases level with
  | disjunction => exact ⟨Nat.le_of_eq strength.symm, ⟨.inl ho, hl, hr, parts⟩, fresh, text⟩
  | conjunction => exact ⟨Nat.le_of_eq strength.symm, ⟨.inr ho, hl, hr, parts⟩, fresh, text⟩
  | equality => exact ⟨Nat.le_of_eq strength.symm, ⟨.inl ho, hl, hr, parts⟩, fresh, text⟩
  | comparison => exact ⟨Nat.le_of_eq strength.symm, ⟨.inr (.inl ho), hl, hr, parts⟩, fresh, text⟩
  | term =>
    exact ⟨Nat.le_of_eq strength.symm, ⟨.inr (.inr (.inl ho)), hl, hr, parts⟩, fresh, text⟩
  | factor =>
    exact ⟨Nat.le_of_eq strength.symm, ⟨.inr (.inr (.inr ho)), hl, hr, parts⟩, fresh, text⟩

theorem lambdaFree_join {level : Level} :
    (level.join left op right).LambdaFree ↔ left.LambdaFree ∧ right.LambdaFree := by
  cases level <;> exact Iff.rfl

theorem Spans.assigned (first : target.LambdaFree → target.Spans 0 a (equals :: b))
    (second : value.LambdaFree → value.Spans 0 b c) (he : equals.isSymbol .equal = true)
    (none : target.targetFaults equals = []) (free : (target.assigned value).LambdaFree) :
    (target.assigned value).Spans 0 a c := by
  cases target with
  | «variable» name depth =>
    have first := first trivial
    have second := second free
    obtain ⟨u, rfl, written⟩ := first.written
    obtain ⟨v, rfl, written'⟩ := second.written
    obtain ⟨name, rfl, rfl⟩ := fits_single.mp written
    refine ⟨Nat.zero_le _, ⟨first.stratified, second.stratified⟩, ⟨rfl, second.fresh⟩,
      name :: equals :: v, rfl, ?_⟩
    exact .cons rfl (.cons (kind_of_isSymbol he) written')
  | property object name =>
    have first := first free.1
    have second := second free.2
    obtain ⟨u, rfl, written⟩ := first.written
    obtain ⟨v, rfl, written'⟩ := second.written
    obtain ⟨w, x, inside, named, rfl⟩ := fits_append.mp written
    obtain ⟨strong, hn, stratified⟩ := first.stratified
    refine ⟨Nat.zero_le _, ⟨strong, hn, stratified, second.stratified⟩,
      ⟨first.fresh, second.fresh⟩, w ++ (x ++ equals :: v), by simp, ?_⟩
    have behind : List.Forall₂ Slot.Fits (.symbol .equal :: value.yield) (equals :: v) :=
      .cons (kind_of_isSymbol he) written'
    exact List.rel_append inside (List.rel_append named behind)
  | _ => cases none

theorem Spans.ternary {question colon : Token} {d : List Token} {condition whenTrue whenFalse : Expr}
    (first : condition.Spans 2 a (question :: b)) (hq : question.isSymbol .question = true)
    (second : whenTrue.Spans 1 b (colon :: c)) (hc : colon.isSymbol .colon = true)
    (third : whenFalse.Spans 1 c d) : (Expr.ternary condition whenTrue whenFalse).Spans 1 a d := by
  obtain ⟨u, rfl, written⟩ := first.written
  obtain ⟨v, rfl, written'⟩ := second.written
  obtain ⟨w, rfl, written''⟩ := third.written
  refine ⟨Nat.le_refl 1, ⟨first.strong, second.strong, third.strong, first.stratified,
    second.stratified, third.stratified⟩, ⟨first.fresh, second.fresh, third.fresh⟩,
    u ++ question :: (v ++ colon :: w), by simp, ?_⟩
  have behind : List.Forall₂ Slot.Fits (.symbol .colon :: whenFalse.yield) (colon :: w) :=
    .cons (kind_of_isSymbol hc) written''
  exact List.rel_append written
    (.cons (kind_of_isSymbol hq) (List.rel_append written' behind))

theorem Spans.call {opened closed : Token} {callee : Expr} {arguments : List Expr}
    (first : callee.Spans 9 a (opened :: b)) (ho : opened.isSymbol .leftParen = true)
    (second : SpansAll b (closed :: c) arguments) (hc : closed.isSymbol .rightParen = true)
    (few : arguments.length ≤ maxArity) : (Expr.call callee closed arguments).Spans 9 a c := by
  obtain ⟨u, rfl, written⟩ := first.written
  obtain ⟨v, rfl, written'⟩ := second.written
  refine ⟨Nat.le_refl 9, ⟨first.strong, hc, first.stratified, second.stratified⟩,
    ⟨few, first.fresh, second.fresh⟩, u ++ opened :: (v ++ [closed]), by simp, ?_⟩
  have closing : List.Forall₂ Slot.Fits [Slot.kept closed] [closed] := .cons rfl .nil
  exact List.rel_append written (.cons (kind_of_isSymbol ho) (List.rel_append written' closing))

theorem Spans.property {dot name : Token} {object : Expr} (first : object.Spans 9 a (dot :: name :: b))
    (hd : dot.isSymbol .dot = true) (hn : name.isIdentifier = true) :
    (Expr.property object name).Spans 9 a b := by
  obtain ⟨u, rfl, written⟩ := first.written
  refine ⟨Nat.le_refl 9, ⟨first.strong, hn, first.stratified⟩, first.fresh, u ++ [dot, name],
    by simp, ?_⟩
  exact List.rel_append written (.cons (kind_of_isSymbol hd) (.cons rfl .nil))

theorem yields_cons {es : List Expr} (some : es ≠ []) :
    yields (e :: es) = e.yield ++ .symbol .comma :: yields es := by
  cases es with
  | nil => exact (some rfl).elim
  | cons e' es => rfl

end Expr

namespace Reading

theorem Arguments.ne_nil {count : Nat} {a b : List Token} {es : List Expr} {vs : List SyntaxError}
    (h : Arguments count a b es vs) : es ≠ [] := by
  cases h <;> exact List.cons_ne_nil _ _

mutual

/-- An expression without lambdas that is read without a fault is stratified, and it is read from its
own tokens. -/
theorem Expression.spans : ∀ {a b e vs}, Expression a b e vs → vs = [] → e.LambdaFree → e.Spans 0 a b
  | _, _, _, _, .plain h _, clean, free => Lambda.spans h clean free
  | _, _, _, _, .assign h he hv, clean, free => by
    obtain ⟨first, clean⟩ := List.append_eq_nil_iff.mp clean
    obtain ⟨second, none⟩ := List.append_eq_nil_iff.mp clean
    exact .assigned (Lambda.spans h first) (Expression.spans hv second) he none free

theorem Lambda.spans : ∀ {a b e vs}, Lambda a b e vs → vs = [] → e.LambdaFree → e.Spans 0 a b
  | _, _, _, _, .function _ _ _ _ _, _, free => free.elim
  | _, _, _, _, .ternary h, clean, free => (Ternary.spans h clean free).loosen (Nat.zero_le 1)

theorem Ternary.spans : ∀ {a b e vs}, Ternary a b e vs → vs = [] → e.LambdaFree → e.Spans 1 a b
  | _, _, _, _, .plain h _, clean, free => (Operation.spans h clean free).loosen (by decide)
  | _, _, _, _, .choice h hq ht hc hf, clean, free => by
    obtain ⟨first, clean⟩ := List.append_eq_nil_iff.mp clean
    obtain ⟨second, third⟩ := List.append_eq_nil_iff.mp clean
    exact .ternary (Operation.spans h first free.1) hq (Ternary.spans ht second free.2.1) hc
      (Ternary.spans hf third free.2.2)

theorem Operation.spans : ∀ {level a b e vs}, Operation level a b e vs → vs = [] → e.LambdaFree →
    e.Spans level.strength a b
  | _, _, _, _, _, .chain h hr, clean, free => by
    obtain ⟨first, rest⟩ := List.append_eq_nil_iff.mp clean
    refine Operators.spans hr rest (fun free => ?_) free
    exact (Operand.spans h first free).loosen (Nat.le_succ _)

theorem Operand.spans : ∀ {level a b e vs}, Operand level a b e vs → vs = [] → e.LambdaFree →
    e.Spans (level.strength + 1) a b
  | _, _, _, _, _, .tighter hl h, clean, free => by
    have spans := Operation.spans h clean free
    rwa [Level.strength_tighter hl] at spans
  | _, _, _, _, _, .unary hl h, clean, free => by
    rw [Level.strength_tightest hl]
    exact Unary.spans h clean free

/-- Operators behind what is spanned span as far as they are read. -/
theorem Operators.spans : ∀ {level left b c e vs}, Operators level left b c e vs → vs = [] →
    ∀ {a}, (left.LambdaFree → left.Spans level.strength a b) → e.LambdaFree →
      e.Spans level.strength a c
  | _, _, _, _, _, _, .done _, _, _, left, free => left free
  | _, _, _, _, _, _, .more ho h hr, clean, _, left, free => by
    obtain ⟨first, rest⟩ := List.append_eq_nil_iff.mp clean
    refine Operators.spans hr rest (fun free => ?_) free
    obtain ⟨free, free'⟩ := Expr.lambdaFree_join.mp free
    exact .join ho (left free) (Operand.spans h first free')

theorem Unary.spans : ∀ {a b e vs}, Unary a b e vs → vs = [] → e.LambdaFree → e.Spans 8 a b
  | _, _, _, _, .operator ho h, clean, free => by
    have operand := Unary.spans h clean free
    obtain ⟨u, rfl, written⟩ := operand.written
    exact ⟨Nat.le_refl 8, ⟨ho, operand.strong, operand.stratified⟩, operand.fresh, _ :: u, rfl,
      .cons rfl written⟩
  | _, _, _, _, .call h hr, clean, free => by
    obtain ⟨first, rest⟩ := List.append_eq_nil_iff.mp clean
    have whole := Calls.spans hr rest
      (fun free => (Primary.spans h first free).loosen (by decide)) free
    exact whole.loosen (by decide)

/-- Calls and properties behind what is spanned span as far as they are read. -/
theorem Calls.spans : ∀ {callee b c e vs}, Calls callee b c e vs → vs = [] →
    ∀ {a}, (callee.LambdaFree → callee.Spans 9 a b) → e.LambdaFree → e.Spans 9 a c
  | _, _, _, _, _, .done _ _, _, _, callee, free => callee free
  | _, _, _, _, _, .call ho ha hc hr, clean, _, callee, free => by
    obtain ⟨first, rest⟩ := List.append_eq_nil_iff.mp clean
    refine Calls.spans hr rest (fun free => ?_) free
    obtain ⟨passed, few⟩ := Passed.spans ha first free.2
    exact .call (callee free.1) ho passed hc few
  | _, _, _, _, _, .property hd hn hr, clean, _, callee, free =>
    Calls.spans hr clean (fun free => .property (callee free) hd hn) free

theorem Passed.spans : ∀ {a b es vs}, Passed a b es vs → vs = [] → Expr.AllLambdaFree es →
    Expr.SpansAll a b es ∧ es.length ≤ maxArity
  | _, _, _, _, .none, _, _ => ⟨⟨trivial, trivial, [], rfl, .nil⟩, Nat.zero_le _⟩
  | _, _, _, _, .some h, clean, free => by
    obtain ⟨spans, few⟩ := Arguments.spans h clean free
    rw [Nat.zero_add] at few
    exact ⟨spans, few⟩

theorem Arguments.spans : ∀ {count a b es vs}, Arguments count a b es vs → vs = [] →
    Expr.AllLambdaFree es → Expr.SpansAll a b es ∧ count + es.length ≤ maxArity
  | _, _, _, _, _, .last h _, clean, free => by
    obtain ⟨room, clean⟩ := List.append_eq_nil_iff.mp clean
    have whole := Expression.spans h clean free.1
    obtain ⟨u, eq, written⟩ := whole.written
    exact ⟨⟨⟨whole.stratified, trivial⟩, ⟨whole.fresh, trivial⟩, u, eq, written⟩,
      Dialect.room_of_clean (Dialect.clean_documented.mpr room) rfl⟩
  | _, _, _, _, _, @Arguments.more _ _ comma _ _ _ _ _ _ _ h hc others, clean, free => by
    obtain ⟨_, clean⟩ := List.append_eq_nil_iff.mp clean
    obtain ⟨first, second⟩ := List.append_eq_nil_iff.mp clean
    have whole := Expression.spans h first free.1
    obtain ⟨rest, few⟩ := Arguments.spans others second free.2
    obtain ⟨u, eq, written⟩ := whole.written
    obtain ⟨v, rfl, written'⟩ := rest.written
    refine ⟨⟨⟨whole.stratified, rest.stratified⟩, ⟨whole.fresh, rest.fresh⟩, ?_⟩, ?_⟩
    · refine ⟨u ++ comma :: v, by rw [eq]; simp, ?_⟩
      rw [Expr.yields_cons others.ne_nil]
      exact List.rel_append written (.cons (Expr.kind_of_isSymbol hc) written')
    · simp only [List.length_cons] at few ⊢
      omega

theorem Primary.spans : ∀ {a b e vs}, Primary a b e vs → vs = [] → e.LambdaFree → e.Spans 10 a b
  | _, _, _, _, .atom h, _, _ => .of_atom h
  | _, _, _, _, .group ho h hc, clean, free => .group ho (Expression.spans h clean free) hc

end

end Reading

/-! Reading and writing -/

/-- Whether only tokens in front of the end may stand in a place. -/
def Slot.Inner : Slot → Prop
  | .kept t => t.isEof = false
  | .kind k => k ≠ .eof

theorem Slot.Inner.isEof {x : Slot} {t : Token} (inner : x.Inner) (h : x.Fits t) :
    t.isEof = false := by
  cases x with
  | kept s =>
    cases h
    exact inner
  | kind k =>
    obtain ⟨kind, lexeme, line⟩ := t
    cases h
    cases kind with
    | eof => exact (inner rfl).elim
    | _ => rfl

theorem Slot.inner_symbol (s : Symbol) : (Slot.symbol s).Inner := by
  intro eq
  cases eq

namespace Expr

theorem inner_of_isIdentifier {t : Token} (h : t.isIdentifier = true) : (Slot.kept t).Inner :=
  Token.isIdentifier_elim h fun _ _ => rfl

theorem inner_of_isOperator {level : Level} {op : Token} (h : level.isOperator op = true) :
    (Slot.kept op).Inner := by
  obtain ⟨kind, lexeme, line⟩ := op
  cases kind with
  | eof => cases level <;> cases h
  | _ => exact rfl

mutual

/-- No end token is part of the text of a stratified tree. -/
theorem inner : ∀ e : Expr, e.Stratified → ∀ x ∈ e.yield, x.Inner
  | .literal value, _ => by
    refine List.forall_mem_singleton.mpr ?_
    cases value with
    | bool b => cases b <;> exact fun eq => by cases eq
    | _ => exact fun eq => by cases eq
  | .variable name _, h => List.forall_mem_singleton.mpr (inner_of_isIdentifier h)
  | .this keyword _, h =>
    List.forall_mem_singleton.mpr (Token.isKeyword_elim (p := Token.isEof) h fun _ _ => rfl)
  | .group e, h => by
    refine List.forall_mem_cons.mpr ⟨Slot.inner_symbol _, List.forall_mem_append.mpr ⟨inner e h, ?_⟩⟩
    exact List.forall_mem_singleton.mpr (Slot.inner_symbol _)
  | .unary op right, h => by
    refine List.forall_mem_cons.mpr ⟨?_, inner right h.2.2⟩
    rcases Bool.or_eq_true_iff.mp h.1 with bang | minus
    · exact Token.isSymbol_elim (p := Token.isEof) bang fun _ _ => rfl
    · exact Token.isSymbol_elim (p := Token.isEof) minus fun _ _ => rfl
  | .binary left op right, ⟨isBinary, _, _, h, h'⟩ => by
    obtain ⟨level, ho, _⟩ := isBinary.level
    refine List.forall_mem_append.mpr ⟨inner left h, List.forall_mem_cons.mpr ⟨?_, inner right h'⟩⟩
    exact inner_of_isOperator ho
  | .logical left op right, ⟨isLogical, _, _, h, h'⟩ => by
    obtain ⟨level, ho, _⟩ := isLogical.level
    refine List.forall_mem_append.mpr ⟨inner left h, List.forall_mem_cons.mpr ⟨?_, inner right h'⟩⟩
    exact inner_of_isOperator ho
  | .ternary condition whenTrue whenFalse, ⟨_, _, _, h, h', h''⟩ => by
    have behind := List.forall_mem_cons.mpr
      ⟨Slot.inner_symbol .colon, inner whenFalse h''⟩
    have branches := List.forall_mem_append.mpr ⟨inner whenTrue h', behind⟩
    exact List.forall_mem_append.mpr
      ⟨inner condition h, List.forall_mem_cons.mpr ⟨Slot.inner_symbol _, branches⟩⟩
  | .assign name value _, ⟨hn, h⟩ => by
    have behind := List.forall_mem_cons.mpr ⟨Slot.inner_symbol .equal, inner value h⟩
    exact List.forall_mem_cons.mpr ⟨inner_of_isIdentifier hn, behind⟩
  | .call callee paren arguments, ⟨_, hp, h, h'⟩ => by
    have closing : (Slot.kept paren).Inner :=
      Token.isSymbol_elim (p := Token.isEof) hp fun _ _ => rfl
    have behind := List.forall_mem_append.mpr
      ⟨inners arguments h', List.forall_mem_singleton.mpr closing⟩
    exact List.forall_mem_append.mpr
      ⟨inner callee h, List.forall_mem_cons.mpr ⟨Slot.inner_symbol _, behind⟩⟩
  | .property object name, ⟨_, hn, h⟩ => by
    have named := List.forall_mem_singleton.mpr (inner_of_isIdentifier hn)
    exact List.forall_mem_append.mpr
      ⟨inner object h, List.forall_mem_cons.mpr ⟨Slot.inner_symbol _, named⟩⟩
  | .setProperty object name value, ⟨_, hn, h, h'⟩ => by
    have behind := List.forall_mem_cons.mpr ⟨Slot.inner_symbol .equal, inner value h'⟩
    have named := List.forall_mem_cons.mpr ⟨inner_of_isIdentifier hn, behind⟩
    exact List.forall_mem_append.mpr
      ⟨inner object h, List.forall_mem_cons.mpr ⟨Slot.inner_symbol _, named⟩⟩
  | .lambda _, h => h.elim

theorem inners : ∀ es : List Expr, AllStratified es → ∀ x ∈ yields es, x.Inner
  | [], _ => fun _ mem => by cases mem
  | [e], h => inner e h.1
  | e :: e' :: es, h => by
    have behind := List.forall_mem_cons.mpr ⟨Slot.inner_symbol .comma, inners (e' :: es) h.2⟩
    exact List.forall_mem_append.mpr ⟨inner e h.1, behind⟩

end

/-- The text of a stratified tree stands in front of the end. -/
theorem WrittenAs.inner {e : Expr} {u : List Token} (h : e.WrittenAs u) (stratified : e.Stratified) :
    ∀ t ∈ u, t.isEof = false := by
  have each := Expr.inner e stratified
  unfold WrittenAs at h
  generalize e.yield = xs at h each
  induction h with
  | nil => exact fun _ mem => by cases mem
  | cons fits _ ih =>
    obtain ⟨first, others⟩ := List.forall_mem_cons.mp each
    exact List.forall_mem_cons.mpr ⟨first.isEof fits, ih others⟩

/-- Reading expressions and writing them out undo one another. A stratified tree is read from every text
of it, with a semicolon behind it or not; and an expression without lambdas is read from a text of it and
nothing else, and is stratified. -/
theorem reading_undoes_writing :
    (∀ (e : Expr) (u rest : List Token) (last : Token), e.Stratified → e.Fresh → e.WrittenAs u →
      Closes rest → last.isEof = true → Expr.ofTokens (u ++ rest ++ [last]) = .ok e) ∧
    (∀ (tokens : List Token) (e : Expr), Expr.ofTokens tokens = .ok e → e.LambdaFree →
      e.Stratified ∧ e.Fresh ∧ ∃ u rest, (Token.untilEof tokens).1 = u ++ rest ∧ Closes rest ∧
        e.WrittenAs u) := by
  constructor
  · intro e u rest last stratified fresh written closes ends
    have front : ∀ t ∈ u ++ rest, t.isEof = false := by
      refine List.forall_mem_append.mpr ⟨written.inner stratified, ?_⟩
      rcases closes with rfl | ⟨semicolon, hs, rfl⟩
      · exact fun _ mem => by cases mem
      · exact List.forall_mem_singleton.mpr (Token.isSymbol_elim (p := Token.isEof) hs fun _ _ => rfl)
    have stops : Stops (Token.continues 0) rest := by
      rcases closes with rfl | ⟨semicolon, hs, rfl⟩
      · exact stops_nil
      · exact .of_symbol hs fun _ _ => rfl
    have read : Expression (u ++ rest) rest e [] :=
      (reads e stratified fresh written).whole (Nat.zero_le _) (Nat.zero_le 8) stops
    refine Expression.parsed closes ?_
    rwa [Token.untilEof_append front ends]
  · intro tokens e ok free
    obtain ⟨rest, closes, read⟩ := Expression.of_ok ok
    have spans := read.spans rfl free
    obtain ⟨u, eq, written⟩ := spans.written
    exact ⟨spans.stratified, spans.fresh, u, rest, eq, closes, written⟩

/-- Of the two ways to take `a - b - c` the text is read as the one that is stratified, which takes
`a - b` first, and writing that out gives the text. -/
theorem reading_undoes_writing_difference :
    let name (s : String) : Token := ⟨.identifier, s, 1⟩
    let minus : Token := ⟨.symbol .minus, "-", 1⟩
    let text := [name "a", minus, name "b", minus, name "c"]
    let left := Expr.binary (.variable (name "a") none) minus (.variable (name "b") none)
    let e := Expr.binary left minus (.variable (name "c") none)
    e.Stratified ∧ e.Fresh ∧ e.WrittenAs text ∧ Expr.ofTokens (text ++ [] ++ [.eof 1]) = .ok e ∧
      e.LambdaFree ∧ ∃ u rest, text = u ++ rest ∧ Closes rest ∧ e.WrittenAs u := by
  intro name minus text left e
  have isBinary : minus.IsBinary := .inr (.inr (.inl rfl))
  have inner : left.Stratified := ⟨isBinary, by decide, by decide, rfl, rfl⟩
  have stratified : e.Stratified := ⟨isBinary, by decide, by decide, inner, rfl⟩
  have fresh : e.Fresh := ⟨⟨rfl, rfl⟩, rfl⟩
  have written : e.WrittenAs text :=
    .cons rfl (.cons rfl (.cons rfl (.cons rfl (.cons rfl .nil))))
  have free : e.LambdaFree := ⟨⟨trivial, trivial⟩, trivial⟩
  have ok := reading_undoes_writing.1 e text [] (.eof 1) stratified fresh written (.inl rfl) rfl
  exact ⟨stratified, fresh, written, ok, free, (reading_undoes_writing.2 _ e ok free).2.2⟩

end Expr

end LoxLang
