import LoxLang.Proofs.Syntax.Covering
import LoxLang.Proofs.Syntax.Precedence
/-!
Derivations are readings. What derives in a dialect is read to its end, whatever the derivation is:
the tokens of a rule are read in front of everything that does not continue them. What derives in the
documented dialect is read without faults.

A derivation need not be the one that readings follow. The body of a function without a name may end
in front of an `=` that a reading takes into the body, and an `else` may go to an outer `if` where a
reading gives it to the nearest one. So the tokens of an expression are read together with the
assignment behind it (`Assigned`), and those of a statement together with some of the alternatives
behind it (`Alternatives`).
-/
namespace LoxLang

open Ebnf Dialect

namespace Reading

open Grammar

/-- From `a` to `b` there is a reading, with some tree and with faults that the dialect allows. -/
def Reads (d : Dialect) {α : Type} (reading : List Token → List Token → α → List SyntaxError → Prop)
    (a b : List Token) : Prop :=
  ∃ x vs, d.Clean vs ∧ reading a b x vs

/-- Behind an expression an assignment to it goes from `b` to `c`, if anything may be assigned to, or
nothing does. -/
inductive Assigned (d : Dialect) : List Token → List Token → Prop where
  | nothing {b : List Token} (stops : Stops (Token.isSymbol .equal) b) : Assigned d b b
  | value {equals : Token} {a c : List Token} (anything : d = relaxed)
    (he : equals.isSymbol .equal = true) (h : Reads d Expression a c) : Assigned d (equals :: a) c

/-- At `b` some words `else` follow, each with its statement, behind which are the places `bs`; at the
last of them nothing like that follows. -/
inductive Alternatives (d : Dialect) : List Token → List (List Token) → Prop where
  | none {b : List Token} (stops : Stops (Token.isKeyword .else) b) : Alternatives d b []
  | more {other : Token} {a b : List Token} {bs : List (List Token)}
    (he : other.isKeyword .else = true) (h : Reads d Statement a b) (others : Alternatives d b bs) :
    Alternatives d (other :: a) (b :: bs)

/-- In front of alternatives the statement is read together with some of them, up to one of the places
behind them. -/
def ReadsStatement (d : Dialect) (u : List Token) : Prop :=
  ∀ b bs, Alternatives d b bs → ∃ b' bs', b' :: bs' <:+ b :: bs ∧ Reads d Statement (u ++ b) b'

/-- In front of an assignment the expression is read together with it. -/
def ReadsExpression (d : Dialect) (u : List Token) : Prop :=
  ∀ b c, Stops (Token.continues 1) b → Assigned d b c → Reads d Expression (u ++ b) c

/-- From `b` to `c` calls and properties make an expression that satisfies `P` out of any. -/
def ReadsCalls (d : Dialect) (P : Expr → Prop) (b c : List Token) : Prop :=
  ∀ callee, ∃ e vs, d.Clean vs ∧ P e ∧ Calls callee b c e vs

/-- In front of calls and properties the expression is read together with them. -/
def ReadsCallee (d : Dialect) (u : List Token) : Prop :=
  ∀ P b c, ReadsCalls d P b c → ∃ e vs, d.Clean vs ∧ P e ∧ Unary (u ++ b) c e vs

/-- The tokens of a rule are read in front of what does not continue them. -/
def Readable (d : Dialect) : Nonterminal → List Token → Prop
  | .program, u => ∃ front last, u = front ++ [last] ∧ last.isEof = true ∧
      ∃ program vs, d.Clean vs ∧ Program front program vs
  | .declaration, u | .classDecl, u | .funDecl, u =>
    ∀ b, Stops (Token.isKeyword .else) b → Reads d Declaration (u ++ b) b
  | .function, u => ∀ b, Reads d Code (u ++ b) b
  | .varDecl, u => ∃ word a, u = word :: a ∧ word.isKeyword .var = true ∧
      ∀ b, Reads d Variables (a ++ b) b
  | .varItem, u => ∀ b, Stops (Token.continues 0) b → Reads d Item (u ++ b) b
  | .statement, u | .forStmt, u | .ifStmt, u | .printStmt, u | .returnStmt, u | .whileStmt, u =>
    ReadsStatement d u
  | .exprStmt, u => ∃ a semicolon, u = a ++ [semicolon] ∧
      semicolon.isSymbol .semicolon = true ∧
        ∀ b, Reads d Expression (a ++ semicolon :: b) (semicolon :: b)
  | .block, u => ∃ opened a, u = opened :: a ∧ opened.isSymbol .leftBrace = true ∧
      ∀ b, Reads d Block (a ++ b) b
  | .expression, u | .assignment, u | .lambda, u => ReadsExpression d u
  | .ternary, u => ∀ b, Stops (Token.continues 1) b → Reads d Ternary (u ++ b) b
  | .operation level, u =>
    ∀ b, Stops (Token.continues level.strength) b → Reads d (Operation level) (u ++ b) b
  | .unary, u => ∀ b, Stops (Token.continues 8) b → Reads d Unary (u ++ b) b
  | .call, u => ReadsCallee d u
  | .primary, u => ∀ b, Reads d Primary (u ++ b) b
  | .parameters, u => ∀ b, Stops (Token.isSymbol .comma) b → Reads d (Names 0) (u ++ b) b
  | .arguments, u => ∀ b, Stops (Token.continues 0) b → Stops (Token.isSymbol .comma) b →
      Reads d (Arguments 0) (u ++ b) b

variable {d : Dialect} {u b c : List Token} {t : Token}

/-! Expressions -/

theorem Expression.stops_equal : ∀ {a b e vs}, Expression a b e vs → Stops (Token.isSymbol .equal) b
  | _, _, _, _, .plain _ stops => stops
  | _, _, _, _, .assign _ _ hv => hv.stops_equal

/-- What can stand left of `=` is read together with the assignment behind it. -/
theorem Lambda.assigned {a : List Token} (h : Reads d Lambda a b) (behind : Assigned d b c) :
    Reads d Expression a c := by
  obtain ⟨e, vs, clean, lambda⟩ := h
  cases behind with
  | nothing stops => exact ⟨_, _, clean, .plain lambda stops⟩
  | value anything he value =>
    obtain ⟨e', ws, _, value⟩ := value
    subst anything
    exact ⟨_, _, clean_relaxed, .assign lambda he value⟩

/-- In front of what does not continue it, an expression is read alone. -/
theorem ReadsExpression.alone (h : ReadsExpression d u) (stops : Stops (Token.continues 0) b) :
    Reads d Expression (u ++ b) b :=
  h b b (stops.tighter (Nat.zero_le 1)) (.nothing stops.equal)

/-- In front of a symbol that closes the part around it, an expression is read alone. -/
theorem ReadsExpression.before {s : Symbol} (h : ReadsExpression d u) (ht : t.isSymbol s = true)
    (none : ∀ lexeme line, Token.continues 0 ⟨.symbol s, lexeme, line⟩ = false) :
    Reads d Expression (u ++ t :: b) (t :: b) :=
  h.alone (.of_symbol ht none)

/-- An expression as tight as a call is read in front of `=`, which continues none that is tighter
than an assignment. -/
theorem Lambda.of_unary {equals : Token} {a b : List Token} {e : Expr} {vs : List SyntaxError}
    (h : Unary a (equals :: b) e vs) (he : equals.isSymbol .equal = true) :
    Lambda a (equals :: b) e vs := by
  have unary : At 8 a (equals :: b) e vs := h
  have ternary : At 1 a (equals :: b) e vs :=
    unary.loosen (Nat.le_refl 8) (by decide) (.of_equal he Nat.zero_lt_one)
  exact .ternary ternary

theorem atom_of_isIdentifier (h : t.isIdentifier = true) :
    atom? t = some (.variable t none) := by
  obtain ⟨kind, lexeme, line⟩ := t
  cases kind with
  | identifier => rfl
  | _ => cases h

/-- What may stand left of `=` makes an assignment out of the value that stands right of it. -/
theorem readable_target {a : List Token} (h : d.target.Holds (Readable d) u)
    (value : Reads d Expression a c) : Reads d Expression (u ++ a) c := by
  cases d with
  | relaxed =>
    obtain ⟨l, _, target, ⟨equals, he, rfl⟩, rfl⟩ := h
    have read := target (equals :: a) c (.of_equal he Nat.zero_lt_one) (.value rfl he value)
    rwa [List.append_assoc]
  | documented =>
    obtain ⟨v, _, object, ⟨_, _, ⟨name, hn, rfl⟩, ⟨equals, he, rfl⟩, rfl⟩, rfl⟩ := h
    obtain ⟨e, ws, clean, value⟩ := value
    have callless : Stops (Token.isSymbol .leftParen) (equals :: a) :=
      stops_cons.mpr (Token.isSymbol_elim he fun _ _ => rfl)
    have dotless : Stops (Token.isSymbol .dot) (equals :: a) :=
      stops_cons.mpr (Token.isSymbol_elim he fun _ _ => rfl)
    rcases object with rfl | ⟨w, _, callee, ⟨dot, hd, rfl⟩, rfl⟩
    · have target : Lambda (name :: equals :: a) (equals :: a) (.variable name none) [] :=
        .of_unary (.call (.atom (atom_of_isIdentifier hn)) (.done callless dotless)) he
      exact ⟨_, _, clean.append clean_nil, .assign target he value⟩
    · -- Behind the object stands its property, and nothing else in front of `=`.
      have property : ReadsCalls documented (fun e => ∃ object, e = .property object name)
          (dot :: name :: equals :: a) (equals :: a) := fun callee =>
        ⟨_, _, clean_nil, ⟨callee, rfl⟩, .property hd hn (.done callless dotless)⟩
      obtain ⟨_, vs, first, ⟨object, rfl⟩, target⟩ := callee _ _ _ property
      have whole : w ++ [dot] ++ ([name] ++ [equals]) ++ a = w ++ dot :: name :: equals :: a := by
        simp
      rw [whole]
      exact ⟨_, _, first.append (clean.append clean_nil), .assign (.of_unary target he) he value⟩

theorem readable_assignment (h : (d.rules .assignment).Holds (Readable d) u) :
    ReadsExpression d u := by
  rcases h with ⟨l, w, target, value, rfl⟩ | h
  · intro b c stops behind
    have value : Reads d Expression (w ++ b) c := value b c stops behind
    rw [List.append_assoc]
    exact readable_target target value
  · exact h

theorem readable_maybe (h : (Ebnf.opt (.rule .expression)).Holds (Readable d) u)
    (stops : Stops (Token.continues 0) b) : Reads d Maybe (u ++ b) b := by
  rcases h with rfl | h
  · exact ⟨none, [], clean_nil, .missing⟩
  · obtain ⟨e, vs, clean, read⟩ := ReadsExpression.alone h stops
    exact ⟨some e, vs, clean, .given read⟩

theorem readable_params (h : (Ebnf.opt (.rule .parameters)).Holds (Readable d) u)
    (ht : t.isSymbol .rightParen = true) : Reads d Params (u ++ t :: b) (t :: b) := by
  rcases h with rfl | h
  · exact ⟨[], [], clean_nil, .none⟩
  · have stops : Stops (Token.isSymbol .comma) (t :: b) :=
      stops_cons.mpr (Token.isSymbol_elim ht fun _ _ => rfl)
    obtain ⟨names, vs, clean, read⟩ := h (t :: b) stops
    exact ⟨names, vs, clean, .some read⟩

/-- The body of a function without a name takes the assignment behind it, unless it is a block. -/
theorem readable_lambdaBody
    (h : (Ebnf.alt (.rule .block) d.bodyExpression).Holds (Readable d) u)
    (stops : Stops (Token.continues 1) b) (behind : Assigned d b c) :
    ∃ b', Reads d LambdaBody (u ++ b) b' ∧ Assigned d b' c := by
  -- An expression with or without a word in front of it.
  have value {w : List Token} (value : ReadsExpression d w) :
      ∃ first a e vs, w ++ b = first :: a ∧ d.Clean vs ∧ Expression (first :: a) c e vs ∧
        Assigned d c c := by
    obtain ⟨e, vs, clean, read⟩ := value b c stops behind
    have closed : Assigned d c c := .nothing read.stops_equal
    obtain ⟨first, a, eq, _⟩ := read.begins
    rw [eq] at read
    exact ⟨first, a, e, vs, eq, clean, read, closed⟩
  rcases h with ⟨brace, a, rfl, hb, block⟩ | body
  · obtain ⟨ss, vs, clean, block⟩ := block b
    exact ⟨b, ⟨ss, vs, clean, .block hb block⟩, behind⟩
  · cases d with
    | documented =>
      obtain ⟨first, a, e, vs, eq, clean, read, closed⟩ := value body
      rw [eq]
      exact ⟨c, ⟨_, _, clean, .expression read⟩, closed⟩
    | relaxed =>
      obtain ⟨r, w, returns, body, rfl⟩ := body
      obtain ⟨first, a, e, vs, eq, clean, read, closed⟩ := value body
      rw [List.append_assoc, eq]
      rcases returns with rfl | ⟨returning, hr, rfl⟩
      · exact ⟨c, ⟨_, _, clean, .expression read⟩, closed⟩
      · exact ⟨c, ⟨_, _, clean_relaxed, .returning hr read⟩, closed⟩

theorem readable_lambda (h : (d.rules .lambda).Holds (Readable d) u) : ReadsExpression d u := by
  intro b c stops behind
  rcases h with ⟨_, _, ⟨keyword, hk, rfl⟩, ⟨_, _, ⟨opened, ho, rfl⟩, ⟨p, _, params, ⟨_, body,
    ⟨closed, hc, rfl⟩, rest, rfl⟩, rfl⟩, rfl⟩, rfl⟩ | ternary
  · obtain ⟨b', ⟨ss, ws, second, rest⟩, behind⟩ := readable_lambdaBody rest stops behind
    obtain ⟨names, vs, first, params⟩ := readable_params (b := body ++ b) params hc
    have whole : [keyword] ++ ([opened] ++ (p ++ ([closed] ++ body))) ++ b =
        keyword :: opened :: (p ++ closed :: (body ++ b)) := by simp
    rw [whole]
    have function : Reads d Lambda (keyword :: opened :: (p ++ closed :: (body ++ b))) b' :=
      ⟨_, _, first.append second, .function hk ho params hc rest⟩
    exact Lambda.assigned function behind
  · obtain ⟨e, vs, clean, read⟩ := ternary b stops
    exact Lambda.assigned ⟨e, vs, clean, .ternary read⟩ behind

theorem readable_ternary (h : (d.rules .ternary).Holds (Readable d) u) :
    Readable d .ternary u := by
  intro b stops
  obtain ⟨v, _, condition, rest, rfl⟩ := h
  rcases rest with rfl | ⟨_, _, ⟨question, hq, rfl⟩, ⟨x, _, whenTrue, ⟨_, y, ⟨colon, hc, rfl⟩,
    whenFalse, rfl⟩, rfl⟩, rfl⟩
  · obtain ⟨e, vs, clean, read⟩ := condition b (stops.tighter (by decide))
    rw [List.append_nil]
    exact ⟨e, vs, clean, .plain read (stops.question (Nat.le_refl 1))⟩
  · have behind : Stops (Token.continues 2) (question :: (x ++ colon :: (y ++ b))) :=
      .of_question hq (by decide)
    obtain ⟨e, vs, clean, first⟩ := condition _ behind
    obtain ⟨e', ws, clean', second⟩ := whenTrue (colon :: (y ++ b)) (.of_symbol hc fun _ _ => rfl)
    obtain ⟨e'', xs, clean'', third⟩ := whenFalse b stops
    have whole : v ++ ([question] ++ (x ++ ([colon] ++ y))) ++ b =
        v ++ question :: (x ++ colon :: (y ++ b)) := by simp
    rw [whole]
    exact ⟨_, _, clean.append (clean'.append clean''), .choice first hq second hc third⟩

theorem isOperator_of_holds {level : Level} {sem : Nonterminal → List Token → Prop}
    (h : level.operators.Holds sem u) : ∃ op, level.isOperator op = true ∧ u = [op] := by
  have symbol {s : Symbol} (is : level.isOperator ⟨.symbol s, "", 0⟩ = true)
      (h : (Ebnf.symbol s : Ebnf Nonterminal).Holds sem u) :
      ∃ op, level.isOperator op = true ∧ u = [op] := by
    obtain ⟨op, ho, rfl⟩ := h
    refine ⟨op, ?_, rfl⟩
    exact Token.isSymbol_elim ho fun _ _ => by cases level <;> exact is
  have keyword {k : Keyword} (is : level.isOperator ⟨.keyword k, "", 0⟩ = true)
      (h : (Ebnf.keyword k : Ebnf Nonterminal).Holds sem u) :
      ∃ op, level.isOperator op = true ∧ u = [op] := by
    obtain ⟨op, ho, rfl⟩ := h
    refine ⟨op, ?_, rfl⟩
    exact Token.isKeyword_elim ho fun _ _ => by cases level <;> cases k <;> exact is
  cases level with
  | disjunction => exact keyword rfl h
  | conjunction => exact keyword rfl h
  | equality => rcases h with h | h <;> exact symbol rfl h
  | comparison => rcases h with h | h | h | h <;> exact symbol rfl h
  | term => rcases h with h | h <;> exact symbol rfl h
  | factor => rcases h with h | h | h <;> exact symbol rfl h

theorem readable_operand {level : Level} (h : Readable d level.operands u)
    (stops : Stops (Token.continues (level.strength + 1)) b) :
    Reads d (Operand level) (u ++ b) b := by
  cases tighter : level.tighter? with
  | none =>
    rw [operands_of_tightest tighter] at h
    rw [Level.strength_tightest tighter] at stops
    obtain ⟨e, vs, clean, read⟩ := h b stops
    exact ⟨e, vs, clean, .unary tighter read⟩
  | some next =>
    rw [operands_of_tighter tighter] at h
    rw [← Level.strength_tighter tighter] at stops
    obtain ⟨e, vs, clean, read⟩ := h b stops
    exact ⟨e, vs, clean, .tighter tighter read⟩

/-- An operator of a level with its right operand. -/
def Joins (d : Dialect) (level : Level) (u : List Token) : Prop :=
  (Ebnf.seq level.operators (.rule level.operands)).Holds (Readable d) u

/-- Behind an operand there is an operator of its level, or what does not continue it. -/
theorem stops_joins {level : Level} {us : List (List Token)} (each : ∀ v ∈ us, Joins d level v)
    (stops : Stops (Token.continues level.strength) b) :
    Stops (Token.continues (level.strength + 1)) (us.flatten ++ b) := by
  cases us with
  | nil => exact stops.tighter (Nat.le_succ _)
  | cons v vs =>
    obtain ⟨_, w, operator, _, rfl⟩ := each v List.mem_cons_self
    obtain ⟨op, ho, rfl⟩ := isOperator_of_holds operator
    exact .of_operator ho (Nat.lt_succ_self _)

theorem readable_operators {level : Level} {us : List (List Token)}
    (each : ∀ v ∈ us, Joins d level v) (stops : Stops (Token.continues level.strength) b)
    (left : Expr) : Reads d (Operators level left) (us.flatten ++ b) b := by
  induction us generalizing left with
  | nil => exact ⟨left, [], clean_nil, .done (stops.operator (Nat.le_refl _))⟩
  | cons v vs ih =>
    have others : ∀ w ∈ vs, Joins d level w := fun w mem => each w (List.mem_cons_of_mem v mem)
    obtain ⟨_, w, operator, right, rfl⟩ := each v List.mem_cons_self
    obtain ⟨op, ho, rfl⟩ := isOperator_of_holds operator
    obtain ⟨e, vs', clean, operand⟩ := readable_operand right (stops_joins others stops)
    -- What the operator joins is the left operand of the operators behind it.
    obtain ⟨e', ws, clean', rest⟩ := ih others (level.join left op e)
    have whole : (([op] ++ w) :: vs).flatten ++ b = op :: (w ++ (vs.flatten ++ b)) := by simp
    rw [whole]
    exact ⟨e', vs' ++ ws, clean.append clean', .more ho operand rest⟩

theorem readable_operation {level : Level}
    (h : (d.rules (.operation level)).Holds (Readable d) u) :
    Readable d (.operation level) u := by
  intro b stops
  obtain ⟨v, _, first, ⟨us, each, rfl⟩, rfl⟩ := h
  obtain ⟨e, vs, clean, operand⟩ := readable_operand first (stops_joins each stops)
  obtain ⟨e', ws, clean', rest⟩ := readable_operators each stops e
  rw [List.append_assoc]
  exact ⟨e', vs ++ ws, clean.append clean', .chain operand rest⟩

theorem readable_unary (h : (d.rules .unary).Holds (Readable d) u) : Readable d .unary u := by
  intro b stops
  rcases h with ⟨_, w, operator, right, rfl⟩ | callee
  · obtain ⟨e, vs, clean, read⟩ := right b stops
    rcases operator with ⟨op, ho, rfl⟩ | ⟨op, ho, rfl⟩
    · exact ⟨_, _, clean, .operator (by simp [isUnaryOperator, ho]) read⟩
    · exact ⟨_, _, clean, .operator (by simp [isUnaryOperator, ho]) read⟩
  -- With nothing behind it what could be called is an operand.
  · have nothing : ReadsCalls d (fun _ => True) b b := fun callee =>
      ⟨callee, [], clean_nil, trivial, .done stops.call stops.property⟩
    obtain ⟨e, vs, clean, _, read⟩ := callee _ b b nothing
    exact ⟨e, vs, clean, read⟩

theorem readable_passed (h : (Ebnf.opt (.rule .arguments)).Holds (Readable d) u)
    (ht : t.isSymbol .rightParen = true) : Reads d Passed (u ++ t :: b) (t :: b) := by
  rcases h with rfl | h
  · exact ⟨[], [], clean_nil, .none⟩
  · have stops : Stops (Token.isSymbol .comma) (t :: b) :=
      stops_cons.mpr (Token.isSymbol_elim ht fun _ _ => rfl)
    obtain ⟨es, vs, clean, read⟩ := h (t :: b) (.of_symbol ht fun _ _ => rfl) stops
    exact ⟨es, vs, clean, .some read⟩

/-- A call or a property. -/
def Extends (d : Dialect) (u : List Token) : Prop :=
  (Ebnf.alt (inOrder [symbol .leftParen, .opt (.rule .arguments)] (symbol .rightParen))
    (.seq (symbol .dot) name)).Holds (Readable d) u

theorem readable_calls {P : Expr → Prop} {us : List (List Token)} (each : ∀ v ∈ us, Extends d v)
    (behind : ReadsCalls d P b c) : ReadsCalls d P (us.flatten ++ b) c := by
  induction us with
  | nil => exact behind
  | cons v vs ih =>
    have ih := ih fun w mem => each w (List.mem_cons_of_mem v mem)
    -- The calls behind this one are read whatever it makes of the callee.
    intro callee
    rcases each v List.mem_cons_self with ⟨_, _, ⟨opened, ho, rfl⟩, ⟨w, _, passed, ⟨closed, hc,
      rfl⟩, rfl⟩, rfl⟩ | ⟨_, _, ⟨dot, hd, rfl⟩, ⟨name, hn, rfl⟩, rfl⟩
    · obtain ⟨es, vs', clean, passed⟩ := readable_passed (b := vs.flatten ++ b) passed hc
      obtain ⟨e, ws, clean', made, rest⟩ := ih (.call callee closed es)
      have whole : (([opened] ++ (w ++ [closed])) :: vs).flatten ++ b =
          opened :: (w ++ closed :: (vs.flatten ++ b)) := by simp
      rw [whole]
      exact ⟨e, vs' ++ ws, clean.append clean', made, .call ho passed hc rest⟩
    · obtain ⟨e, ws, clean, made, rest⟩ := ih (.property callee name)
      exact ⟨e, ws, clean, made, .property hd hn rest⟩

theorem readable_call (h : (d.rules .call).Holds (Readable d) u) : ReadsCallee d u := by
  intro P b c behind
  obtain ⟨v, _, primary, ⟨us, each, rfl⟩, rfl⟩ := h
  obtain ⟨callee, vs, clean, primary⟩ := primary (us.flatten ++ b)
  obtain ⟨e, ws, clean', made, rest⟩ := readable_calls each behind callee
  rw [List.append_assoc]
  exact ⟨e, vs ++ ws, clean.append clean', made, .call primary rest⟩

theorem readable_atom (h : (atom? t).isSome = true) : Reads d Primary ([t] ++ b) b := by
  obtain ⟨e, he⟩ := Option.isSome_iff_exists.mp h
  exact ⟨e, [], clean_nil, .atom he⟩

theorem atom_isSome_of_isNumber (h : t.isNumber = true) : (atom? t).isSome = true := by
  obtain ⟨kind, lexeme, line⟩ := t
  cases kind with
  | number x => rfl
  | _ => cases h

theorem atom_isSome_of_isString (h : t.isString = true) : (atom? t).isSome = true := by
  obtain ⟨kind, lexeme, line⟩ := t
  cases kind with
  | string s => rfl
  | _ => cases h

theorem readable_primary (h : (d.rules .primary).Holds (Readable d) u) :
    Readable d .primary u := by
  intro b
  rcases h with ⟨t, ht, rfl⟩ | ⟨t, ht, rfl⟩ | ⟨t, ht, rfl⟩ | ⟨t, ht, rfl⟩ | ⟨t, ht, rfl⟩ |
    ⟨t, ht, rfl⟩ | ⟨t, ht, rfl⟩ | ⟨_, _, ⟨opened, ho, rfl⟩, ⟨w, _, inner, ⟨closed, hc, rfl⟩, rfl⟩,
      rfl⟩
  · exact readable_atom (atom_isSome_of_isNumber ht)
  · exact readable_atom (atom_isSome_of_isString ht)
  · exact readable_atom (Token.isKeyword_elim ht (p := fun t => (atom? t).isSome) fun _ _ => rfl)
  · exact readable_atom (Token.isKeyword_elim ht (p := fun t => (atom? t).isSome) fun _ _ => rfl)
  · exact readable_atom (Token.isKeyword_elim ht (p := fun t => (atom? t).isSome) fun _ _ => rfl)
  · exact readable_atom (Token.isKeyword_elim ht (p := fun t => (atom? t).isSome) fun _ _ => rfl)
  · exact readable_atom (Option.isSome_of_eq_some (atom_of_isIdentifier ht))
  · obtain ⟨e, vs, clean, read⟩ := ReadsExpression.before (b := b) inner hc fun _ _ => rfl
    have whole : [opened] ++ (w ++ [closed]) ++ b = opened :: (w ++ closed :: b) := by simp
    rw [whole]
    exact ⟨_, _, clean, .group ho read hc⟩

/-! Names and arguments divided by commas -/

def Divides (d : Dialect) (e : Ebnf Nonterminal) (u : List Token) : Prop :=
  (Ebnf.seq (symbol .comma) e).Holds (Readable d) u

/-- What is divided by commas is a first one and others, in the documented dialect not too many. -/
theorem holds_divided {e : Ebnf Nonterminal} (h : (d.divided e).Holds (Readable d) u) :
    ∃ v, ∃ us : List (List Token), e.Holds (Readable d) v ∧ (∀ w ∈ us, Divides d e w) ∧
      (d = documented → us.length < maxArity) ∧ u = v ++ us.flatten := by
  cases d with
  | documented =>
    obtain ⟨v, _, first, ⟨us, few, each, rfl⟩, rfl⟩ := h
    exact ⟨v, us, first, each, fun _ => Nat.lt_of_le_of_lt few (by decide), rfl⟩
  | relaxed =>
    obtain ⟨v, _, first, ⟨us, each, rfl⟩, rfl⟩ := h
    have room : relaxed = documented → us.length < maxArity := fun eq => by cases eq
    exact ⟨v, us, first, each, room, rfl⟩

theorem readable_names {us : List (List Token)} (each : ∀ v ∈ us, Divides d name v)
    (stops : Stops (Token.isSymbol .comma) b) {first : Token} (hf : first.isIdentifier = true)
    (count : Nat) (room : d = documented → count + us.length < maxArity) :
    Reads d (Names count) (first :: (us.flatten ++ b)) b := by
  have one : d.Clean (excess .tooManyParams count first) :=
    clean_excess fun eq => Nat.lt_of_le_of_lt (Nat.le_add_right _ _) (room eq)
  induction us generalizing first count with
  | nil => exact ⟨_, _, one, .last hf stops⟩
  | cons v vs ih =>
    have room' : d = documented → count + 1 + vs.length < maxArity := fun eq => by
      have := room eq
      rw [List.length_cons] at this
      omega
    obtain ⟨_, _, ⟨comma, hc, rfl⟩, ⟨next, hn, rfl⟩, rfl⟩ := each v List.mem_cons_self
    have two : d.Clean (excess .tooManyParams (count + 1) next) :=
      clean_excess fun eq => Nat.lt_of_le_of_lt (Nat.le_add_right _ _) (room' eq)
    obtain ⟨names, ws, clean, others⟩ :=
      ih (fun w mem => each w (List.mem_cons_of_mem _ mem)) hn (count + 1) room' two
    exact ⟨_, _, one.append clean, .more hf hc others⟩

theorem readable_parameters (h : (d.rules .parameters).Holds (Readable d) u) :
    Readable d .parameters u := by
  intro b stops
  obtain ⟨_, us, ⟨first, hf, rfl⟩, each, room, rfl⟩ := holds_divided h
  refine readable_names each stops hf 0 ?_
  rwa [Nat.zero_add]

theorem readable_moreArguments {us : List (List Token)}
    (each : ∀ v ∈ us, Divides d (.rule .expression) v) (stops : Stops (Token.continues 0) b)
    (noComma : Stops (Token.isSymbol .comma) b) {v : List Token} (first : ReadsExpression d v)
    (count : Nat) (room : d = documented → count + us.length < maxArity) :
    Reads d (Arguments count) (v ++ (us.flatten ++ b)) b := by
  have one (t : Token) : d.Clean (excess .tooManyArguments count t) :=
    clean_excess fun eq => Nat.lt_of_le_of_lt (Nat.le_add_right _ _) (room eq)
  induction us generalizing v count with
  | nil =>
    obtain ⟨e, vs, clean, read⟩ := first.alone stops
    obtain ⟨t, a, eq, _⟩ := read.begins
    rw [eq] at read
    rw [List.flatten_nil, List.nil_append, eq]
    exact ⟨_, _, (one t).append clean, .last read noComma⟩
  | cons w ws ih =>
    have room' : d = documented → count + 1 + ws.length < maxArity := fun eq => by
      have := room eq
      rw [List.length_cons] at this
      omega
    have two (t : Token) : d.Clean (excess .tooManyArguments (count + 1) t) :=
      clean_excess fun eq => Nat.lt_of_le_of_lt (Nat.le_add_right _ _) (room' eq)
    obtain ⟨_, next, ⟨comma, hc, rfl⟩, second, rfl⟩ := each w List.mem_cons_self
    obtain ⟨es, xs, clean', others⟩ :=
      ih (fun w mem => each w (List.mem_cons_of_mem _ mem)) second (count + 1) room' two
    obtain ⟨e, vs, clean, read⟩ := first.before (b := next ++ (ws.flatten ++ b)) hc fun _ _ => rfl
    obtain ⟨t, a, eq, _⟩ := read.begins
    rw [eq] at read
    have whole : v ++ ((([comma] ++ next) :: ws).flatten ++ b) = t :: a := by
      rw [← eq]
      simp
    rw [whole]
    exact ⟨_, _, (one t).append (clean.append clean'), .more read hc others⟩

theorem readable_arguments (h : (d.rules .arguments).Holds (Readable d) u) :
    Readable d .arguments u := by
  intro b stops noComma
  obtain ⟨v, us, first, each, room, rfl⟩ := holds_divided h
  rw [List.append_assoc]
  refine readable_moreArguments each stops noComma first 0 ?_
  rwa [Nat.zero_add]

/-! Statements -/

theorem Alternatives.suffix {b b' : List Token} {bs bs' : List (List Token)}
    (h : Alternatives d b bs) (sub : b' :: bs' <:+ b :: bs) : Alternatives d b' bs' := by
  induction h with
  | none stops =>
    rcases List.suffix_cons_iff.mp sub with same | empty
    · cases same
      exact .none stops
    · cases List.suffix_nil.mp empty
  | more he first others ih =>
    rcases List.suffix_cons_iff.mp sub with same | sub
    · cases same
      exact .more he first others
    · exact ih sub

/-- In front of anything but `else` a statement is read alone. -/
theorem ReadsStatement.alone (h : ReadsStatement d u) (stops : Stops (Token.isKeyword .else) b) :
    Reads d Statement (u ++ b) b := by
  obtain ⟨b', bs', sub, read⟩ := h b [] (.none stops)
  rcases List.suffix_cons_iff.mp sub with same | empty
  · cases same
    exact read
  · cases List.suffix_nil.mp empty

/-- A statement that ends with a token of its own is read alone. -/
theorem ReadsStatement.of_alone (h : ∀ b, Reads d Statement (u ++ b) b) : ReadsStatement d u :=
  fun b bs _ => ⟨b, bs, List.suffix_rfl, h b⟩

/-- A statement that ends with a statement is read together with what that is read with. -/
theorem ReadsStatement.of_tail {v w : List Token} (h : ReadsStatement d w)
    (whole : ∀ b b', Reads d Statement (w ++ b) b' → Reads d Statement (v ++ (w ++ b)) b') :
    ReadsStatement d (v ++ w) := by
  intro b bs alternatives
  obtain ⟨b', bs', sub, read⟩ := h b bs alternatives
  rw [List.append_assoc]
  exact ⟨b', bs', sub, whole b b' read⟩

theorem readable_exprStmt (h : (d.rules .exprStmt).Holds (Readable d) u) :
    Readable d .exprStmt u := by
  obtain ⟨a, _, value, ⟨semicolon, hs, rfl⟩, rfl⟩ := h
  exact ⟨a, semicolon, rfl, hs, fun b => ReadsExpression.before value hs fun _ _ => rfl⟩

theorem readable_initial
    (h : (oneOf [.rule .varDecl, .rule .exprStmt] (symbol .semicolon)).Holds (Readable d) u) :
    Reads d Initial (u ++ b) b := by
  rcases h with ⟨word, a, rfl, hw, declared⟩ | ⟨a, semicolon, rfl, hs, value⟩ |
    ⟨semicolon, hs, rfl⟩
  · obtain ⟨s, vs, clean, read⟩ := declared b
    exact ⟨_, _, clean, .ofVariables hw read⟩
  · obtain ⟨e, vs, clean, read⟩ := value b
    rw [List.append_assoc]
    exact ⟨_, _, clean, .ofExpression read hs⟩
  · exact ⟨_, _, clean_nil, .none hs⟩

theorem readable_forStmt (h : (d.rules .forStmt).Holds (Readable d) u) : ReadsStatement d u := by
  obtain ⟨_, _, ⟨word, hw, rfl⟩, ⟨_, _, ⟨opened, ho, rfl⟩, ⟨i, _, initial, ⟨x, _, condition, ⟨_, _,
    ⟨semicolon, hs, rfl⟩, ⟨y, _, increment, ⟨_, w, ⟨closed, hc, rfl⟩, body, rfl⟩, rfl⟩, rfl⟩, rfl⟩,
    rfl⟩, rfl⟩, rfl⟩ := h
  have head : [word] ++ ([opened] ++ (i ++ (x ++ ([semicolon] ++ (y ++ ([closed] ++ w)))))) =
      (word :: opened :: (i ++ (x ++ semicolon :: (y ++ [closed])))) ++ w := by simp
  rw [head]
  refine ReadsStatement.of_tail body fun b b' read => ?_
  have whole : (word :: opened :: (i ++ (x ++ semicolon :: (y ++ [closed])))) ++ (w ++ b) =
      word :: opened :: (i ++ (x ++ semicolon :: (y ++ closed :: (w ++ b)))) := by simp
  rw [whole]
  obtain ⟨_, _, clean, initial⟩ :=
    readable_initial (b := x ++ semicolon :: (y ++ closed :: (w ++ b))) initial
  obtain ⟨_, _, clean', condition⟩ := readable_maybe condition
    (.of_symbol (a := y ++ closed :: (w ++ b)) hs fun _ _ => rfl)
  obtain ⟨_, _, clean'', increment⟩ := readable_maybe increment
    (.of_symbol (a := w ++ b) hc fun _ _ => rfl)
  obtain ⟨_, _, clean''', body⟩ := read
  exact ⟨_, _, clean.append (clean'.append (clean''.append clean''')),
    .ofFor hw ho initial condition hs increment hc body⟩

theorem readable_condition {word opened closed : Token} {x w : List Token}
    (hw : word.isKeyword .if = true) (ho : opened.isSymbol .leftParen = true)
    (condition : ReadsExpression d x) (hc : closed.isSymbol .rightParen = true)
    (whenTrue : Reads d Statement w b) {bs : List (List Token)} (alternatives : Alternatives d b bs) :
    ∃ b' bs', b' :: bs' <:+ b :: bs ∧
      Reads d Statement (word :: opened :: (x ++ closed :: w)) b' := by
  obtain ⟨e, vs, clean, condition⟩ := condition.before (b := w) hc fun _ _ => rfl
  obtain ⟨s, ws, clean', whenTrue⟩ := whenTrue
  cases alternatives with
  | none stops =>
    have read := Statement.ofIf hw ho condition hc whenTrue stops
    exact ⟨b, [], List.suffix_rfl, _, _, clean.append clean', read⟩
  | @more _ _ b' bs' he whenFalse others =>
    obtain ⟨s', xs, clean'', whenFalse⟩ := whenFalse
    have read := Statement.ofIfElse hw ho condition hc whenTrue he whenFalse
    exact ⟨b', bs', List.suffix_cons _ (b' :: bs'), _, _, clean.append (clean'.append clean''), read⟩

theorem readable_ifStmt (h : (d.rules .ifStmt).Holds (Readable d) u) : ReadsStatement d u := by
  obtain ⟨_, _, ⟨word, hw, rfl⟩, ⟨_, _, ⟨opened, ho, rfl⟩, ⟨x, _, condition, ⟨_, _, ⟨closed, hc, rfl⟩,
    ⟨w, _, whenTrue, whenFalse, rfl⟩, rfl⟩, rfl⟩, rfl⟩, rfl⟩ := h
  intro b bs alternatives
  rcases whenFalse with rfl | ⟨_, w', ⟨other, he, rfl⟩, whenFalse, rfl⟩
  · obtain ⟨f, fs, sub, read⟩ := whenTrue b bs alternatives
    obtain ⟨b', bs', sub', whole⟩ :=
      readable_condition hw ho condition hc read (alternatives.suffix sub)
    refine ⟨b', bs', sub'.trans sub, ?_⟩
    simpa using whole
  · -- The `else` of this `if` is the first of the alternatives behind its first branch.
    obtain ⟨f, fs, sub, second⟩ := whenFalse b bs alternatives
    have all : Alternatives d (other :: (w' ++ b)) (f :: fs) :=
      .more he second (alternatives.suffix sub)
    obtain ⟨f', fs', sub', first⟩ := whenTrue _ _ all
    have same : [word] ++ ([opened] ++ (x ++ ([closed] ++ (w ++ ([other] ++ w'))))) ++ b =
        word :: opened :: (x ++ closed :: (w ++ other :: (w' ++ b))) := by simp
    rw [same]
    rcases List.suffix_cons_iff.mp sub' with none | some
    · -- The first branch takes none of them, so this one is left.
      cases none
      obtain ⟨e, vs, clean, condition⟩ :=
        ReadsExpression.before (b := w ++ other :: (w' ++ b)) condition hc fun _ _ => rfl
      obtain ⟨s, ws, clean', first⟩ := first
      obtain ⟨s', xs, clean'', second⟩ := second
      have read := Statement.ofIfElse hw ho condition hc first he second
      exact ⟨f, fs, sub, _, _, clean.append (clean'.append clean''), read⟩
    · obtain ⟨b', bs', sub'', whole⟩ :=
        readable_condition hw ho condition hc first (all.suffix sub')
      exact ⟨b', bs', (sub''.trans some).trans sub, whole⟩

theorem readable_printStmt (h : (d.rules .printStmt).Holds (Readable d) u) :
    ReadsStatement d u := by
  obtain ⟨_, _, ⟨word, hw, rfl⟩, ⟨x, _, value, ⟨semicolon, hs, rfl⟩, rfl⟩, rfl⟩ := h
  refine ReadsStatement.of_alone fun b => ?_
  obtain ⟨e, vs, clean, read⟩ := ReadsExpression.before (b := b) value hs fun _ _ => rfl
  have whole : [word] ++ (x ++ [semicolon]) ++ b = word :: (x ++ semicolon :: b) := by simp
  rw [whole]
  exact ⟨_, _, clean, .ofPrint hw read hs⟩

theorem readable_returnStmt (h : (d.rules .returnStmt).Holds (Readable d) u) :
    ReadsStatement d u := by
  obtain ⟨_, _, ⟨word, hw, rfl⟩, ⟨x, _, value, ⟨semicolon, hs, rfl⟩, rfl⟩, rfl⟩ := h
  refine ReadsStatement.of_alone fun b => ?_
  obtain ⟨o, vs, clean, read⟩ := readable_maybe value (.of_symbol (a := b) hs fun _ _ => rfl)
  have whole : [word] ++ (x ++ [semicolon]) ++ b = word :: (x ++ semicolon :: b) := by simp
  rw [whole]
  exact ⟨_, _, clean, .ofReturn hw read hs⟩

theorem readable_whileStmt (h : (d.rules .whileStmt).Holds (Readable d) u) :
    ReadsStatement d u := by
  obtain ⟨_, _, ⟨word, hw, rfl⟩, ⟨_, _, ⟨opened, ho, rfl⟩, ⟨x, _, condition, ⟨_, w, ⟨closed, hc, rfl⟩,
    body, rfl⟩, rfl⟩, rfl⟩, rfl⟩ := h
  have head : [word] ++ ([opened] ++ (x ++ ([closed] ++ w))) =
      (word :: opened :: (x ++ [closed])) ++ w := by simp
  rw [head]
  refine ReadsStatement.of_tail body fun b b' read => ?_
  have whole : (word :: opened :: (x ++ [closed])) ++ (w ++ b) =
      word :: opened :: (x ++ closed :: (w ++ b)) := by simp
  rw [whole]
  obtain ⟨e, vs, clean, condition⟩ :=
    ReadsExpression.before (b := w ++ b) condition hc fun _ _ => rfl
  obtain ⟨s, ws, clean', body⟩ := read
  exact ⟨_, _, clean.append clean', .ofWhile hw ho condition hc body⟩

theorem readable_statement (h : (d.rules .statement).Holds (Readable d) u) :
    ReadsStatement d u := by
  rcases h with ⟨a, semicolon, rfl, hs, value⟩ | h | h | h | h | h | ⟨opened, a, rfl, ho, block⟩
  · refine ReadsStatement.of_alone fun b => ?_
    obtain ⟨e, vs, clean, read⟩ := value b
    rw [List.append_assoc]
    exact ⟨_, _, clean, .ofExpression read hs⟩
  · exact h
  · exact h
  · exact h
  · exact h
  · exact h
  · refine ReadsStatement.of_alone fun b => ?_
    obtain ⟨body, vs, clean, read⟩ := block b
    exact ⟨_, _, clean, .ofBlock ho read⟩

/-! Declarations -/

theorem readable_function (h : (d.rules .function).Holds (Readable d) u) :
    Readable d .function u := by
  intro b
  obtain ⟨_, _, ⟨name, hn, rfl⟩, ⟨_, _, ⟨opened, ho, rfl⟩, ⟨p, _, params, ⟨_, _, ⟨closed, hc, rfl⟩,
    ⟨brace, a, rfl, hb, block⟩, rfl⟩, rfl⟩, rfl⟩, rfl⟩ := h
  obtain ⟨body, ws, clean', block⟩ := block b
  obtain ⟨names, vs, clean, params⟩ := readable_params (b := brace :: (a ++ b)) params hc
  have whole : [name] ++ ([opened] ++ (p ++ ([closed] ++ brace :: a))) ++ b =
      name :: opened :: (p ++ closed :: brace :: (a ++ b)) := by simp
  rw [whole]
  exact ⟨_, _, clean.append clean', .mk hn ho params hc hb block⟩

theorem readable_funDecl (h : (d.rules .funDecl).Holds (Readable d) u) :
    Readable d .funDecl u := by
  intro b _
  obtain ⟨_, _, ⟨word, hw, rfl⟩, function, rfl⟩ := h
  obtain ⟨code, vs, clean, read⟩ := function b
  exact ⟨_, _, clean, .ofFunction hw read⟩

/-- A method, or a method of the class itself. -/
def IsMember (d : Dialect) (u : List Token) : Prop :=
  (Ebnf.seq (.opt (keyword .class)) (.rule .function)).Holds (Readable d) u

theorem readable_members {us : List (List Token)} (each : ∀ v ∈ us, IsMember d v)
    (hc : t.isSymbol .rightBrace = true) :
    Reads d Members (us.flatten ++ t :: b) (t :: b) := by
  induction us with
  | nil => exact ⟨([], []), [], clean_nil, .closed hc⟩
  | cons v vs ih =>
    obtain ⟨⟨methods, statics⟩, ws, clean', others⟩ := ih fun w mem => each w (List.mem_cons_of_mem v mem)
    obtain ⟨_, w, word, function, rfl⟩ := each v List.mem_cons_self
    obtain ⟨code, vs', clean, read⟩ := function (vs.flatten ++ t :: b)
    rcases word with rfl | ⟨word, hw, rfl⟩
    · have whole : (([] ++ w) :: vs).flatten ++ t :: b = w ++ (vs.flatten ++ t :: b) := by simp
      rw [whole]
      exact ⟨_, _, clean.append clean', .ofInstances read others⟩
    · have whole : (([word] ++ w) :: vs).flatten ++ t :: b =
          word :: (w ++ (vs.flatten ++ t :: b)) := by simp
      rw [whole]
      exact ⟨_, _, clean.append clean', .ofClass hw read others⟩

theorem readable_classDecl (h : (d.rules .classDecl).Holds (Readable d) u) :
    Readable d .classDecl u := by
  intro b _
  obtain ⟨_, _, ⟨word, hw, rfl⟩, ⟨_, _, ⟨name, hn, rfl⟩, ⟨_, _, ⟨opened, ho, rfl⟩, ⟨_, _,
    ⟨us, each, rfl⟩, ⟨closed, hc, rfl⟩, rfl⟩, rfl⟩, rfl⟩, rfl⟩ := h
  obtain ⟨⟨methods, statics⟩, vs, clean, members⟩ := readable_members (b := b) each hc
  have whole : [word] ++ ([name] ++ ([opened] ++ (us.flatten ++ [closed]))) ++ b =
      word :: name :: opened :: (us.flatten ++ closed :: b) := by simp
  rw [whole]
  exact ⟨_, _, clean, .ofClass hw hn ho members hc⟩

theorem readable_varItem (h : (d.rules .varItem).Holds (Readable d) u) :
    Readable d .varItem u := by
  intro b stops
  obtain ⟨_, _, ⟨name, hn, rfl⟩, rfl | ⟨_, w, ⟨equals, he, rfl⟩, value, rfl⟩, rfl⟩ := h
  · exact ⟨_, _, clean_nil, .bare hn stops.equal⟩
  · obtain ⟨e, vs, clean, read⟩ := ReadsExpression.alone value stops
    exact ⟨_, _, clean, .initial hn he read⟩

theorem readable_declarators {us : List (List Token)}
    (each : ∀ v ∈ us, Divides d (.rule .varItem) v) (hs : t.isSymbol .semicolon = true)
    {v : List Token} (first : Readable d .varItem v) :
    Reads d Declarators (v ++ (us.flatten ++ t :: b)) (t :: b) := by
  induction us generalizing v with
  | nil =>
    obtain ⟨item, vs, clean, read⟩ := first (t :: b) (.of_symbol hs fun _ _ => rfl)
    have stops : Stops (Token.isSymbol .comma) (t :: b) :=
      stops_cons.mpr (Token.isSymbol_elim hs fun _ _ => rfl)
    exact ⟨(item, []), vs, clean, .last read stops⟩
  | cons w ws ih =>
    obtain ⟨_, next, ⟨comma, hc, rfl⟩, second, rfl⟩ := each w List.mem_cons_self
    obtain ⟨⟨item', items⟩, xs, clean', others⟩ :=
      ih (fun w mem => each w (List.mem_cons_of_mem _ mem)) second
    obtain ⟨item, vs, clean, read⟩ := first _
      (.of_symbol (a := next ++ (ws.flatten ++ t :: b)) hc fun _ _ => rfl)
    have whole : v ++ ((([comma] ++ next) :: ws).flatten ++ t :: b) =
        v ++ comma :: (next ++ (ws.flatten ++ t :: b)) := by simp
    rw [whole]
    exact ⟨(item, item' :: items), vs ++ xs, clean.append clean', .more read hc others⟩

theorem readable_varDecl (h : (d.rules .varDecl).Holds (Readable d) u) :
    Readable d .varDecl u := by
  obtain ⟨_, _, ⟨word, hw, rfl⟩, ⟨v, _, first, ⟨_, _, ⟨us, each, rfl⟩, ⟨semicolon, hs, rfl⟩, rfl⟩,
    rfl⟩, rfl⟩ := h
  refine ⟨word, v ++ (us.flatten ++ [semicolon]), rfl, hw, fun b => ?_⟩
  obtain ⟨⟨item, items⟩, vs, clean, read⟩ := readable_declarators (b := b) each hs first
  have whole : v ++ (us.flatten ++ [semicolon]) ++ b = v ++ (us.flatten ++ semicolon :: b) := by
    simp
  rw [whole]
  exact ⟨_, _, clean, .mk read hs⟩

theorem readable_declaration (h : (d.rules .declaration).Holds (Readable d) u) :
    Readable d .declaration u := by
  intro b stops
  rcases h with ofClass | ofFunction | ⟨word, a, rfl, hw, declared⟩ | statement
  · exact ofClass b stops
  · exact ofFunction b stops
  · obtain ⟨s, vs, clean, read⟩ := declared b
    exact ⟨_, _, clean, .ofVariables hw read⟩
  · obtain ⟨s, vs, clean, read⟩ := ReadsStatement.alone statement stops
    exact ⟨_, _, clean, .statement read⟩

theorem readable_declarations {inBlock : Bool} {us : List (List Token)}
    (each : ∀ v ∈ us, Readable d .declaration v) (ended : Reads d (Declarations inBlock) b b)
    (stops : Stops (Token.isKeyword .else) b) :
    Reads d (Declarations inBlock) (us.flatten ++ b) b ∧
      Stops (Token.isKeyword .else) (us.flatten ++ b) := by
  induction us with
  | nil => exact ⟨ended, stops⟩
  | cons v vs ih =>
    obtain ⟨⟨ss, ws, clean', others⟩, behind⟩ := ih fun w mem => each w (List.mem_cons_of_mem v mem)
    obtain ⟨s, vs', clean, first⟩ := each v List.mem_cons_self _ behind
    rw [List.flatten_cons, List.append_assoc]
    refine ⟨⟨s :: ss, vs' ++ ws, clean.append clean', .more first others⟩, ?_⟩
    exact first.begins.stops_keyword fun _ _ => rfl

theorem readable_block (h : (d.rules .block).Holds (Readable d) u) : Readable d .block u := by
  obtain ⟨_, _, ⟨opened, ho, rfl⟩, ⟨_, _, ⟨us, each, rfl⟩, ⟨closed, hc, rfl⟩, rfl⟩, rfl⟩ := h
  refine ⟨opened, us.flatten ++ [closed], rfl, ho, fun b => ?_⟩
  have stops : Stops (Token.isKeyword .else) (closed :: b) :=
    stops_cons.mpr (Token.isSymbol_elim hc fun _ _ => rfl)
  obtain ⟨⟨body, vs, clean, read⟩, _⟩ :=
    readable_declarations each ⟨[], [], clean_nil, .closed hc⟩ stops
  have whole : us.flatten ++ [closed] ++ b = us.flatten ++ closed :: b := by simp
  rw [whole]
  exact ⟨_, _, clean, .mk read hc⟩

theorem readable_program (h : (d.rules .program).Holds (Readable d) u) :
    Readable d .program u := by
  obtain ⟨_, _, ⟨us, each, rfl⟩, ⟨last, hl, rfl⟩, rfl⟩ := h
  have ended : Reads d (Declarations false) [] [] := ⟨[], [], clean_nil, .ended⟩
  obtain ⟨⟨program, vs, clean, read⟩, _⟩ := readable_declarations each ended stops_nil
  rw [List.append_nil] at read
  exact ⟨us.flatten, last, rfl, hl, program, vs, clean, read⟩

/-- Every rule of a dialect gives tokens that are read, if its parts are. -/
theorem readable_rules : ∀ (n : Nonterminal) (u : List Token),
    (d.rules n).Holds (Readable d) u → Readable d n u
  | .program, _, h => readable_program h
  | .declaration, _, h => readable_declaration h
  | .classDecl, _, h => readable_classDecl h
  | .funDecl, _, h => readable_funDecl h
  | .function, _, h => readable_function h
  | .varDecl, _, h => readable_varDecl h
  | .varItem, _, h => readable_varItem h
  | .statement, _, h => readable_statement h
  | .exprStmt, _, h => readable_exprStmt h
  | .forStmt, _, h => readable_forStmt h
  | .ifStmt, _, h => readable_ifStmt h
  | .printStmt, _, h => readable_printStmt h
  | .returnStmt, _, h => readable_returnStmt h
  | .whileStmt, _, h => readable_whileStmt h
  | .block, _, h => readable_block h
  | .expression, _, h => h
  | .assignment, _, h => readable_assignment h
  | .lambda, _, h => readable_lambda h
  | .ternary, _, h => readable_ternary h
  | .operation _, _, h => readable_operation h
  | .unary, _, h => readable_unary h
  | .call, _, h => readable_call h
  | .primary, _, h => readable_primary h
  | .parameters, _, h => readable_parameters h
  | .arguments, _, h => readable_arguments h

/-- Whatever derives in a dialect is read. -/
theorem readable_of_derives {n : Nonterminal} (h : d.Derives n u) : Readable d n u :=
  Ebnf.Derives.holds readable_rules h

/-- A program of a dialect has a reading, which has no faults if the dialect is the documented one. -/
theorem Program.of_derives {front : List Token} {last : Token}
    (h : d.Derives .program (front ++ [last])) :
    ∃ program vs, d.Clean vs ∧ Program front program vs := by
  obtain ⟨front', last', same, _, program, vs, clean, read⟩ := readable_of_derives h
  obtain ⟨rfl, _⟩ := List.append_inj' same rfl
  exact ⟨program, vs, clean, read⟩

end Reading

end LoxLang
