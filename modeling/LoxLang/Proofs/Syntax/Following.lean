import LoxLang.Proofs.Syntax.Beginnings
/-!
The rules follow readings. Where a reading goes from `a` to `b`, the rule for it, unless it runs out
of depth, goes from `a` to `b` too, makes the same tree and notes the same faults in the same order.
-/
namespace LoxLang

namespace Parse

variable {α β : Type}

/-- From the tokens `a` the rule either runs out of depth or makes `x`, leaves `b` and notes `vs`. -/
def Follows (rule : Parse α) (a : List Token) (x : α) (b : List Token) (vs : List SyntaxError) :
    Prop :=
  ∀ errors, rule ⟨a, errors⟩ = .starved ∨ rule ⟨a, errors⟩ = .ok x ⟨b, errors ++ vs⟩

variable {rule : Parse α} {cont : α → Parse β} {a b c ts : List Token} {x : α} {y : β}
  {vs ws : List SyntaxError} {p : Token → Bool} {t last : Token} {fault : SyntaxFault}

theorem Follows.starved : Follows starved a x b vs := fun _ => .inl rfl

theorem Follows.pure : Follows (pure x) a x a [] := by
  intro errors
  right
  rw [List.append_nil]
  rfl

theorem Follows.bind (h : Follows rule a x b vs) (h' : Follows (cont x) b y c ws) :
    Follows (rule >>= cont) a y c (vs ++ ws) := by
  intro errors
  rw [bind_apply]
  rcases h errors with out | first
  · left
    rw [out]
  · rw [first, ← List.append_assoc]
    exact h' (errors ++ vs)

theorem Follows.skip (h : Follows rule a x b []) (h' : Follows (cont x) b y c ws) :
    Follows (rule >>= cont) a y c ws :=
  h.bind h'

theorem Follows.close (h : Follows rule a x b vs) (h' : Follows (cont x) b y c []) :
    Follows (rule >>= cont) a y c vs := by
  have := h.bind h'
  rwa [List.append_nil] at this

theorem Follows.of_eq (h : ∀ errors, rule ⟨a, errors⟩ = .ok x ⟨b, errors⟩) :
    Follows rule a x b [] := by
  intro errors
  right
  rw [List.append_nil]
  exact h errors

theorem follows_report : Follows (report fault t) a () a [⟨fault, t⟩] := fun _ => .inr rfl

theorem follows_next (h : p t = true) : Follows (next p) (t :: ts) true (t :: ts) [] :=
  .of_eq fun _ => by simp [next, h]

theorem follows_next_not (h : Stops p a) : Follows (next p) a false a [] := by
  refine .of_eq fun _ => ?_
  cases a with
  | nil => rfl
  | cons t ts => simp [next, stops_cons.mp h]

theorem follows_take (h : p t = true) : Follows (take? p) (t :: ts) (some t) ts [] :=
  .of_eq fun _ => by simp [take?, h]

theorem follows_take_not (h : Stops p a) : Follows (take? p) a none a [] := by
  refine .of_eq fun _ => ?_
  cases a with
  | nil => rfl
  | cons t ts => simp [take?, stops_cons.mp h]

theorem follows_accept (h : p t = true) : Follows (accept p) (t :: ts) true ts [] :=
  .of_eq fun _ => by simp [accept, h]

theorem follows_accept_not (h : Stops p a) : Follows (accept p) a false a [] := by
  refine .of_eq fun _ => ?_
  cases a with
  | nil => rfl
  | cons t ts => simp [accept, stops_cons.mp h]

theorem follows_accept_other {k : Keyword} (h : t.isKeyword k = true)
    (hp : ∀ lexeme line, p ⟨.keyword k, lexeme, line⟩ = false) :
    Follows (accept p) (t :: ts) false (t :: ts) [] :=
  follows_accept_not (stops_cons.mpr (Token.isKeyword_elim h hp))

theorem follows_peek : Follows (peek last) (t :: ts) t (t :: ts) [] := .of_eq fun _ => rfl

theorem follows_expect (h : p t = true) : Follows (expect last p fault) (t :: ts) t ts [] :=
  .of_eq fun _ => by simp [expect, h]

end Parse

namespace Reading

open Grammar Parse

variable (last : Token)

theorem follows_excess {α : Type} {fault : SyntaxFault} {count : Nat} {t : Token}
    {a b : List Token} {x : α} {vs : List SyntaxError} {rule : Parse α}
    (h : Follows rule (t :: a) x b vs) :
    Follows (Grammar.counted last fault count rule) (t :: a) x b (excess fault count t ++ vs) := by
  unfold excess Grammar.counted
  dsimp only
  split
  · exact follows_peek.skip (follows_report.bind h)
  · exact h

theorem Names.follows : ∀ n {count a b names vs},
    Names count a b names vs → Follows (moreParams last n count) a names b vs
  | 0, _, _, _, _, _, _ => .starved
  | n + 1, _, _, _, _, _, .last h stops => by
    rw [moreParams_eq]
    rw [← List.append_nil (excess _ _ _)]
    refine follows_excess last ?_
    exact (follows_expect h).skip ((follows_accept_not stops).skip .pure)
  | n + 1, _, _, _, _, _, .more h hc others => by
    rw [moreParams_eq]
    refine follows_excess last ?_
    refine (follows_expect h).skip ((follows_accept hc).skip ?_)
    exact (Names.follows n others).close .pure

theorem Params.follows (n : Nat) {closed : Token} (hc : closed.isSymbol .rightParen = true) :
    ∀ {a b names vs}, Params a (closed :: b) names vs → Follows (params last n) a names b vs
  | _, _, _, _, .none => by
    unfold params
    refine (follows_next hc).skip ?_
    exact (Follows.pure (x := [])).skip ((follows_expect hc).skip .pure)
  | _, _, _, _, .some h => by
    unfold params
    have stops := h.begins.stops_symbol (s := .rightParen) fun _ _ => rfl
    refine (follows_next_not stops).skip ?_
    exact (Names.follows last n h).close ((follows_expect hc).skip .pure)

/-- An expression is not taken for a token that only stands behind expressions. -/
theorem Expression.stops {s : Symbol} {a b : List Token} {e : Expr} {vs : List SyntaxError}
    (h : Expression a b e vs)
    (hs : ∀ lexeme line, beginsExpression ⟨.symbol s, lexeme, line⟩ = false) :
    Stops (Token.isSymbol s) a :=
  h.begins.stops_symbol hs

theorem Primary.stops_unaryOperator {a b : List Token} {e : Expr} {vs : List SyntaxError}
    (h : Primary a b e vs) : Stops isUnaryOperator a := by
  obtain ⟨t, ts, rfl, ht⟩ := h.begins
  have notBang : t.isSymbol .bang = false := Token.not_isSymbol ht fun _ _ => rfl
  have notMinus : t.isSymbol .minus = false := Token.not_isSymbol ht fun _ _ => rfl
  simp [isUnaryOperator, notBang, notMinus]

theorem follows_atom {t : Token} {b : List Token} {e : Expr} (h : atom? t = some e) :
    Follows atom (t :: b) (some e) b [] :=
  .of_eq fun _ => by simp [atom, h]

theorem follows_atom_not {t : Token} {b : List Token} (h : t.isSymbol .leftParen = true) :
    Follows atom (t :: b) none (t :: b) [] := by
  have isNone : (atom? t).isNone = true :=
    Token.isSymbol_elim h (p := fun t => (atom? t).isNone) fun _ _ => rfl
  exact .of_eq fun _ => by simp [atom, Option.isNone_iff_eq_none.mp isNone]

theorem follows_over {inBlock : Bool} {t : Token} {b : List Token}
    (h : t.isSymbol .rightBrace = true) :
    Follows (declarationsOver inBlock) (t :: b) inBlock (t :: b) [] :=
  .of_eq fun _ => by simp [declarationsOver, h]

theorem follows_over_end {inBlock : Bool} : Follows (declarationsOver inBlock) [] true [] [] :=
  .of_eq fun _ => rfl

theorem follows_over_not {inBlock : Bool} {t : Token} {b : List Token}
    (h : t.isSymbol .rightBrace = false) :
    Follows (declarationsOver inBlock) (t :: b) false (t :: b) [] :=
  .of_eq fun _ => by simp [declarationsOver, h]

/-- An expression that may be missing, in front of a token that begins no expression. -/
theorem follows_maybe {n : Nat} {s : Symbol} {α : Type} {t : Token} {x : α} {a b c : List Token}
    {o : Option Expr} {vs ws : List SyntaxError} {cont : Option Expr → Parse α}
    (follows : ∀ {a b e vs}, Expression a b e vs → Follows (expression last n) a e b vs)
    (ht : t.isSymbol s = true)
    (hs : ∀ lexeme line, beginsExpression ⟨.symbol s, lexeme, line⟩ = false)
    (h : Maybe a (t :: b) o vs) (h' : Follows (cont o) (t :: b) x c ws) :
    Follows (Grammar.optional last n (Token.isSymbol s) cont) a x c (vs ++ ws) := by
  cases h with
  | missing =>
    refine (follows_next ht).skip ?_
    exact (Follows.pure (x := none)).skip h'
  | given h =>
    refine (follows_next_not (h.stops hs)).skip ?_
    exact (follows h).bind (Follows.pure.skip h')

/-- A variable and the expression it begins with, in front of what is made of them. -/
theorem follows_item {n : Nat} {α : Type} {x : α} {a b c : List Token} {d : Declarator}
    {vs ws : List SyntaxError} {cont : Token → Option Expr → Parse α}
    (follows : ∀ {a b e vs}, Expression a b e vs → Follows (expression last n) a e b vs)
    (h : Item a b d vs) (h' : Follows (cont d.name d.initial) b x c ws) :
    Follows (do
      let name ← expect last Token.isIdentifier .variableName
      let initial ← if ← accept (Token.isSymbol .equal) then
          let value ← expression last n
          pure (some value)
        else pure none
      cont name initial) a x c (vs ++ ws) := by
  cases h with
  | bare hn stops =>
    refine (follows_expect hn).skip ((follows_accept_not stops).skip ?_)
    exact (Follows.pure (x := none)).skip h'
  | initial hn he h =>
    refine (follows_expect hn).skip ((follows_accept he).skip ?_)
    exact (follows h).bind (Follows.pure.skip h')

mutual

theorem Expression.follows : ∀ n {a b e vs},
    Expression a b e vs → Follows (expression last n) a e b vs
  | 0, _, _, _, _, _ => .starved
  | n + 1, _, _, _, _, .plain h stops => by
    unfold expression
    exact (Lambda.follows n h).close ((follows_take_not stops).skip .pure)
  | n + 1, _, _, _, _, @Expression.assign _ _ _ _ target _ _ _ h he hv => by
    unfold expression
    refine (Lambda.follows n h).bind ((follows_take he).skip ?_)
    refine (Expression.follows n hv).bind ?_
    -- The faults are those of the target, which its tree decides.
    cases target with
    | «variable» => exact .pure
    | property => exact .pure
    | _ => exact follows_report.close .pure

theorem Lambda.follows : ∀ n {a b e vs}, Lambda a b e vs → Follows (lambda last n) a e b vs
  | 0, _, _, _, _, _ => .starved
  | n + 1, _, _, _, _, .function hk ho hp hc hb => by
    unfold lambda
    refine (follows_take hk).skip ((follows_expect ho).skip ?_)
    exact (hp.follows last n hc).bind ((LambdaBody.follows n hb).close .pure)
  | n + 1, _, _, _, _, .ternary h => by
    unfold lambda
    refine (follows_take_not (h.begins.stops_keyword fun _ _ => rfl)).skip ?_
    exact Ternary.follows n h

theorem LambdaBody.follows : ∀ n {a b body vs},
    LambdaBody a b body vs → Follows (lambdaBody last n) a body b vs
  | 0, _, _, _, _, _ => .starved
  | n + 1, _, _, _, _, .block ho h => by
    unfold lambdaBody
    exact (follows_accept ho).skip (Block.follows n h)
  | n + 1, _, _, _, _, .expression h => by
    unfold lambdaBody
    refine (follows_accept_not (h.stops fun _ _ => rfl)).skip ?_
    refine (follows_take_not (h.begins.stops_keyword fun _ _ => rfl)).skip ?_
    exact follows_peek.skip ((Expression.follows n h).close .pure)
  | n + 1, _, _, _, _, .returning hk h => by
    unfold lambdaBody
    have notBlock := Token.isKeyword_elim hk (p := Token.isSymbol .leftBrace) fun _ _ => rfl
    refine (follows_accept_not (stops_cons.mpr notBlock)).skip ((follows_take hk).skip ?_)
    exact follows_report.bind (follows_peek.skip ((Expression.follows n h).close .pure))

theorem Ternary.follows : ∀ n {a b e vs}, Ternary a b e vs → Follows (ternary last n) a e b vs
  | 0, _, _, _, _, _ => .starved
  | n + 1, _, _, _, _, .plain h stops => by
    unfold ternary
    exact (Operation.follows n h).close ((follows_accept_not stops).skip .pure)
  | n + 1, _, _, _, _, .choice h hq ht hc hf => by
    unfold ternary
    refine (Operation.follows n h).bind ((follows_accept hq).skip ?_)
    refine (Ternary.follows n ht).bind ((follows_expect hc).skip ?_)
    exact (Ternary.follows n hf).close .pure

theorem Operation.follows : ∀ n {level a b e vs},
    Operation level a b e vs → Follows (operation last n level) a e b vs
  | 0, _, _, _, _, _, _ => .starved
  | n + 1, _, _, _, _, _, .chain h hr => by
    unfold operation
    exact (Operand.follows n h).bind (Operators.follows n hr)

theorem Operand.follows : ∀ n {level a b e vs},
    Operand level a b e vs → Follows (operand last n level) a e b vs
  | 0, _, _, _, _, _, _ => .starved
  | n + 1, _, _, _, _, _, .tighter hl h => by
    unfold operand
    rw [hl]
    exact Operation.follows n h
  | n + 1, _, _, _, _, _, .unary hl h => by
    unfold operand
    rw [hl]
    exact Unary.follows n h

theorem Operators.follows : ∀ n {level left a b e vs},
    Operators level left a b e vs → Follows (moreOperation last n level left) a e b vs
  | 0, _, _, _, _, _, _, _ => .starved
  | n + 1, _, _, _, _, _, _, .done stops => by
    unfold moreOperation
    exact (follows_take_not stops).skip .pure
  | n + 1, _, _, _, _, _, _, .more ho h hr => by
    unfold moreOperation
    exact (follows_take ho).skip ((Operand.follows n h).bind (Operators.follows n hr))

theorem Unary.follows : ∀ n {a b e vs}, Unary a b e vs → Follows (unary last n) a e b vs
  | 0, _, _, _, _, _ => .starved
  | n + 1, _, _, _, _, .operator ho h => by
    unfold unary
    exact (follows_take ho).skip ((Unary.follows n h).close .pure)
  | n + 1, _, _, _, _, .call h hr => by
    unfold unary
    exact (follows_take_not h.stops_unaryOperator).skip ((Primary.follows n h).bind (Calls.follows n hr))

theorem Calls.follows : ∀ n {callee a b e vs},
    Calls callee a b e vs → Follows (moreCall last n callee) a e b vs
  | 0, _, _, _, _, _, _ => .starved
  | n + 1, _, _, _, _, _, .done call property => by
    unfold moreCall
    exact (follows_accept_not call).skip ((follows_accept_not property).skip .pure)
  | n + 1, _, _, _, _, _, .call ho .none hc hr => by
    unfold moreCall
    refine (follows_accept ho).skip ((follows_next hc).skip ?_)
    exact (Follows.pure (x := [])).skip ((follows_expect hc).skip (Calls.follows n hr))
  | n + 1, _, _, _, _, _, .call ho (.some h) hc hr => by
    unfold moreCall
    have stops := h.begins.stops_symbol (s := .rightParen) fun _ _ => rfl
    refine (follows_accept ho).skip ((follows_next_not stops).skip ?_)
    exact (Arguments.follows n h).bind ((follows_expect hc).skip (Calls.follows n hr))
  | n + 1, _, _, _, _, _, .property hd hn hr => by
    unfold moreCall
    have notCall := Token.isSymbol_elim hd (p := Token.isSymbol .leftParen) fun _ _ => rfl
    refine (follows_accept_not (stops_cons.mpr notCall)).skip ((follows_accept hd).skip ?_)
    exact (follows_expect hn).skip (Calls.follows n hr)

theorem Arguments.follows : ∀ n {count a b es vs},
    Arguments count a b es vs → Follows (moreArguments last n count) a es b vs
  | 0, _, _, _, _, _, _ => .starved
  | n + 1, _, _, _, _, _, .last h stops => by
    rw [moreArguments_eq]
    refine follows_excess last ?_
    exact (Expression.follows n h).close ((follows_accept_not stops).skip .pure)
  | n + 1, _, _, _, _, _, .more h hc others => by
    rw [moreArguments_eq]
    refine follows_excess last ?_
    refine (Expression.follows n h).bind ((follows_accept hc).skip ?_)
    exact (Arguments.follows n others).close .pure

theorem Primary.follows : ∀ n {a b e vs}, Primary a b e vs → Follows (primary last n) a e b vs
  | 0, _, _, _, _, _ => .starved
  | n + 1, _, _, _, _, .atom h => by
    unfold primary
    exact (follows_atom h).skip .pure
  | n + 1, _, _, _, _, .group ho h hc => by
    unfold primary
    refine (follows_atom_not ho).skip ((follows_accept ho).skip ?_)
    exact (Expression.follows n h).close ((follows_expect hc).skip .pure)

theorem Declaration.follows : ∀ n {a b s vs},
    Declaration a b s vs → Follows (declarationRule last n) a s b vs
  | 0, _, _, _, _, _ => .starved
  | n + 1, _, _, _, _, .ofClass hw hn ho h hc => by
    unfold declarationRule
    refine (follows_accept hw).skip ?_
    cases n with
    | zero => exact .starved
    | succ n =>
      unfold classRule
      refine (follows_expect hn).skip ((follows_expect ho).skip ?_)
      exact (Members.follows n h).close ((follows_expect hc).skip .pure)
  | n + 1, _, _, _, _, .ofFunction hw h => by
    unfold declarationRule
    refine (follows_accept_other hw fun _ _ => rfl).skip ?_
    refine (follows_accept hw).skip ?_
    exact (Code.follows n h).close .pure
  | n + 1, _, _, _, _, .ofVariables hw h => by
    unfold declarationRule
    refine (follows_accept_other hw fun _ _ => rfl).skip ?_
    refine (follows_accept_other hw fun _ _ => rfl).skip ?_
    refine (follows_accept hw).skip ?_
    exact Variables.follows n h
  | n + 1, _, _, _, _, .statement h => by
    unfold declarationRule
    refine (follows_accept_not (h.begins.stops_keyword fun _ _ => rfl)).skip ?_
    refine (follows_accept_not (h.begins.stops_keyword fun _ _ => rfl)).skip ?_
    refine (follows_accept_not (h.begins.stops_keyword fun _ _ => rfl)).skip ?_
    exact Statement.follows n h

theorem Members.follows : ∀ n {a b fs vs}, Members a b fs vs → Follows (members last n) a fs b vs
  | 0, _, _, _, _, _ => .starved
  | n + 1, _, _, _, _, .ended => by
    unfold members
    exact follows_over_end.skip .pure
  | n + 1, _, _, _, _, .closed hc => by
    unfold members
    exact (follows_over hc).skip .pure
  | n + 1, _, _, _, _, .ofClass hw h others => by
    unfold members
    have notClosed := Token.isKeyword_elim hw (p := Token.isSymbol .rightBrace) fun _ _ => rfl
    refine (follows_over_not notClosed).skip ((follows_accept hw).skip ?_)
    exact (Code.follows n h).bind ((Members.follows n others).close .pure)
  | n + 1, _, _, _, _, .ofInstances h others => by
    unfold members
    obtain ⟨t, ts, rfl, ht⟩ := h.begins
    have notClosed := Token.isIdentifier_elim ht (p := Token.isSymbol .rightBrace) fun _ _ => rfl
    have notClass := Token.isIdentifier_elim ht (p := Token.isKeyword .class) fun _ _ => rfl
    refine (follows_over_not notClosed).skip ?_
    refine (follows_accept_not (stops_cons.mpr notClass)).skip ?_
    exact (Code.follows n h).bind ((Members.follows n others).close .pure)

theorem Code.follows : ∀ n {callee a b code vs},
    Code a b code vs → Follows (function last n callee) a code b vs
  | 0, _, _, _, _, _, _ => .starved
  | n + 1, _, _, _, _, _, .mk hn ho hp hc hb h => by
    unfold Grammar.function
    refine (follows_expect hn).skip ((follows_expect ho).skip ?_)
    refine (hp.follows last n hc).bind ((follows_expect hb).skip ?_)
    exact (Block.follows n h).close .pure

theorem Variables.follows : ∀ n {a b s vs}, Variables a b s vs → Follows (varRule last n) a s b vs
  | 0, _, _, _, _, _ => .starved
  | n + 1, _, _, _, _, @Variables.mk _ _ _ _ others _ h hs => by
    unfold varRule
    refine (Declarators.follows n h).close ((follows_expect hs).skip ?_)
    cases others with
    | nil => exact .pure
    | cons => exact .pure

theorem Declarators.follows : ∀ n {a b ds vs},
    Declarators a b ds vs → Follows (declarators last n) a ds b vs
  | 0, _, _, _, _, _ => .starved
  | n + 1, _, _, _, _, @Declarators.last _ _ ⟨_, _⟩ vs h stops => by
    unfold declarators
    rw [← List.append_nil vs]
    refine follows_item last (Expression.follows n) h ?_
    exact (follows_accept_not stops).skip .pure
  | n + 1, _, _, _, _, @Declarators.more _ _ _ _ ⟨_, _⟩ _ _ _ _ h hc ho => by
    unfold declarators
    refine follows_item last (Expression.follows n) h ?_
    exact (follows_accept hc).skip ((Declarators.follows n ho).close .pure)

theorem Statement.follows : ∀ n {a b s vs},
    Statement a b s vs → Follows (statement last n) a s b vs
  | 0, _, _, _, _, _ => .starved
  | n + 1, _, _, _, _, .ofFor hw ho hi hn hs hx hc hb => by
    unfold statement
    refine (follows_accept hw).skip ?_
    cases n with
    | zero => exact .starved
    | succ n =>
      unfold forRule
      refine (follows_expect ho).skip ((Initial.follows n hi).bind ?_)
      refine follows_maybe last (Expression.follows n) hs (fun _ _ => rfl) hn ((follows_expect hs).skip ?_)
      refine follows_maybe last (Expression.follows n) hc (fun _ _ => rfl) hx ((follows_expect hc).skip ?_)
      exact (Statement.follows n hb).close .pure
  | n + 1, _, _, _, _, .ofIf hw ho h hc ht stops => by
    unfold statement
    refine (follows_accept_other hw fun _ _ => rfl).skip ?_
    refine (follows_accept hw).skip ?_
    cases n with
    | zero => exact .starved
    | succ n =>
      unfold ifRule
      refine (follows_expect ho).skip ((Expression.follows n h).bind ((follows_expect hc).skip ?_))
      exact (Statement.follows n ht).close ((follows_accept_not stops).skip .pure)
  | n + 1, _, _, _, _, .ofIfElse hw ho h hc ht he hf => by
    unfold statement
    refine (follows_accept_other hw fun _ _ => rfl).skip ?_
    refine (follows_accept hw).skip ?_
    cases n with
    | zero => exact .starved
    | succ n =>
      unfold ifRule
      refine (follows_expect ho).skip ((Expression.follows n h).bind ((follows_expect hc).skip ?_))
      refine (Statement.follows n ht).bind ((follows_accept he).skip ?_)
      exact (Statement.follows n hf).close .pure
  | n + 1, _, _, _, _, .ofPrint hw h hs => by
    unfold statement
    refine (follows_accept_other hw fun _ _ => rfl).skip ?_
    refine (follows_accept_other hw fun _ _ => rfl).skip ?_
    refine (follows_accept hw).skip ?_
    exact (Expression.follows n h).close ((follows_expect hs).skip .pure)
  | n + 1, _, _, _, _, @Statement.ofReturn _ _ _ _ _ vs hw h hs => by
    unfold statement
    refine (follows_accept_other hw fun _ _ => rfl).skip ?_
    refine (follows_accept_other hw fun _ _ => rfl).skip ?_
    refine (follows_accept_other hw fun _ _ => rfl).skip ((follows_take hw).skip ?_)
    cases n with
    | zero => exact .starved
    | succ n =>
      unfold returnRule
      rw [← List.append_nil vs]
      refine follows_maybe last (Expression.follows n) hs (fun _ _ => rfl) h ?_
      exact (follows_expect hs).skip .pure
  | n + 1, _, _, _, _, .ofWhile hw ho h hc hb => by
    unfold statement
    refine (follows_accept_other hw fun _ _ => rfl).skip ?_
    refine (follows_accept_other hw fun _ _ => rfl).skip ?_
    refine (follows_accept_other hw fun _ _ => rfl).skip ?_
    refine (follows_take_not (stops_cons.mpr (Token.isKeyword_elim hw fun _ _ => rfl))).skip ?_
    refine (follows_accept hw).skip ?_
    cases n with
    | zero => exact .starved
    | succ n =>
      unfold whileRule
      refine (follows_expect ho).skip ((Expression.follows n h).bind ((follows_expect hc).skip ?_))
      exact (Statement.follows n hb).close .pure
  | n + 1, _, _, _, _, .ofBlock ho h => by
    unfold statement
    have notKeyword (k : Keyword) := Token.isSymbol_elim ho (p := Token.isKeyword k) fun _ _ => rfl
    refine (follows_accept_not (stops_cons.mpr (notKeyword .for))).skip ?_
    refine (follows_accept_not (stops_cons.mpr (notKeyword .if))).skip ?_
    refine (follows_accept_not (stops_cons.mpr (notKeyword .print))).skip ?_
    refine (follows_take_not (stops_cons.mpr (notKeyword .return))).skip ?_
    refine (follows_accept_not (stops_cons.mpr (notKeyword .while))).skip ?_
    exact (follows_accept ho).skip ((Block.follows n h).close .pure)
  | n + 1, _, _, _, _, .ofExpression h hs => by
    unfold statement
    refine (follows_accept_not (h.begins.stops_keyword fun _ _ => rfl)).skip ?_
    refine (follows_accept_not (h.begins.stops_keyword fun _ _ => rfl)).skip ?_
    refine (follows_accept_not (h.begins.stops_keyword fun _ _ => rfl)).skip ?_
    refine (follows_take_not (h.begins.stops_keyword fun _ _ => rfl)).skip ?_
    refine (follows_accept_not (h.begins.stops_keyword fun _ _ => rfl)).skip ?_
    refine (follows_accept_not (h.stops fun _ _ => rfl)).skip ?_
    cases n with
    | zero => exact .starved
    | succ n =>
      unfold expressionRule
      exact (Expression.follows n h).close ((follows_expect hs).skip .pure)

theorem Initial.follows : ∀ n {a b o vs}, Initial a b o vs → Follows (forInitial last n) a o b vs
  | 0, _, _, _, _, _ => .starved
  | n + 1, _, _, _, _, .none hs => by
    unfold forInitial
    exact (follows_accept hs).skip .pure
  | n + 1, _, _, _, _, .ofVariables hw h => by
    unfold forInitial
    refine (follows_accept_other hw fun _ _ => rfl).skip ((follows_accept hw).skip ?_)
    exact (Variables.follows n h).close .pure
  | n + 1, _, _, _, _, .ofExpression h hs => by
    unfold forInitial
    refine (follows_accept_not (h.stops fun _ _ => rfl)).skip ?_
    refine (follows_accept_not (h.begins.stops_keyword fun _ _ => rfl)).skip ?_
    cases n with
    | zero => exact .starved
    | succ n =>
      unfold expressionRule
      refine Follows.close ?_ .pure
      exact (Expression.follows n h).close ((follows_expect hs).skip .pure)

theorem Block.follows : ∀ n {a b body vs}, Block a b body vs → Follows (block last n) a body b vs
  | 0, _, _, _, _, _ => .starved
  | n + 1, _, _, _, _, .mk h hc => by
    unfold block
    exact (Declarations.follows n h).close ((follows_expect hc).skip .pure)

theorem Declarations.follows : ∀ n {inBlock a b ss vs},
    Declarations inBlock a b ss vs → Follows (declarations last n inBlock) a ss b vs
  | 0, _, _, _, _, _, _ => .starved
  | n + 1, _, _, _, _, _, .ended => by
    unfold declarations
    exact follows_over_end.skip .pure
  | n + 1, _, _, _, _, _, .closed hc => by
    unfold declarations
    exact (follows_over hc).skip .pure
  | n + 1, _, _, _, _, _, @Declarations.more _ _ _ _ s _ _ _ h others => by
    unfold declarations
    obtain ⟨t, ts, rfl, ht⟩ := h.begins
    refine (follows_over_not (Token.not_isSymbol ht fun _ _ => rfl)).skip ?_
    refine Follows.bind (x := some s) ?_ ((Declarations.follows n others).close .pure)
    cases n with
    | zero => exact .starved
    | succ n =>
      intro errors
      unfold declaration
      rcases Declaration.follows n h errors with out | read
      · left
        rw [out]
      · right
        rw [read]

end

end Reading

end LoxLang
