import LoxLang.Proofs.Splitting.Scanning
import LoxLang.Proofs.Syntax.Acceptance
/-!
The program of two texts one behind the other. A reading is still one when its tokens stand on other
lines and more tokens come behind them: what ends with a mark of its own does not look further, and what
may go on behind its last token, an `if`, goes on at an `else` only, with which no program begins.

What is proved: the program of the tokens together is the one program with the other behind it, on the
lines where its tokens are (`Stmt.programOfTokens_append`).
-/
namespace LoxLang

open Grammar

/-- Tokens that may come behind a program: the first of them is no `else`. -/
structure Behind where
  tokens : List Token
  noElse : Stops (Token.isKeyword .else) tokens

variable {f : Nat → Nat} {behind : Behind}

def SyntaxError.relocate (f : Nat → Nat) (e : SyntaxError) : SyntaxError :=
  { e with token := e.token.relocate f }

/-- Tokens on other lines, with more tokens behind them. -/
def Token.placed (f : Nat → Nat) (behind : Behind) (ts : List Token) : List Token :=
  ts.map (·.relocate f) ++ behind.tokens

theorem Token.placed_cons (t : Token) (ts : List Token) :
    Token.placed f behind (t :: ts) = t.relocate f :: Token.placed f behind ts := rfl

/-! What trees are made of, on other lines -/

theorem relocate_excess (fault : SyntaxFault) (count : Nat) (t : Token) :
    (excess fault count t).map (·.relocate f) = excess fault count (t.relocate f) := by
  unfold excess
  split <;> rfl

theorem Expr.relocate_assigned (target value : Expr) :
    (target.assigned value).relocate f = (target.relocate f).assigned (value.relocate f) := by
  cases target <;> simp only [Expr.assigned, Expr.relocate]

theorem Expr.relocate_targetFaults (target : Expr) (equals : Token) :
    (target.targetFaults equals).map (·.relocate f) =
      (target.relocate f).targetFaults (equals.relocate f) := by
  cases target <;> simp only [Expr.targetFaults, Expr.relocate] <;> rfl

theorem Level.relocate_join (level : Level) (left : Expr) (op : Token) (right : Expr) :
    (level.join left op right).relocate f =
      level.join (left.relocate f) (op.relocate f) (right.relocate f) := by
  cases level <;> simp only [Level.join, Expr.relocate]

theorem relocate_atom {t : Token} {e : Expr} (h : atom? t = some e) :
    atom? (t.relocate f) = some (e.relocate f) := by
  unfold atom? at h ⊢
  rw [Token.kind_relocate]
  split at h
  case h_8 => cases h
  all_goals
    cases h
    simp only [Expr.relocate]

theorem Stmt.relocate_declaring (first : Declarator) (others : List Declarator) :
    (Stmt.declaring first others).relocate f =
      Stmt.declaring (first.relocate f) (Declarator.relocateAll f others) := by
  cases others <;> simp only [Stmt.declaring, Stmt.relocate, Declarator.relocateAll]

theorem Stmt.relocate_forLoop (initial : Option Stmt) (condition increment : Option Expr)
    (body : Stmt) : (Stmt.forLoop initial condition increment body).relocate f =
      Stmt.forLoop (initial.map (·.relocate f)) (condition.map (·.relocate f))
        (increment.map (·.relocate f)) (body.relocate f) := by
  cases initial <;> cases condition <;> cases increment <;>
    simp only [Stmt.forLoop, Stmt.relocate, Stmt.relocateAll, Expr.relocate, Option.map_some,
      Option.map_none, Option.getD_some, Option.getD_none]

theorem Stmt.relocate_returns (keyword : Token) (value : Option Expr) :
    (Stmt.returns keyword value).relocate f =
      .returns (keyword.relocate f) (value.map (·.relocate f)) := by
  cases value <;> simp only [Stmt.relocate, Option.map_some, Option.map_none]

/-! Where readings stop -/

theorem Stops.placed {p : Token → Bool} {b : List Token} (h : Stops p b) (more : b ≠ [])
    (same : ∀ t : Token, p (t.relocate f) = p t) : Stops p (Token.placed f behind b) := by
  cases b with
  | nil => exact absurd rfl more
  | cons t b =>
    rw [Token.placed_cons, stops_cons, same]
    exact stops_cons.mp h

/-- No `else` comes next, neither in what is left nor behind it. -/
theorem Stops.placed_else {b : List Token} (h : Stops (Token.isKeyword .else) b) :
    Stops (Token.isKeyword .else) (Token.placed f behind b) := by
  cases b with
  | nil => exact behind.noElse
  | cons t b => exact h.placed (List.cons_ne_nil t b) fun _ => rfl

namespace Reading

/-- What is in front of a rest that is not empty is not empty. -/
theorem Operators.ne_nil {level : Level} {left e : Expr} {a b : List Token}
    {vs : List SyntaxError} (h : Operators level left a b e vs) (more : b ≠ []) : a ≠ [] := by
  cases h with
  | done => exact more
  | more => exact List.cons_ne_nil _ _

theorem Calls.ne_nil {callee e : Expr} {a b : List Token} {vs : List SyntaxError}
    (h : Calls callee a b e vs) (more : b ≠ []) : a ≠ [] := by
  cases h with
  | done => exact more
  | call => exact List.cons_ne_nil _ _
  | property => exact List.cons_ne_nil _ _

theorem Names.placed : ∀ {count a b names vs}, Names count a b names vs → b ≠ [] →
    Names count (Token.placed f behind a) (Token.placed f behind b) (names.map (·.relocate f))
      (vs.map (·.relocate f))
  | _, _, _, _, _, .last h stops, left => by
    rw [relocate_excess]
    exact .last h (stops.placed left fun _ => rfl)
  | _, _, _, _, _, .more h hc others, left => by
    rw [List.map_append, relocate_excess]
    exact .more h hc (others.placed left)

theorem Params.placed : ∀ {a b names vs}, Params a b names vs → b ≠ [] →
    Params (Token.placed f behind a) (Token.placed f behind b) (names.map (·.relocate f))
      (vs.map (·.relocate f))
  | _, _, _, _, .none, _ => .none
  | _, _, _, _, .some h, left => .some (h.placed left)

mutual

theorem Expression.placed : ∀ {a b e vs}, Expression a b e vs → b ≠ [] →
    Expression (Token.placed f behind a) (Token.placed f behind b) (e.relocate f)
      (vs.map (·.relocate f))
  | _, _, _, _, .plain h stops, left =>
    .plain (Lambda.placed h left) (stops.placed left fun _ => rfl)
  | _, _, _, _, .assign h he hv, left => by
    rw [Expr.relocate_assigned, List.map_append, List.map_append, Expr.relocate_targetFaults]
    exact .assign (Lambda.placed h (List.cons_ne_nil _ _)) he (Expression.placed hv left)

theorem Lambda.placed : ∀ {a b e vs}, Lambda a b e vs → b ≠ [] →
    Lambda (Token.placed f behind a) (Token.placed f behind b) (e.relocate f)
      (vs.map (·.relocate f))
  | _, _, _, _, .function hk ho hp hc hb, left => by
    rw [List.map_append]
    simp only [Expr.relocate, Function.relocate]
    exact .function hk ho (hp.placed (List.cons_ne_nil _ _)) hc (LambdaBody.placed hb left)
  | _, _, _, _, .ternary h, left => .ternary (Ternary.placed h left)

theorem LambdaBody.placed : ∀ {a b body vs}, LambdaBody a b body vs → b ≠ [] →
    LambdaBody (Token.placed f behind a) (Token.placed f behind b) (Stmt.relocateAll f body)
      (vs.map (·.relocate f))
  | _, _, _, _, .block ho h, _ => .block ho (Block.placed h)
  | _, _, _, _, .expression h, left => by
    simp only [Stmt.relocateAll, Stmt.relocate]
    exact .expression (Expression.placed h left)
  | _, _, _, _, .returning hk h, left => by
    simp only [Stmt.relocateAll, Stmt.relocate]
    exact .returning hk (Expression.placed h left)

theorem Ternary.placed : ∀ {a b e vs}, Ternary a b e vs → b ≠ [] →
    Ternary (Token.placed f behind a) (Token.placed f behind b) (e.relocate f)
      (vs.map (·.relocate f))
  | _, _, _, _, .plain h stops, left =>
    .plain (Operation.placed h left) (stops.placed left fun _ => rfl)
  | _, _, _, _, .choice h hq ht hc hf, left => by
    rw [List.map_append, List.map_append]
    simp only [Expr.relocate]
    exact .choice (Operation.placed h (List.cons_ne_nil _ _)) hq
      (Ternary.placed ht (List.cons_ne_nil _ _)) hc (Ternary.placed hf left)

theorem Operation.placed : ∀ {level a b e vs}, Operation level a b e vs → b ≠ [] →
    Operation level (Token.placed f behind a) (Token.placed f behind b) (e.relocate f)
      (vs.map (·.relocate f))
  | _, _, _, _, _, .chain h hr, left => by
    rw [List.map_append]
    exact .chain (Operand.placed h (hr.ne_nil left)) (Operators.placed hr left)

theorem Operand.placed : ∀ {level a b e vs}, Operand level a b e vs → b ≠ [] →
    Operand level (Token.placed f behind a) (Token.placed f behind b) (e.relocate f)
      (vs.map (·.relocate f))
  | _, _, _, _, _, .tighter hl h, left => .tighter hl (Operation.placed h left)
  | _, _, _, _, _, .unary hl h, left => .unary hl (Unary.placed h left)

theorem Operators.placed : ∀ {level before a b e vs}, Operators level before a b e vs → b ≠ [] →
    Operators level (before.relocate f) (Token.placed f behind a) (Token.placed f behind b)
      (e.relocate f) (vs.map (·.relocate f))
  | _, _, _, _, _, _, .done stops, left => .done (stops.placed left fun _ => rfl)
  | _, _, _, _, _, _, .more ho h hr, left => by
    rw [List.map_append]
    have rest := Operators.placed hr left
    rw [Level.relocate_join] at rest
    exact .more ho (Operand.placed h (hr.ne_nil left)) rest

theorem Unary.placed : ∀ {a b e vs}, Unary a b e vs → b ≠ [] →
    Unary (Token.placed f behind a) (Token.placed f behind b) (e.relocate f)
      (vs.map (·.relocate f))
  | _, _, _, _, .operator ho h, left => by
    simp only [Expr.relocate]
    exact .operator ho (Unary.placed h left)
  | _, _, _, _, .call h hr, left => by
    rw [List.map_append]
    exact .call (Primary.placed h (hr.ne_nil left)) (Calls.placed hr left)

theorem Calls.placed : ∀ {callee a b e vs}, Calls callee a b e vs → b ≠ [] →
    Calls (callee.relocate f) (Token.placed f behind a) (Token.placed f behind b) (e.relocate f)
      (vs.map (·.relocate f))
  | _, _, _, _, _, .done call property, left =>
    .done (call.placed left fun _ => rfl) (property.placed left fun _ => rfl)
  | _, _, _, _, _, .call ho ha hc hr, left => by
    rw [List.map_append]
    have rest := Calls.placed hr left
    simp only [Expr.relocate] at rest
    exact .call ho (Passed.placed ha (List.cons_ne_nil _ _)) hc rest
  | _, _, _, _, _, .property hd hn hr, left => by
    have rest := Calls.placed hr left
    simp only [Expr.relocate] at rest
    exact .property hd hn rest

theorem Passed.placed : ∀ {a b es vs}, Passed a b es vs → b ≠ [] →
    Passed (Token.placed f behind a) (Token.placed f behind b) (Expr.relocateAll f es)
      (vs.map (·.relocate f))
  | _, _, _, _, .none, _ => .none
  | _, _, _, _, .some h, left => .some (Arguments.placed h left)

theorem Arguments.placed : ∀ {count a b es vs}, Arguments count a b es vs → b ≠ [] →
    Arguments count (Token.placed f behind a) (Token.placed f behind b) (Expr.relocateAll f es)
      (vs.map (·.relocate f))
  | _, _, _, _, _, .last h stops, left => by
    -- One argument too many is reported at its first token, so the report moves with it.
    rw [List.map_append, relocate_excess]
    exact .last (Expression.placed h left) (stops.placed left fun _ => rfl)
  | _, _, _, _, _, .more h hc others, left => by
    rw [List.map_append, List.map_append, relocate_excess]
    exact .more (Expression.placed h (List.cons_ne_nil _ _)) hc (Arguments.placed others left)

theorem Primary.placed : ∀ {a b e vs}, Primary a b e vs → b ≠ [] →
    Primary (Token.placed f behind a) (Token.placed f behind b) (e.relocate f)
      (vs.map (·.relocate f))
  | _, _, _, _, .atom h, _ => .atom (relocate_atom h)
  | _, _, _, _, .group ho h hc, _ => by
    simp only [Expr.relocate]
    exact .group ho (Expression.placed h (List.cons_ne_nil _ _)) hc

theorem Declaration.placed : ∀ {a b s vs}, Declaration a b s vs →
    Declaration (Token.placed f behind a) (Token.placed f behind b) (s.relocate f)
      (vs.map (·.relocate f))
  | _, _, _, _, .ofClass hw hn ho h hc => by
    simp only [Stmt.relocate]
    exact .ofClass hw hn ho (Members.placed h (List.cons_ne_nil _ _)) hc
  | _, _, _, _, .ofFunction hw h => by
    simp only [Stmt.relocate]
    exact .ofFunction hw (Code.placed h)
  | _, _, _, _, .ofVariables hw h => .ofVariables hw (Variables.placed h)
  | _, _, _, _, .statement h => .statement (Statement.placed h)

theorem Members.placed : ∀ {a b fs vs}, Members a b fs vs → b ≠ [] →
    Members (Token.placed f behind a) (Token.placed f behind b)
      (Function.relocateAll f fs.1, Function.relocateAll f fs.2) (vs.map (·.relocate f))
  -- Without a brace the members end where the tokens do, and here are more of them.
  | _, _, _, _, .ended, left => absurd rfl left
  | _, _, _, _, .closed hc, _ => .closed hc
  | _, _, _, _, .ofClass hw h others, left => by
    rw [List.map_append]
    simp only [Function.relocateAll]
    exact .ofClass hw (Code.placed h) (Members.placed others left)
  | _, _, _, _, .ofInstances h others, left => by
    rw [List.map_append]
    simp only [Function.relocateAll]
    exact .ofInstances (Code.placed h) (Members.placed others left)

theorem Code.placed : ∀ {a b code vs}, Code a b code vs →
    Code (Token.placed f behind a) (Token.placed f behind b) (code.relocate f)
      (vs.map (·.relocate f))
  | _, _, _, _, .mk hn ho hp hc hb h => by
    rw [List.map_append]
    simp only [Function.relocate]
    exact .mk hn ho (hp.placed (List.cons_ne_nil _ _)) hc hb (Block.placed h)

theorem Variables.placed : ∀ {a b s vs}, Variables a b s vs →
    Variables (Token.placed f behind a) (Token.placed f behind b) (s.relocate f)
      (vs.map (·.relocate f))
  | _, _, _, _, .mk h hs => by
    rw [Stmt.relocate_declaring]
    exact .mk (Declarators.placed h (List.cons_ne_nil _ _)) hs

theorem Declarators.placed : ∀ {a b ds vs}, Declarators a b ds vs → b ≠ [] →
    Declarators (Token.placed f behind a) (Token.placed f behind b)
      (ds.1.relocate f, Declarator.relocateAll f ds.2) (vs.map (·.relocate f))
  | _, _, _, _, .last h stops, left =>
    .last (Item.placed h left) (stops.placed left fun _ => rfl)
  | _, _, _, _, .more h hc others, left => by
    rw [List.map_append]
    simp only [Declarator.relocateAll]
    exact .more (Item.placed h (List.cons_ne_nil _ _)) hc (Declarators.placed others left)

theorem Item.placed : ∀ {a b d vs}, Item a b d vs → b ≠ [] →
    Item (Token.placed f behind a) (Token.placed f behind b) (d.relocate f)
      (vs.map (·.relocate f))
  | _, _, _, _, .bare hn stops, left => by
    simp only [Declarator.relocate]
    exact .bare hn (stops.placed left fun _ => rfl)
  | _, _, _, _, .initial hn he h, left => by
    simp only [Declarator.relocate]
    exact .initial hn he (Expression.placed h left)

theorem Statement.placed : ∀ {a b s vs}, Statement a b s vs →
    Statement (Token.placed f behind a) (Token.placed f behind b) (s.relocate f)
      (vs.map (·.relocate f))
  | _, _, _, _, .ofFor hw ho hi hn hs hx hc hb => by
    rw [Stmt.relocate_forLoop, List.map_append, List.map_append, List.map_append]
    exact .ofFor hw ho (Initial.placed hi) (Maybe.placed hn (List.cons_ne_nil _ _)) hs
      (Maybe.placed hx (List.cons_ne_nil _ _)) hc (Statement.placed hb)
  | _, _, _, _, .ofIf hw ho h hc ht stops => by
    rw [List.map_append]
    simp only [Stmt.relocate]
    -- This reading asks that no `else` comes next, which may be the first token of what is behind.
    exact .ofIf hw ho (Expression.placed h (List.cons_ne_nil _ _)) hc (Statement.placed ht) stops.placed_else
  | _, _, _, _, .ofIfElse hw ho h hc ht he hf => by
    rw [List.map_append, List.map_append]
    simp only [Stmt.relocate]
    exact .ofIfElse hw ho (Expression.placed h (List.cons_ne_nil _ _)) hc (Statement.placed ht) he
      (Statement.placed hf)
  | _, _, _, _, .ofPrint hw h hs => by
    simp only [Stmt.relocate]
    exact .ofPrint hw (Expression.placed h (List.cons_ne_nil _ _)) hs
  | _, _, _, _, .ofReturn hw h hs => by
    rw [Stmt.relocate_returns]
    exact .ofReturn hw (Maybe.placed h (List.cons_ne_nil _ _)) hs
  | _, _, _, _, .ofWhile hw ho h hc hb => by
    rw [List.map_append]
    simp only [Stmt.relocate]
    exact .ofWhile hw ho (Expression.placed h (List.cons_ne_nil _ _)) hc (Statement.placed hb)
  | _, _, _, _, .ofBlock ho h => by
    simp only [Stmt.relocate]
    exact .ofBlock ho (Block.placed h)
  | _, _, _, _, .ofExpression h hs => by
    simp only [Stmt.relocate]
    exact .ofExpression (Expression.placed h (List.cons_ne_nil _ _)) hs

theorem Initial.placed : ∀ {a b o vs}, Initial a b o vs →
    Initial (Token.placed f behind a) (Token.placed f behind b) (o.map (·.relocate f))
      (vs.map (·.relocate f))
  | _, _, _, _, .none hs => .none hs
  | _, _, _, _, .ofVariables hw h => .ofVariables hw (Variables.placed h)
  | _, _, _, _, .ofExpression h hs => by
    simp only [Option.map_some, Stmt.relocate]
    exact .ofExpression (Expression.placed h (List.cons_ne_nil _ _)) hs

theorem Maybe.placed : ∀ {a b o vs}, Maybe a b o vs → b ≠ [] →
    Maybe (Token.placed f behind a) (Token.placed f behind b) (o.map (·.relocate f))
      (vs.map (·.relocate f))
  | _, _, _, _, .missing, _ => .missing
  | _, _, _, _, .given h, left => .given (Expression.placed h left)

theorem Block.placed : ∀ {a b body vs}, Block a b body vs →
    Block (Token.placed f behind a) (Token.placed f behind b) (Stmt.relocateAll f body)
      (vs.map (·.relocate f))
  | _, _, _, _, .mk h hc => .mk (Declarations.placed h (List.cons_ne_nil _ _)) hc

theorem Declarations.placed : ∀ {inBlock a b ss vs}, Declarations inBlock a b ss vs → b ≠ [] →
    Declarations inBlock (Token.placed f behind a) (Token.placed f behind b)
      (Stmt.relocateAll f ss) (vs.map (·.relocate f))
  | _, _, _, _, _, .ended, left => absurd rfl left
  | _, _, _, _, _, .closed hc, _ => .closed hc
  | _, _, _, _, _, .more h others, left => by
    rw [List.map_append]
    simp only [Stmt.relocateAll]
    exact .more (Declaration.placed h) (Declarations.placed others left)

end

theorem Declarations.noElse {inBlock : Bool} {a : List Token} {ss : List Stmt}
    {vs : List SyntaxError} (h : Declarations inBlock a [] ss vs) :
    Stops (Token.isKeyword .else) a := by
  cases h with
  | ended => exact stops_nil
  | more first => exact first.begins.stops_keyword fun _ _ => rfl

/-- Declarations, and those of the tokens behind them. -/
theorem Declarations.append {others : List Token} {more : List Stmt} {ws : List SyntaxError}
    (next : Declarations false others [] more ws) : ∀ {a b ss vs}, Declarations false a b ss vs →
      Declarations false (Token.placed f ⟨others, next.noElse⟩ a) [] (Stmt.relocateAll f ss ++ more)
        (vs.map (·.relocate f) ++ ws)
  -- Where the first program ends the second one is read; its first token is no `else`, so the last
  -- statement in front of it ends where it did.
  | _, _, _, _, .ended => next
  | _, _, _, _, .more h rest => by
    simp only [Stmt.relocateAll, List.map_append, List.append_assoc, List.cons_append]
    exact .more h.placed (Declarations.append next rest)

end Reading

/-- The parser is given the tokens of a text without the end token. -/
theorem Scan.untilEof_ofSource (source : String) :
    (Token.untilEof (Scan.ofSource source).tokens).1 = Scan.words source := by
  rw [Scan.tokens_ofSource, Token.untilEof_append (fun _ => Scan.isEof_of_mem_words) rfl]

/-- The tokens of two programs one behind the other, the second on other lines. -/
theorem Stmt.programOfTokens_append {tokens tokens' whole : List Token}
    {program program' : List Stmt} (h : Stmt.programOfTokens tokens = .ok program)
    (h' : Stmt.programOfTokens tokens' = .ok program')
    (both : (Token.untilEof whole).1 =
      (Token.untilEof tokens).1 ++ (Token.untilEof tokens').1.map (·.relocate f)) :
    Stmt.programOfTokens whole = .ok (program ++ Stmt.relocateAll f program') := by
  have second : Reading.Declarations false ((Token.untilEof tokens').1.map (·.relocate f)) []
      (Stmt.relocateAll f program') [] := by
    have moved := Reading.Declarations.append (f := f) .ended (Reading.Program.of_ok h')
    simpa [Token.placed] using moved
  have read : Reading.Program (Token.untilEof whole).1 (program ++ Stmt.relocateAll f program') [] := by
    have moved := Reading.Declarations.append (f := id) second (Reading.Program.of_ok h)
    rw [Stmt.relocateAll_id] at moved
    rw [both, Reading.Program]
    simpa [Token.placed] using moved
  rw [read.parsed, if_pos rfl]

end LoxLang
