import LoxLang.Proofs.Syntax.Recovery
/-!
An expression at the end of the tokens is the same expression in front of a semicolon. Where the tokens end,
every rule for expressions takes its shortest way, and so it does at a semicolon, which continues none.

What is proved:
1. a rule that makes an expression makes something of tokens only, and what it makes is not changed by a
   semicolon behind the tokens (`Grammar.Terminates`, in terms of `Parse.Shuts`);
2. so a reading up to the end is a reading up to a semicolon (`Reading.Expression.before_semicolon`);
3. an expression that stands alone and has no semicolon is printed by the statement that begins with
   `print` and ends with one (`Stmt.programOfTokens_print`).
-/
namespace LoxLang

open Grammar Parse

namespace Parse

variable {α β : Type} {rule rule' : Parse α} {cont cont' : α → Parse β} {b : List Token}
  {last : Token} {p : Token → Bool} {fault : SyntaxFault}

/-- Of tokens that something is made of, the same is made with `b` behind them. -/
theorem Closed.made {a rest : List Token} {x : α} (h : Closed b rule rule')
    (made : rule ⟨a, []⟩ = .ok x ⟨rest, []⟩) : rule' ⟨a ++ b, []⟩ = .ok x ⟨rest ++ b, []⟩ := by
  rcases h ⟨a, []⟩ [] (by rw [made]; rintro e d ⟨⟩) with out | same
  · rw [made] at out
    cases out
  · rw [made] at same
    exact same

/-- What is not there is not taken, not even at the end. -/
theorem Closed.take (stops : Stops p b) : Closed b (take? p) (take? p) := by
  rintro ⟨a, errors⟩ before _
  refine .inr ?_
  cases a with
  | cons t ts =>
    simp only [Parse.take?, List.cons_append]
    cases p t <;> rfl
  | nil =>
    cases b with
    | nil => rfl
    | cons s ss => simp [Parse.take?, Reply.within, stops s rfl]

theorem Closed.next (stops : Stops p b) : Closed b (next p) (next p) := by
  rintro ⟨a, errors⟩ before _
  refine .inr ?_
  cases a with
  | cons t ts => rfl
  | nil =>
    cases b with
    | nil => rfl
    | cons s ss => simp [Parse.next, Reply.within, stops s rfl]

theorem Closed.report {t : Token} : Closed b (report fault t) (report fault t) := by
  intro c before _
  exact .inr (by simp [Parse.report, Reply.within])

theorem Shuts.fail : Shuts b (fail last fault : Parse α) (fail last fault) where
  forward := Advances.compositional.fail last fault
  reads := nofun
  closed := by
    rintro ⟨a, errors⟩ before left
    refine .inr ?_
    cases a with
    | cons t ts => rfl
    | nil =>
      obtain rfl := (left _ _ rfl).resolve_left fun unread => unread rfl
      rfl

/-- Either the next token is taken, and that is it, or what ends here is read in front of it. -/
theorem Shuts.step {g : Token → Option α} {y : α} (steps : Steps rule g y)
    (forward : ∀ x, Advances (cont x)) (taken : ∀ t x, g t = some x → Closed b (cont x) (cont' x))
    (missing : Shuts b (cont y) (cont' y)) : Shuts b (rule >>= cont) (rule >>= cont') where
  forward := (Advances.steps steps).bind forward
  reads := by
    rintro ⟨_ | ⟨t, ts⟩, errors⟩ x d made
    · rw [bind_apply, (steps errors).1] at made
      exact missing.reads _ x d made
    · exact List.cons_ne_nil t ts
  closed := by
    rintro ⟨a, errors⟩ before left
    rw [bind_apply] at left ⊢
    rw [bind_apply]
    cases a with
    | cons t ts =>
      dsimp only [List.cons_append]
      rw [(steps errors).2] at left ⊢
      rw [(steps (before ++ errors)).2]
      cases found : g t with
      | some x =>
        rw [found] at left
        exact taken t x found ⟨ts, errors⟩ before left
      | none =>
        rw [found] at left
        exact missing.closed ⟨t :: ts, errors⟩ before left
    | nil =>
      rw [(steps errors).1] at left ⊢
      dsimp only at left ⊢
      -- Of no token nothing is made, and a fault is one at the end.
      cases ends : cont y ⟨[], errors⟩ with
      | starved => exact .inl rfl
      | ok x d => exact absurd rfl (missing.reads _ x d ends)
      | fail e d =>
        have within := missing.forward ⟨[], errors⟩ d (by rw [ends]; rfl)
        obtain rfl := (left e d ends).resolve_left fun unread =>
          unread (List.suffix_nil.mp within)
        have same := (missing.closed ⟨[], errors⟩ before fun _ _ _ => .inr rfl).resolve_left
          (by rw [ends]; nofun)
        rw [ends] at same
        refine .inr ?_
        rw [List.append_nil, (steps (before ++ errors)).1]
        exact same

end Parse

namespace Grammar

section

variable (b : List Token) (last : Token)

/-- The rules for expressions at one depth and at another, with `b` behind the tokens for the second. -/
structure Terminates (n k : Nat) : Prop where
  expression : Parse.Shuts b (expression last n) (expression last k)
  lambda : Parse.Shuts b (lambda last n) (lambda last k)
  lambdaBody : Parse.Shuts b (lambdaBody last n) (lambdaBody last k)
  ternary : Parse.Shuts b (ternary last n) (ternary last k)
  operation (level : Level) : Parse.Shuts b (operation last n level) (operation last k level)
  operand (level : Level) : Parse.Shuts b (operand last n level) (operand last k level)
  moreOperation (level : Level) (left : Expr) :
    Parse.Closed b (moreOperation last n level left) (moreOperation last k level left)
  unary : Parse.Shuts b (unary last n) (unary last k)
  moreCall (callee : Expr) : Parse.Closed b (moreCall last n callee) (moreCall last k callee)
  moreArguments (count : Nat) :
    Parse.Shuts b (moreArguments last n count) (moreArguments last k count)
  primary : Parse.Shuts b (primary last n) (primary last k)

theorem Terminates.zero (k : Nat) : Terminates b last 0 k where
  expression := .starved
  lambda := .starved
  lambdaBody := .starved
  ternary := .starved
  operation _ := .starved
  operand _ := .starved
  moreOperation _ _ := Shuts.starved.closed
  unary := .starved
  moreCall _ := Shuts.starved.closed
  moreArguments _ := .starved
  primary := .starved

end

variable {b : List Token} {last : Token} {n k : Nat}

abbrev Semicolons (b : List Token) : Prop := ∀ t ∈ b.head?, t.isSymbol .semicolon = true

theorem Semicolons.stops (ends : Semicolons b) {p : Token → Bool}
    (leaves : ∀ lexeme line, p ⟨.symbol .semicolon, lexeme, line⟩ = false) : Stops p b :=
  fun t first => Token.isSymbol_elim (ends t first) leaves

theorem expression_terminates (ends : Semicolons b) (h : Terminates b last n k) :
    Parse.Shuts b (expression last (n + 1)) (expression last (k + 1)) := by
  unfold expression
  have forward := advances last n
  refine h.lambda.before (fun target => ?_) fun target => .bind (.take (ends.stops fun _ _ => rfl))
    fun equals => ?_
  · refine .bind Advances.compositional.take fun equals => ?_
    split
    · exact Advances.compositional.pure _
    · refine forward.expression.bind fun value => ?_
      split
      · exact Advances.compositional.pure _
      · exact Advances.compositional.pure _
      · exact (Advances.compositional.report _ _).bind fun _ => Advances.compositional.pure _
  · split
    · exact .pure
    · refine h.expression.closed.bind fun value => ?_
      split
      · exact .pure
      · exact .pure
      · exact .bind .report fun _ => .pure

theorem lambda_terminates (e : Apart b last n k) (h : Terminates b last n k) :
    Parse.Shuts b (lambda last (n + 1)) (lambda last (k + 1)) := by
  have good := Parse.Local.compositional b
  unfold lambda
  refine .after good.take fun keyword => ?_
  split
  · exact h.ternary
  · exact .after good.expect fun _ => .after (params_every good e) fun _ => h.lambdaBody.map

theorem lambdaBody_terminates (block : Parse.Shuts b (block last n) (block last k))
    (h : Terminates b last n k) :
    Parse.Shuts b (lambdaBody last (n + 1)) (lambdaBody last (k + 1)) := by
  have good := Parse.Local.compositional b
  unfold lambdaBody
  have value : Parse.Shuts b (valueBody last n) (valueBody last k) :=
    .after good.peek fun _ => h.expression.map
  refine .after good.accept fun braces => ?_
  split
  · exact block
  · refine .after good.take fun keyword => ?_
    dsimp only
    split
    · exact .after (good.report _ _) fun _ => value
    · exact value

theorem ternary_terminates (ends : Semicolons b) (h : Terminates b last n k) :
    Parse.Shuts b (ternary last (n + 1)) (ternary last (k + 1)) := by
  unfold ternary
  refine (h.operation _).before (fun condition => ?_) fun condition =>
    .bind (.accept (ends.stops fun _ _ => rfl)) fun choice => ?_
  · refine .bind Advances.compositional.accept fun choice => ?_
    split
    · exact h.ternary.forward.bind fun _ => .bind Advances.compositional.expect fun _ =>
        h.ternary.map.forward
    · exact Advances.compositional.pure _
  · split
    · exact h.ternary.closed.bind fun _ => Shuts.expect.closed.bind fun _ => h.ternary.map.closed
    · exact .pure

theorem operation_terminates (h : Terminates b last n k) (level : Level) :
    Parse.Shuts b (operation last (n + 1) level) (operation last (k + 1) level) :=
  (h.operand level).before (fun left => (advances last n).moreOperation level left) fun left =>
    h.moreOperation level left

theorem operand_terminates (h : Terminates b last n k) (level : Level) :
    Parse.Shuts b (operand last (n + 1) level) (operand last (k + 1) level) := by
  unfold operand
  split
  · exact h.operation _
  · exact h.unary

theorem moreOperation_terminates (ends : Semicolons b) (h : Terminates b last n k) (level : Level)
    (left : Expr) : Parse.Closed b (moreOperation last (n + 1) level left)
      (moreOperation last (k + 1) level left) := by
  unfold moreOperation
  refine .bind (.take (ends.stops fun _ _ => by cases level <;> rfl)) fun op => ?_
  split
  · exact .pure
  · exact (h.operand level).closed.bind fun _ => h.moreOperation level _

theorem unary_terminates (h : Terminates b last n k) :
    Parse.Shuts b (unary last (n + 1)) (unary last (k + 1)) := by
  unfold unary
  refine .after (Parse.Local.compositional b).take fun op => ?_
  split
  · exact h.unary.map
  · exact h.primary.before (fun callee => (advances last n).moreCall callee) h.moreCall

theorem moreCall_terminates (ends : Semicolons b) (h : Terminates b last n k) (callee : Expr) :
    Parse.Closed b (moreCall last (n + 1) callee) (moreCall last (k + 1) callee) := by
  unfold moreCall
  have rest (values : List Expr) :
      Parse.Closed b (closeCall last n callee values) (closeCall last k callee values) :=
    Shuts.expect.closed.bind fun _ => h.moreCall _
  refine .bind (.accept (ends.stops fun _ _ => rfl)) fun call => ?_
  split
  · refine .bind (.next (ends.stops fun _ _ => rfl)) fun empty => ?_
    dsimp only
    split
    · exact .bind .pure rest
    · exact (h.moreArguments 0).closed.bind rest
  · refine .bind (.accept (ends.stops fun _ _ => rfl)) fun property => ?_
    split
    · exact Shuts.expect.closed.bind fun _ => h.moreCall _
    · exact .pure

theorem counted_terminates {α : Type} {fault : SyntaxFault} {count : Nat} {rule rule' : Parse α}
    (h : Parse.Shuts b rule rule') :
    Parse.Shuts b (counted last fault count rule) (counted last fault count rule') := by
  have good := Parse.Local.compositional b
  unfold counted
  dsimp only
  split
  · exact .after good.peek fun _ => .after (good.report _ _) fun _ => h
  · exact h

theorem moreArguments_terminates (ends : Semicolons b) (h : Terminates b last n k) (count : Nat) :
    Parse.Shuts b (moreArguments last (n + 1) count) (moreArguments last (k + 1) count) := by
  rw [moreArguments_eq, moreArguments_eq]
  have rest : Parse.Shuts b (argumentsFrom last n count) (argumentsFrom last k count) := by
    refine h.expression.before (fun value => ?_) fun value =>
      .bind (.accept (ends.stops fun _ _ => rfl)) fun more => ?_
    · refine .bind Advances.compositional.accept fun more => ?_
      split
      · exact (h.moreArguments _).map.forward
      · exact Advances.compositional.pure _
    · split
      · exact (h.moreArguments _).map.closed
      · exact .pure
  exact counted_terminates rest

theorem primary_terminates (e : Apart b last n k) :
    Parse.Shuts b (primary last (n + 1)) (primary last (k + 1)) := by
  have good := Parse.Local.compositional b
  unfold primary
  have missing : Parse.Shuts b (group last n) (group last k) := by
    refine .after good.accept fun opened => ?_
    split
    · exact .after e.expression fun _ => Shuts.expect.map
    · exact .fail
  -- An atom is all there is to read; without one, the parenthesis is what has to be there.
  refine .step steps_atom (fun found => ?_) (fun t found same => ?_) missing
  · cases found with
    | some e => exact Advances.compositional.pure e
    | none => exact missing.forward
  · obtain ⟨e, _, rfl⟩ := Option.map_eq_some_iff.mp same
    exact .pure

/-- At the end of the tokens every rule for expressions does what it does in front of a semicolon. -/
theorem terminates (ends : Semicolons b) (last : Token) : ∀ n k, n ≤ k → Terminates b last n k
  | 0, k, _ => .zero b last k
  | n + 1, k + 1, le =>
    have le := Nat.le_of_succ_le_succ le
    have h := terminates ends last n k le
    have e := locality b last le
    { expression := expression_terminates ends h
      lambda := lambda_terminates e h
      lambdaBody := lambdaBody_terminates (shuts (ends.stops fun _ _ => rfl) last n k le).block h
      ternary := ternary_terminates ends h
      operation := operation_terminates h
      operand := operand_terminates h
      moreOperation := moreOperation_terminates ends h
      unary := unary_terminates h
      moreCall := moreCall_terminates ends h
      moreArguments := moreArguments_terminates ends h
      primary := primary_terminates e }

end Grammar

/-! Expressions and statements that print them -/

open Reading

variable {a tokens : List Token} {e : Expr} {word semicolon : Token}

/-- With a depth that suffices the rule makes the tree of the reading. -/
theorem Reading.Expression.made {b : List Token} (h : Expression a b e []) (last : Token) {n : Nat}
    (deep : 32 * a.length + 17 ≤ n) : expression last n ⟨a, []⟩ = .ok e ⟨b, []⟩ :=
  ((h.follows last n) []).resolve_left (((settles last n).expression a deep).ends [])

theorem Reading.Expression.suffix {b : List Token} (h : Expression a b e []) : b <:+ a :=
  (advances (.eof 1) _).expression ⟨a, []⟩ ⟨b, []⟩
    (congrArg Reply.cursor? (h.made (.eof 1) (Nat.le_refl _)))

/-- What is read up to the end is read up to a semicolon. -/
theorem Reading.Expression.before_semicolon (h : Expression a [] e [])
    (hs : semicolon.isSymbol .semicolon = true) :
    Expression (a ++ [semicolon]) [semicolon] e [] := by
  have ends : Semicolons [semicolon] := by
    rintro t ⟨⟩
    exact hs
  -- A depth that suffices with the semicolon and so without it; its size does not matter.
  obtain ⟨n, deep⟩ : ∃ n, 32 * (a ++ [semicolon]).length + 17 ≤ n := ⟨_, Nat.le_refl _⟩
  have alone : expression semicolon n ⟨a, []⟩ = .ok e ⟨[], []⟩ := by
    refine h.made semicolon (Nat.le_trans ?_ deep)
    simp only [List.length_append]
    omega
  have made := (terminates ends semicolon n n (Nat.le_refl n)).expression.closed.made alone
  have settled := (settles semicolon n).expression (a ++ [semicolon]) deep []
  rw [made] at settled
  exact settled.2.2 rfl

/-- Tokens that are an expression up to the end are printed by the statement that says so. -/
theorem Stmt.programOfTokens_print (h : Expression a [] e []) (hw : word.isKeyword .print = true)
    (hs : semicolon.isSymbol .semicolon = true)
    (front : (Token.untilEof tokens).1 = word :: (a ++ [semicolon])) :
    Stmt.programOfTokens tokens = .ok [.print e] := by
  have read : Program (Token.untilEof tokens).1 [.print e] [] := by
    rw [front]
    exact .more (.statement (.ofPrint hw (h.before_semicolon hs) hs)) .ended
  rw [read.parsed, if_pos rfl]

end LoxLang
