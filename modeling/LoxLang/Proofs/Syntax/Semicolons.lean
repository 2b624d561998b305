import LoxLang.Proofs.Syntax.Acceptance
import LoxLang.Proofs.Syntax.Advancing
/-!
Faults in front of a semicolon. In tokens that end with their only semicolon and open no braces, a rule that
does not end a statement never takes the semicolon (`Parse.Stays`); a fault that stops a rule is in front of
it or at it (`Parse.Breaks`), so that reading resumes at the semicolon's end at the latest
(`Single.resume_append`).
-/
namespace LoxLang

open Grammar Parse

/-- Tokens with one semicolon, the last token, that open no braces and have no `for`. -/
inductive Single : List Token → Prop
  | semicolon {t : Token} (ends : t.isSymbol .semicolon = true) : Single [t]
  | more {t : Token} {ts : List Token} (within : t.isSymbol .semicolon = false)
    (opens : t.isSymbol .leftBrace = false) (loops : t.isKeyword .for = false) (rest : Single ts) :
    Single (t :: ts)

namespace Single

variable {a b : List Token} {t : Token}

theorem ne_nil (h : Single a) : a ≠ [] := by
  rintro rfl
  cases h

theorem of_cons (h : Single (t :: a)) (within : t.isSymbol .semicolon = false) : Single a := by
  cases h with
  | semicolon ends => simp [ends] at within
  | more _ _ _ rest => exact rest

theorem not_opens (h : Single (t :: a)) : t.isSymbol .leftBrace = false := by
  cases h with
  | semicolon ends => exact Token.isSymbol_elim ends fun _ _ => rfl
  | more _ opens _ _ => exact opens

theorem not_loops (h : Single (t :: a)) : t.isKeyword .for = false := by
  cases h with
  | semicolon ends => exact Token.isSymbol_elim ends fun _ _ => rfl
  | more _ _ loops _ => exact loops

theorem suffix (h : Single a) : b <:+ a → b = [] ∨ Single b := by
  induction h with
  | semicolon ends =>
    intro inside
    rcases List.suffix_cons_iff.mp inside with rfl | inside
    · exact .inr (.semicolon ends)
    · exact .inl (List.suffix_nil.mp inside)
  | more within opens loops rest ih =>
    intro inside
    rcases List.suffix_cons_iff.mp inside with rfl | inside
    · exact .inr (.more within opens loops rest)
    · exact ih inside

/-- Behind a token that is given up the next boundary is in front of the end or at it. -/
theorem resumeAfter_append (h : Single a) (previous : Token) (b : List Token) :
    resumeAfter previous (a ++ b) = resumeAfter previous a ++ b := by
  induction h generalizing previous with
  | @semicolon t ends =>
    have behind : resumeAfter t b = b := by
      cases b with
      | nil => rfl
      | cons s ss => rw [resumeAfter, ends, Bool.true_or, if_pos rfl]
    rw [List.cons_append, List.nil_append, resumeAfter, resumeAfter]
    split
    · rfl
    · rw [behind]
      rfl
  | @more t ts _ _ _ _ ih =>
    rw [List.cons_append, resumeAfter, resumeAfter]
    split
    · rfl
    · exact ih t

theorem resume_append (h : Single a) (b : List Token) : resume (a ++ b) = resume a ++ b := by
  cases h with
  | @semicolon t ends =>
    cases b with
    | nil => rfl
    | cons s ss =>
      rw [List.cons_append, List.nil_append, resume, resumeAfter, ends, Bool.true_or, if_pos rfl]
      rfl
  | more _ _ _ rest => exact rest.resumeAfter_append _ b

end Single

namespace Parse

variable {α β : Type} {rule : Parse α} {cont : α → Parse β} {last : Token} {p : Token → Bool}
  {fault : SyntaxFault}

def Stays (rule : Parse α) : Prop :=
  ∀ a errors d, Single a → (rule ⟨a, errors⟩).cursor? = some d → Single d.rest

/-- If the rule fails it does so in front of the semicolon. -/
def Breaks (rule : Parse α) : Prop :=
  ∀ a errors e d, Single a → rule ⟨a, errors⟩ = .fail e d → Single d.rest

theorem Stays.starved : Stays (starved : Parse α) := nofun

theorem Stays.pure {x : α} : Stays (pure x) := by
  rintro a errors d single ⟨⟩
  exact single

theorem Stays.bind (h : Stays rule) (h' : ∀ x, Stays (cont x)) : Stays (rule >>= cont) := by
  intro a errors d single ended
  rw [bind_apply] at ended
  have first := h a errors
  cases made : rule ⟨a, errors⟩ with
  | ok x e =>
    rw [made] at first ended
    exact h' x _ _ d (first e single rfl) ended
  | fail e f =>
    rw [made] at first ended
    exact first d single ended
  | starved =>
    rw [made] at ended
    cases ended

theorem Stays.report {t : Token} : Stays (report fault t) := by
  rintro a errors d single ⟨⟩
  exact single

theorem Stays.fail : Stays (fail last fault : Parse α) := by
  rintro a errors d single ⟨⟩
  exact single

theorem Stays.looks {g : Option Token → α} (h : Looks rule g) : Stays rule := by
  intro a errors d single ended
  rw [h] at ended
  cases ended
  exact single

theorem Stays.steps {g : Token → Option α} {y : α} (h : Steps rule g y)
    (leaves : ∀ lexeme line, g ⟨.symbol .semicolon, lexeme, line⟩ = none) : Stays rule := by
  intro a errors d single ended
  cases a with
  | nil => exact absurd rfl single.ne_nil
  | cons t ts =>
    rw [(h errors).2] at ended
    cases made : g t with
    | none =>
      rw [made] at ended
      cases ended
      exact single
    | some x =>
      rw [made] at ended
      cases ended
      refine single.of_cons (Token.not_isSymbol (p := fun t => (g t).isSome) ?_ ?_)
      · rw [made]
        rfl
      · intro lexeme line
        rw [leaves]
        rfl

theorem Stays.next : Stays (next p) := .looks (looks_next p)

theorem Stays.peek : Stays (peek last) := .looks (looks_peek last)

theorem Stays.take (leaves : ∀ lexeme line, p ⟨.symbol .semicolon, lexeme, line⟩ = false) :
    Stays (take? p) :=
  .steps (steps_take p) fun _ _ => by rw [leaves, if_neg (by decide)]

theorem Stays.accept (leaves : ∀ lexeme line, p ⟨.symbol .semicolon, lexeme, line⟩ = false) :
    Stays (accept p) :=
  .steps (steps_accept p) fun _ _ => by rw [leaves, if_neg (by decide)]

theorem Stays.expect (leaves : ∀ lexeme line, p ⟨.symbol .semicolon, lexeme, line⟩ = false) :
    Stays (expect last p fault) := by
  rw [expect_eq]
  refine .bind (.take leaves) fun found => ?_
  cases found with
  | some t => exact .pure
  | none => exact .fail

theorem accept_missing {cont : Bool → Parse β} {a : List Token} {errors : List SyntaxError}
    (single : Single a) (missing : ∀ t ts, Single (t :: ts) → p t = false) :
    (accept p >>= cont) ⟨a, errors⟩ = cont false ⟨a, errors⟩ := by
  cases a with
  | nil => exact absurd rfl single.ne_nil
  | cons t ts =>
    simp [bind_apply, Parse.accept, missing t ts single]

theorem Stays.opening {cont : Token → Parse β} :
    Stays (Parse.expect last (Token.isSymbol .leftBrace) fault >>= cont) := by
  intro a errors d single ended
  cases a with
  | nil => exact absurd rfl single.ne_nil
  | cons t ts =>
    simp only [bind_apply, Parse.expect, single.not_opens, Bool.false_eq_true, if_false] at ended
    cases ended
    exact single

theorem Stays.missing {cont : Bool → Parse β} (missing : ∀ t ts, Single (t :: ts) → p t = false)
    (h : Stays (cont false)) : Stays (Parse.accept p >>= cont) := by
  intro a errors d single ended
  rw [accept_missing single missing] at ended
  exact h a errors d single ended

theorem Stays.breaks (h : Stays rule) : Breaks rule := by
  intro a errors e d single failed
  refine h a errors d single ?_
  rw [failed]
  rfl

theorem Breaks.after (h : Stays rule) (h' : ∀ x, Breaks (cont x)) : Breaks (rule >>= cont) := by
  intro a errors e d single failed
  rw [bind_apply] at failed
  have first := h a errors
  cases made : rule ⟨a, errors⟩ with
  | ok x f =>
    rw [made] at first failed
    exact h' x _ _ e d (first f single rfl) failed
  | fail e' f =>
    rw [made] at first failed
    cases failed
    exact first d single rfl
  | starved =>
    rw [made] at failed
    cases failed

theorem Breaks.missing {cont : Bool → Parse β} (missing : ∀ t ts, Single (t :: ts) → p t = false)
    (h : Breaks (cont false)) : Breaks (Parse.accept p >>= cont) := by
  intro a errors e d single failed
  rw [accept_missing single missing] at failed
  exact h a errors e d single failed

theorem Breaks.map (h : Breaks rule) {f : α → β} : Breaks (rule >>= fun x => Pure.pure (f x)) := by
  intro a errors e d single failed
  rw [bind_apply] at failed
  have first := h a errors
  cases made : rule ⟨a, errors⟩ with
  | ok x g =>
    rw [made] at failed
    cases failed
  | fail e' g =>
    rw [made] at first failed
    cases failed
    exact first e d single rfl
  | starved =>
    rw [made] at failed
    cases failed

theorem Breaks.expect : Breaks (Parse.expect last p fault) := by
  intro a errors e d single failed
  cases a with
  | nil => exact absurd rfl single.ne_nil
  | cons t ts =>
    simp only [Parse.expect] at failed
    split at failed
    · cases failed
    · cases failed
      exact single

end Parse

namespace Grammar

section

variable (last : Token)

/-- At this depth the rules that do not end a statement stay in front of the semicolon, and the others fail
in front of it. -/
structure Stays (n : Nat) : Prop where
  moreParams (count : Nat) : Parse.Stays (moreParams last n count)
  expression : Parse.Stays (expression last n)
  lambda : Parse.Stays (lambda last n)
  lambdaBody : Parse.Stays (lambdaBody last n)
  ternary : Parse.Stays (ternary last n)
  operation (level : Level) : Parse.Stays (operation last n level)
  operand (level : Level) : Parse.Stays (operand last n level)
  moreOperation (level : Level) (left : Expr) : Parse.Stays (moreOperation last n level left)
  unary : Parse.Stays (unary last n)
  moreCall (callee : Expr) : Parse.Stays (moreCall last n callee)
  moreArguments (count : Nat) : Parse.Stays (moreArguments last n count)
  primary : Parse.Stays (primary last n)
  declarators : Parse.Stays (declarators last n)
  classRule : Parse.Stays (classRule last n)
  function (callee : Callee) : Parse.Stays (function last n callee)
  declarationRule : Breaks (declarationRule last n)
  varRule : Breaks (varRule last n)
  statement : Breaks (statement last n)
  ifRule : Breaks (ifRule last n)
  returnRule (keyword : Token) : Breaks (returnRule last n keyword)
  whileRule : Breaks (whileRule last n)
  expressionRule : Breaks (expressionRule last n)

theorem Stays.zero : Stays last 0 := by
  constructor <;> intros <;> first | exact .starved | exact Parse.Stays.starved.breaks

variable {last} {n : Nat}

theorem counted_stays {α : Type} {fault : SyntaxFault} {count : Nat} {rule : Parse α}
    (h : Parse.Stays rule) : Parse.Stays (counted last fault count rule) := by
  unfold counted
  dsimp only
  split
  · exact .bind .peek fun _ => .bind .report fun _ => h
  · exact h

theorem moreParams_stays (h : Stays last n) (count : Nat) :
    Parse.Stays (moreParams last (n + 1) count) := by
  rw [moreParams_eq]
  have rest : Parse.Stays (paramsFrom last n count) := by
    refine .bind (.expect fun _ _ => rfl) fun name => .bind (.accept fun _ _ => rfl) fun more => ?_
    split
    · exact (h.moreParams _).bind fun _ => .pure
    · exact .pure
  exact counted_stays rest

theorem params_stays (h : Stays last n) : Parse.Stays (params last n) := by
  unfold params
  have rest (names : List Token) : Parse.Stays (closeParams last names) :=
    .bind (.expect fun _ _ => rfl) fun _ => .pure
  refine .bind .next fun empty => ?_
  dsimp only
  split
  · exact .bind .pure rest
  · exact (h.moreParams 0).bind rest

theorem expression_stays (h : Stays last n) : Parse.Stays (expression last (n + 1)) := by
  unfold expression
  refine h.lambda.bind fun target => .bind (.take fun _ _ => rfl) fun equals => ?_
  split
  · exact .pure
  · refine h.expression.bind fun value => ?_
    split
    · exact .pure
    · exact .pure
    · exact .bind .report fun _ => .pure

theorem lambda_stays (h : Stays last n) : Parse.Stays (lambda last (n + 1)) := by
  unfold lambda
  refine .bind (.take fun _ _ => rfl) fun keyword => ?_
  split
  · exact h.ternary
  · exact .bind (.expect fun _ _ => rfl) fun _ => (params_stays h).bind fun _ =>
      h.lambdaBody.bind fun _ => .pure

theorem lambdaBody_stays (h : Stays last n) : Parse.Stays (lambdaBody last (n + 1)) := by
  unfold lambdaBody
  refine .missing (fun _ _ => Single.not_opens) (.bind (.take fun _ _ => rfl) fun keyword => ?_)
  have rest : Parse.Stays (valueBody last n) :=
    .bind .peek fun _ => h.expression.bind fun _ => .pure
  dsimp only
  split
  · exact .bind .report fun _ => rest
  · exact rest

theorem ternary_stays (h : Stays last n) : Parse.Stays (ternary last (n + 1)) := by
  unfold ternary
  refine (h.operation _).bind fun condition => .bind (.accept fun _ _ => rfl) fun choice => ?_
  split
  · exact h.ternary.bind fun _ => .bind (.expect fun _ _ => rfl) fun _ =>
      h.ternary.bind fun _ => .pure
  · exact .pure

theorem operation_stays (h : Stays last n) (level : Level) :
    Parse.Stays (operation last (n + 1) level) :=
  (h.operand level).bind fun left => h.moreOperation level left

theorem operand_stays (h : Stays last n) (level : Level) :
    Parse.Stays (operand last (n + 1) level) := by
  unfold operand
  split
  · exact h.operation _
  · exact h.unary

theorem moreOperation_stays (h : Stays last n) (level : Level) (left : Expr) :
    Parse.Stays (moreOperation last (n + 1) level left) := by
  unfold moreOperation
  refine .bind (.take fun _ _ => by cases level <;> rfl) fun op => ?_
  split
  · exact .pure
  · exact (h.operand level).bind fun _ => h.moreOperation level _

theorem unary_stays (h : Stays last n) : Parse.Stays (unary last (n + 1)) := by
  unfold unary
  refine .bind (.take fun _ _ => rfl) fun op => ?_
  split
  · exact h.unary.bind fun _ => .pure
  · exact h.primary.bind fun callee => h.moreCall callee

theorem moreCall_stays (h : Stays last n) (callee : Expr) :
    Parse.Stays (moreCall last (n + 1) callee) := by
  unfold moreCall
  have rest (values : List Expr) : Parse.Stays (closeCall last n callee values) :=
    .bind (.expect fun _ _ => rfl) fun _ => h.moreCall _
  refine .bind (.accept fun _ _ => rfl) fun call => ?_
  split
  · refine .bind .next fun empty => ?_
    dsimp only
    split
    · exact .bind .pure rest
    · exact (h.moreArguments 0).bind rest
  · refine .bind (.accept fun _ _ => rfl) fun property => ?_
    split
    · exact .bind (.expect fun _ _ => rfl) fun _ => h.moreCall _
    · exact .pure

theorem moreArguments_stays (h : Stays last n) (count : Nat) :
    Parse.Stays (moreArguments last (n + 1) count) := by
  rw [moreArguments_eq]
  have rest : Parse.Stays (argumentsFrom last n count) := by
    refine h.expression.bind fun value => .bind (.accept fun _ _ => rfl) fun more => ?_
    split
    · exact (h.moreArguments _).bind fun _ => .pure
    · exact .pure
  exact counted_stays rest

theorem primary_stays (h : Stays last n) : Parse.Stays (primary last (n + 1)) := by
  unfold primary
  refine .bind (.steps steps_atom fun _ _ => rfl) fun found => ?_
  split
  · exact .pure
  · refine .bind (.accept fun _ _ => rfl) fun group => ?_
    split
    · exact h.expression.bind fun _ => .bind (.expect fun _ _ => rfl) fun _ => .pure
    · exact .fail

theorem declarators_stays (h : Stays last n) : Parse.Stays (declarators last (n + 1)) := by
  unfold declarators
  refine .bind (.expect fun _ _ => rfl) fun name => ?_
  have rest (first : Declarator) : Parse.Stays (declaratorsBehind last n first) := by
    refine .bind (.accept fun _ _ => rfl) fun more => ?_
    split
    · exact h.declarators.bind fun _ => .pure
    · exact .pure
  refine .bind (.accept fun _ _ => rfl) fun equals => ?_
  dsimp only
  split
  · exact h.expression.bind fun _ => .bind .pure fun _ => rest _
  · exact .bind .pure fun _ => rest _

theorem classRule_stays : Parse.Stays (classRule last (n + 1)) :=
  .bind (.expect fun _ _ => rfl) fun _ => .opening

theorem function_stays (h : Stays last n) (callee : Callee) :
    Parse.Stays (function last (n + 1) callee) :=
  .bind (.expect fun _ _ => rfl) fun _ => .bind (.expect fun _ _ => rfl) fun _ =>
    (params_stays h).bind fun _ => .opening

theorem declarationRule_breaks (h : Stays last n) : Breaks (declarationRule last (n + 1)) := by
  unfold declarationRule
  refine .after (.accept fun _ _ => rfl) fun isClass => ?_
  split
  · exact h.classRule.breaks
  refine .after (.accept fun _ _ => rfl) fun isFunction => ?_
  split
  · exact (h.function _).breaks.map
  refine .after (.accept fun _ _ => rfl) fun isVariable => ?_
  split
  · exact h.varRule
  · exact h.statement

theorem breaks_semicolon {α : Type} {fault : SyntaxFault} {x : α} : Breaks (do
    let _ ← expect last (Token.isSymbol .semicolon) fault
    pure x) :=
  Breaks.expect.map

theorem varRule_breaks (h : Stays last n) : Breaks (varRule last (n + 1)) := by
  unfold varRule
  refine .after h.declarators fun ⟨first, others⟩ => ?_
  cases others with
  | nil => exact breaks_semicolon
  | cons => exact breaks_semicolon

theorem statement_breaks (h : Stays last n) : Breaks (statement last (n + 1)) := by
  unfold statement
  refine .missing (fun _ _ => Single.not_loops) ?_
  refine .after (.accept fun _ _ => rfl) fun isIf => ?_
  split
  · exact h.ifRule
  refine .after (.accept fun _ _ => rfl) fun isPrint => ?_
  split
  · exact .after h.expression fun _ => breaks_semicolon
  refine .after (.take fun _ _ => rfl) fun isReturn => ?_
  split
  · exact h.returnRule _
  refine .after (.accept fun _ _ => rfl) fun isWhile => ?_
  split
  · exact h.whileRule
  · exact .missing (fun _ _ => Single.not_opens) h.expressionRule

theorem returnRule_breaks (h : Stays last n) (keyword : Token) :
    Breaks (returnRule last (n + 1) keyword) := by
  unfold returnRule
  refine .after .next fun missing => ?_
  dsimp only
  split
  · exact .after .pure fun _ => breaks_semicolon
  · exact .after h.expression fun _ => .after .pure fun _ => breaks_semicolon

theorem whileRule_breaks (h : Stays last n) : Breaks (whileRule last (n + 1)) :=
  .after (.expect fun _ _ => rfl) fun _ => .after h.expression fun _ =>
    .after (.expect fun _ _ => rfl) fun _ => h.statement.map

theorem expressionRule_breaks (h : Stays last n) : Breaks (expressionRule last (n + 1)) :=
  .after h.expression fun _ => breaks_semicolon

/-- Behind the branch of an `if` the tokens are over, or there is an `else` in front of the semicolon. -/
theorem ifRule_breaks (h : Stays last n) : Breaks (ifRule last (n + 1)) := by
  unfold ifRule
  refine .after (.expect fun _ _ => rfl) fun _ => .after h.expression fun condition =>
    .after (.expect fun _ _ => rfl) fun _ => ?_
  intro a errors e d single failed
  have forward := (advances last n).statement ⟨a, errors⟩
  rw [bind_apply] at failed
  cases made : statement last n ⟨a, errors⟩ with
  | starved =>
    rw [made] at failed
    cases failed
  | fail e' f =>
    rw [made] at failed
    cases failed
    exact h.statement a errors e d single made
  | ok whenTrue f =>
    rw [made] at failed forward
    dsimp only at failed
    obtain ⟨rest, noted⟩ := f
    rcases single.suffix (forward _ rfl) with rfl | inside
    · cases failed
    · refine (Breaks.after (.accept fun _ _ => rfl) fun otherwise => ?_) rest noted e d inside failed
      split
      · exact h.statement.map
      · exact Parse.Stays.pure.breaks

/-- Every rule that does not end a statement stays in front of the semicolon. -/
theorem stays (last : Token) : ∀ n, Stays last n
  | 0 => .zero last
  | n + 1 =>
    have h := stays last n
    { moreParams := moreParams_stays h
      expression := expression_stays h
      lambda := lambda_stays h
      lambdaBody := lambdaBody_stays h
      ternary := ternary_stays h
      operation := operation_stays h
      operand := operand_stays h
      moreOperation := moreOperation_stays h
      unary := unary_stays h
      moreCall := moreCall_stays h
      moreArguments := moreArguments_stays h
      primary := primary_stays h
      declarators := declarators_stays h
      classRule := classRule_stays
      function := function_stays h
      declarationRule := declarationRule_breaks h
      varRule := varRule_breaks h
      statement := statement_breaks h
      ifRule := ifRule_breaks h
      returnRule := returnRule_breaks h
      whileRule := whileRule_breaks h
      expressionRule := expressionRule_breaks h }

end

end Grammar

end LoxLang
