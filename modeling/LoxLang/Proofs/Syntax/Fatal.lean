import LoxLang.Proofs.Syntax.Reading
import LoxLang.Proofs.Syntax.Uniform
/-!
Faults that stop a rule, and faults that are only noted. A fatal fault is one a rule fails with; the
declaration around it is given up. The others are noted while reading goes on, and they are all that
readings have (`Reading.Declarations.mild`).

`Parse.Keeps` says that a rule does not take back the first fatal fault; it is closed under the ways rules
are put together, and holds of all rules at every depth (`Grammar.keeps`).
-/
namespace LoxLang

/-- Whether the rule that finds the fault fails with it. -/
def SyntaxFault.fatal : SyntaxFault → Bool
  | tooManyParams | tooManyArguments | assignmentTarget | lambdaReturn | trailing => false
  | _ => true

def firstFatal? (errors : List SyntaxError) : Option SyntaxError := errors.find? (·.fault.fatal)

section

variable {vs ws : List SyntaxError} {e f : SyntaxError}

@[simp]
theorem firstFatal?_append : firstFatal? (vs ++ ws) = (firstFatal? vs).or (firstFatal? ws) :=
  List.find?_append

theorem firstFatal?_append_mild (mild : firstFatal? ws = none) :
    firstFatal? (vs ++ ws) = firstFatal? vs := by
  rw [firstFatal?_append, mild, Option.or_none]

theorem firstFatal?_kept (h : firstFatal? vs = some f) : firstFatal? (vs ++ ws) = some f := by
  rw [firstFatal?_append, h]
  rfl

theorem firstFatal?_noted (h : firstFatal? vs = none) (fatal : e.fault.fatal = true) :
    firstFatal? (vs ++ [e]) = some e := by
  rw [firstFatal?_append, h, firstFatal?, List.find?_singleton, if_pos fatal]
  rfl

theorem firstFatal?_mild (mild : e.fault.fatal = false) : firstFatal? [e] = none := by
  rw [firstFatal?, List.find?_singleton, if_neg (by rw [mild]; decide)]

end

namespace Reading

open Grammar

variable {vs ws : List SyntaxError}

def Mild (vs : List SyntaxError) : Prop := firstFatal? vs = none

theorem mild_nil : Mild [] := rfl

theorem Mild.append (h : Mild vs) (h' : Mild ws) : Mild (vs ++ ws) :=
  (firstFatal?_append_mild h').trans h

theorem Mild.cons (h : Mild vs) {e : SyntaxError} (mild : e.fault.fatal = false) : Mild (e :: vs) :=
  Mild.append (firstFatal?_mild mild : Mild [e]) h

theorem mild_excess {fault : SyntaxFault} (mild : fault.fatal = false) (count : Nat) (t : Token) :
    Mild (excess fault count t) := by
  unfold excess
  split
  · exact firstFatal?_mild mild
  · exact mild_nil

theorem mild_targetFaults (target : Expr) (equals : Token) : Mild (target.targetFaults equals) := by
  unfold Expr.targetFaults
  split
  · exact mild_nil
  · exact mild_nil
  · exact firstFatal?_mild rfl

theorem Names.mild : ∀ {count a b names vs}, Names count a b names vs → Mild vs
  | _, _, _, _, _, .last _ _ => mild_excess rfl _ _
  | _, _, _, _, _, .more _ _ others => (mild_excess rfl _ _).append others.mild

theorem Params.mild : ∀ {a b names vs}, Params a b names vs → Mild vs
  | _, _, _, _, .none => mild_nil
  | _, _, _, _, .some h => h.mild

mutual

theorem Expression.mild : ∀ {a b e vs}, Expression a b e vs → Mild vs
  | _, _, _, _, .plain h _ => h.mild
  | _, _, _, _, .assign h _ hv => (h.mild).append (hv.mild.append (mild_targetFaults _ _))

theorem Lambda.mild : ∀ {a b e vs}, Lambda a b e vs → Mild vs
  | _, _, _, _, .function _ _ hp _ hb => hp.mild.append hb.mild
  | _, _, _, _, .ternary h => h.mild

theorem LambdaBody.mild : ∀ {a b body vs}, LambdaBody a b body vs → Mild vs
  | _, _, _, _, .block _ h => h.mild
  | _, _, _, _, .expression h => h.mild
  | _, _, _, _, .returning _ h => h.mild.cons rfl

theorem Ternary.mild : ∀ {a b e vs}, Ternary a b e vs → Mild vs
  | _, _, _, _, .plain h _ => h.mild
  | _, _, _, _, .choice h _ ht _ hf => h.mild.append (ht.mild.append hf.mild)

theorem Operation.mild : ∀ {level a b e vs}, Operation level a b e vs → Mild vs
  | _, _, _, _, _, .chain h hr => h.mild.append hr.mild

theorem Operand.mild : ∀ {level a b e vs}, Operand level a b e vs → Mild vs
  | _, _, _, _, _, .tighter _ h => h.mild
  | _, _, _, _, _, .unary _ h => h.mild

theorem Operators.mild : ∀ {level left a b e vs}, Operators level left a b e vs → Mild vs
  | _, _, _, _, _, _, .done _ => mild_nil
  | _, _, _, _, _, _, .more _ h hr => h.mild.append hr.mild

theorem Unary.mild : ∀ {a b e vs}, Unary a b e vs → Mild vs
  | _, _, _, _, .operator _ h => h.mild
  | _, _, _, _, .call h hr => h.mild.append hr.mild

theorem Calls.mild : ∀ {callee a b e vs}, Calls callee a b e vs → Mild vs
  | _, _, _, _, _, .done _ _ => mild_nil
  | _, _, _, _, _, .call _ ha _ hr => ha.mild.append hr.mild
  | _, _, _, _, _, .property _ _ hr => hr.mild

theorem Passed.mild : ∀ {a b es vs}, Passed a b es vs → Mild vs
  | _, _, _, _, .none => mild_nil
  | _, _, _, _, .some h => h.mild

theorem Arguments.mild : ∀ {count a b es vs}, Arguments count a b es vs → Mild vs
  | _, _, _, _, _, .last h _ => (mild_excess rfl _ _).append h.mild
  | _, _, _, _, _, .more h _ others =>
    (mild_excess rfl _ _).append (h.mild.append others.mild)

theorem Primary.mild : ∀ {a b e vs}, Primary a b e vs → Mild vs
  | _, _, _, _, .atom _ => mild_nil
  | _, _, _, _, .group _ h _ => h.mild

theorem Declaration.mild : ∀ {a b s vs}, Declaration a b s vs → Mild vs
  | _, _, _, _, .ofClass _ _ _ h _ => h.mild
  | _, _, _, _, .ofFunction _ h => h.mild
  | _, _, _, _, .ofVariables _ h => h.mild
  | _, _, _, _, .statement h => h.mild

theorem Members.mild : ∀ {a b fs vs}, Members a b fs vs → Mild vs
  | _, _, _, _, .ended => mild_nil
  | _, _, _, _, .closed _ => mild_nil
  | _, _, _, _, .ofClass _ h others => h.mild.append others.mild
  | _, _, _, _, .ofInstances h others => h.mild.append others.mild

theorem Code.mild : ∀ {a b code vs}, Code a b code vs → Mild vs
  | _, _, _, _, .mk _ _ hp _ _ h => hp.mild.append h.mild

theorem Variables.mild : ∀ {a b s vs}, Variables a b s vs → Mild vs
  | _, _, _, _, .mk h _ => h.mild

theorem Declarators.mild : ∀ {a b ds vs}, Declarators a b ds vs → Mild vs
  | _, _, _, _, .last h _ => h.mild
  | _, _, _, _, .more h _ ho => h.mild.append ho.mild

theorem Item.mild : ∀ {a b d vs}, Item a b d vs → Mild vs
  | _, _, _, _, .bare _ _ => mild_nil
  | _, _, _, _, .initial _ _ h => h.mild

theorem Statement.mild : ∀ {a b s vs}, Statement a b s vs → Mild vs
  | _, _, _, _, .ofFor _ _ hi hn _ hx _ hb =>
    hi.mild.append (hn.mild.append (hx.mild.append hb.mild))
  | _, _, _, _, .ofIf _ _ h _ ht _ => h.mild.append ht.mild
  | _, _, _, _, .ofIfElse _ _ h _ ht _ hf => h.mild.append (ht.mild.append hf.mild)
  | _, _, _, _, .ofPrint _ h _ => h.mild
  | _, _, _, _, .ofReturn _ h _ => h.mild
  | _, _, _, _, .ofWhile _ _ h _ hb => h.mild.append hb.mild
  | _, _, _, _, .ofBlock _ h => h.mild
  | _, _, _, _, .ofExpression h _ => h.mild

theorem Initial.mild : ∀ {a b o vs}, Initial a b o vs → Mild vs
  | _, _, _, _, .none _ => mild_nil
  | _, _, _, _, .ofVariables _ h => h.mild
  | _, _, _, _, .ofExpression h _ => h.mild

theorem Maybe.mild : ∀ {a b o vs}, Maybe a b o vs → Mild vs
  | _, _, _, _, .missing => mild_nil
  | _, _, _, _, .given h => h.mild

theorem Block.mild : ∀ {a b body vs}, Block a b body vs → Mild vs
  | _, _, _, _, .mk h _ => h.mild

/-- A reading has no fatal fault. -/
theorem Declarations.mild : ∀ {inBlock a b ss vs}, Declarations inBlock a b ss vs → Mild vs
  | _, _, _, _, _, .ended => mild_nil
  | _, _, _, _, _, .closed _ => mild_nil
  | _, _, _, _, _, .more h others => h.mild.append others.mild

end

end Reading

namespace Reply

variable {α : Type}

/-- The first fatal fault that reading comes to, noted or failed with. -/
def fatal? : Reply α → Option SyntaxError
  | .ok _ c => firstFatal? c.errors
  | .fail e c => firstFatal? (c.errors ++ [e])
  | .starved => none

/-- Reading runs out of depth, or its first fatal fault is `f`. -/
def Meets (f : SyntaxError) (r : Reply α) : Prop := r = .starved ∨ r.fatal? = some f

end Reply

namespace Parse

variable {α β : Type} {rule : Parse α} {cont : α → Parse β} {f : SyntaxError}

def Keeps (rule : Parse α) : Prop := ∀ c f, firstFatal? c.errors = some f → (rule c).Meets f

theorem Keeps.starved : Keeps (starved : Parse α) := fun _ _ _ => .inl rfl

theorem Keeps.pure {x : α} : Keeps (pure x) := fun _ _ first => .inr first

theorem meets_bind {c : Cursor} (h : (rule c).Meets f) (h' : ∀ x, Keeps (cont x)) :
    ((rule >>= cont) c).Meets f := by
  rw [bind_apply]
  cases made : rule c with
  | ok x d =>
    rw [made] at h
    rcases h with out | first
    · cases out
    · exact h' x d f first
  | fail e d =>
    rw [made] at h
    rcases h with out | first
    · cases out
    · exact .inr first
  | starved => exact .inl rfl

theorem Keeps.bind (h : Keeps rule) (h' : ∀ x, Keeps (cont x)) : Keeps (rule >>= cont) :=
  fun c f first => meets_bind (h c f first) h'

theorem Keeps.report {fault : SyntaxFault} {t : Token} : Keeps (report fault t) :=
  fun _ _ first => .inr (firstFatal?_kept first)

theorem Keeps.fail {last : Token} {fault : SyntaxFault} : Keeps (fail last fault : Parse α) :=
  fun _ _ first => .inr (firstFatal?_kept first)

theorem Looks.keeps {g : Option Token → α} (h : Looks rule g) : Keeps rule := by
  intro c f first
  rw [h c]
  exact .inr first

theorem Steps.keeps {g : Token → Option α} {y : α} (h : Steps rule g y) : Keeps rule := by
  rintro ⟨a, errors⟩ f first
  cases a with
  | nil =>
    rw [(h errors).1]
    exact .inr first
  | cons t ts =>
    rw [(h errors).2]
    cases g t <;> exact .inr first

/-- A declaration that is given up leaves its fault behind those noted before. -/
theorem Keeps.resuming (h : Keeps rule) : Keeps (resuming rule) := by
  intro c f first
  have met := h c f first
  unfold Parse.resuming
  cases made : rule c with
  | ok s d =>
    rw [made] at met
    exact .inr (met.resolve_left nofun)
  | fail e d =>
    rw [made] at met
    exact .inr (met.resolve_left nofun)
  | starved => exact .inl rfl

theorem Keeps.compositional : Compositional fun rule _ => Keeps rule where
  starved _ := .starved
  pure _ := .pure
  bind := .bind
  report _ _ := .report
  fail _ _ := .fail
  looks h := h.keeps
  steps h := h.keeps
  resuming := .resuming

end Parse

namespace Grammar

open Parse

section

variable (last : Token)

/-- At this depth no rule takes back the first fatal fault. -/
structure Keeps (n : Nat) : Prop where
  moreParams (count : Nat) : Parse.Keeps (moreParams last n count)
  expression : Parse.Keeps (expression last n)
  lambda : Parse.Keeps (lambda last n)
  lambdaBody : Parse.Keeps (lambdaBody last n)
  ternary : Parse.Keeps (ternary last n)
  operation (level : Level) : Parse.Keeps (operation last n level)
  operand (level : Level) : Parse.Keeps (operand last n level)
  moreOperation (level : Level) (left : Expr) : Parse.Keeps (moreOperation last n level left)
  unary : Parse.Keeps (unary last n)
  moreCall (callee : Expr) : Parse.Keeps (moreCall last n callee)
  moreArguments (count : Nat) : Parse.Keeps (moreArguments last n count)
  primary : Parse.Keeps (primary last n)
  declaration : Parse.Keeps (declaration last n)
  declarationRule : Parse.Keeps (declarationRule last n)
  classRule : Parse.Keeps (classRule last n)
  members : Parse.Keeps (members last n)
  function (callee : Callee) : Parse.Keeps (function last n callee)
  varRule : Parse.Keeps (varRule last n)
  declarators : Parse.Keeps (declarators last n)
  statement : Parse.Keeps (statement last n)
  forRule : Parse.Keeps (forRule last n)
  forInitial : Parse.Keeps (forInitial last n)
  ifRule : Parse.Keeps (ifRule last n)
  returnRule (keyword : Token) : Parse.Keeps (returnRule last n keyword)
  whileRule : Parse.Keeps (whileRule last n)
  expressionRule : Parse.Keeps (expressionRule last n)
  block : Parse.Keeps (block last n)
  declarations (inBlock : Bool) : Parse.Keeps (declarations last n inBlock)

/-- No rule takes back the first fatal fault. -/
theorem keeps (n : Nat) : Keeps last n :=
  have h := every Keeps.compositional last n n (Nat.le_refl n)
  { moreParams := h.moreParams
    expression := h.expression
    lambda := h.lambda
    lambdaBody := h.lambdaBody
    ternary := h.ternary
    operation := h.operation
    operand := h.operand
    moreOperation := h.moreOperation
    unary := h.unary
    moreCall := h.moreCall
    moreArguments := h.moreArguments
    primary := h.primary
    declaration := h.declaration
    declarationRule := h.declarationRule
    classRule := h.classRule
    members := h.members
    function := h.function
    varRule := h.varRule
    declarators := h.declarators
    statement := h.statement
    forRule := h.forRule
    forInitial := h.forInitial
    ifRule := h.ifRule
    returnRule := h.returnRule
    whileRule := h.whileRule
    expressionRule := h.expressionRule
    block := h.block
    declarations := h.declarations }

end

end Grammar

end LoxLang
