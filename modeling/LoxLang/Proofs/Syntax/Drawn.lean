import LoxLang.Proofs.Syntax.ProperTrees
import LoxLang.Proofs.Syntax.Uniform
/-!
Where the tokens of trees and of faults come from. A tree is drawn from some tokens if each token that it
keeps is one of them, with its kind, its text and its line. One token is made up: the `return` that a
function without a name has for its body where an expression stands instead of a block; it has the line of
the first token of that expression.

`Parse.Draws` says of a rule that it notes faults at tokens it was given only, and makes what is drawn from
them; it is closed under the ways rules are put together. `Grammar.Draws` says it of all rules at one depth,
and is carried from depth to depth, one lemma a rule.

What is proved: programs and expressions are drawn from the tokens they are read off, and so are the faults
that are noted instead (`drawn_of_programOfTokens`, `drawn_of_ofTokens`).
-/
namespace LoxLang

/-- The keyword that stands in front of an expression that is the body of a function without a name. -/
def Token.impliedReturn (line : Nat) : Token := ⟨.keyword .return, "return", line⟩

section

variable (ts : List Token)

mutual

/-- An expression that keeps tokens from among these. -/
def Expr.Drawn : Expr → Prop
  | .literal _ => True
  | .group inner => inner.Drawn
  | .unary op right => op ∈ ts ∧ right.Drawn
  | .binary left op right => left.Drawn ∧ op ∈ ts ∧ right.Drawn
  | .logical left op right => left.Drawn ∧ op ∈ ts ∧ right.Drawn
  | .ternary condition whenTrue whenFalse => condition.Drawn ∧ whenTrue.Drawn ∧ whenFalse.Drawn
  | .variable name _ => name ∈ ts
  | .this keyword _ => keyword ∈ ts
  | .assign name value _ => name ∈ ts ∧ value.Drawn
  | .call callee paren arguments =>
    callee.Drawn ∧ (paren ∈ ts ∧ paren.isSymbol .rightParen = true) ∧ Expr.AllDrawn arguments
  | .property object name => object.Drawn ∧ name ∈ ts
  | .setProperty object name value => object.Drawn ∧ name ∈ ts ∧ value.Drawn
  | .lambda code => code.Drawn true

def Expr.AllDrawn : List Expr → Prop
  | [] => True
  | e :: es => e.Drawn ∧ Expr.AllDrawn es

/-- A statement that keeps tokens from among these. If it is all there is in the body of a function without
a name, its keyword may be made up. -/
def Stmt.Drawn (sole : Bool) : Stmt → Prop
  | .expression value => value.Drawn
  | .print value => value.Drawn
  | .declare d => d.Drawn
  | .declareAll ds => Declarator.AllDrawn ds
  | .block body => Stmt.AllDrawn false body
  | .conditional condition whenTrue none => condition.Drawn ∧ whenTrue.Drawn false
  | .conditional condition whenTrue (some whenFalse) =>
    condition.Drawn ∧ whenTrue.Drawn false ∧ whenFalse.Drawn false
  | .loop condition body => condition.Drawn ∧ body.Drawn false
  | .declareFunction code => code.Drawn false
  | .returns keyword none => keyword ∈ ts
  | .returns keyword (some value) =>
    (keyword ∈ ts ∨ sole = true ∧ ∃ t ∈ ts, keyword = .impliedReturn t.line) ∧ value.Drawn
  | .declareClass name methods statics =>
    name ∈ ts ∧ Function.AllDrawn methods ∧ Function.AllDrawn statics

def Stmt.AllDrawn (nameless : Bool) : List Stmt → Prop
  | [] => True
  | s :: ss => s.Drawn (nameless && ss.isEmpty) ∧ Stmt.AllDrawn false ss

def Declarator.Drawn : Declarator → Prop
  | ⟨name, none⟩ => name ∈ ts
  | ⟨name, some initial⟩ => name ∈ ts ∧ initial.Drawn

def Declarator.AllDrawn : List Declarator → Prop
  | [] => True
  | d :: ds => d.Drawn ∧ Declarator.AllDrawn ds

def Function.Drawn (nameless : Bool) : Function → Prop
  | ⟨name, params, body⟩ => name ∈ ts ∧ params ⊆ ts ∧ Stmt.AllDrawn nameless body

def Function.AllDrawn : List Function → Prop
  | [] => True
  | f :: fs => f.Drawn false ∧ Function.AllDrawn fs

end

end

variable {ts : List Token}

/-! Statements that are not alone -/

theorem Stmt.Drawn.weaken {s : Stmt} (h : s.Drawn ts false) (sole : Bool) : s.Drawn ts sole := by
  cases s with
  | returns keyword value =>
    cases value with
    | none => exact h
    | some value => exact ⟨.inl (h.1.resolve_right fun made => Bool.noConfusion made.1), h.2⟩
  | conditional condition whenTrue whenFalse => cases whenFalse <;> exact h
  | _ => exact h

theorem Stmt.AllDrawn.weaken {ss : List Stmt} (h : Stmt.AllDrawn ts false ss) (nameless : Bool) :
    Stmt.AllDrawn ts nameless ss := by
  cases ss with
  | nil => trivial
  | cons s ss => exact ⟨Stmt.Drawn.weaken h.1 _, h.2⟩

theorem Stmt.AllDrawn.append {ss ss' : List Stmt} (h : Stmt.AllDrawn ts false ss)
    (h' : Stmt.AllDrawn ts false ss') : Stmt.AllDrawn ts false (ss ++ ss') := by
  induction ss with
  | nil => exact h'
  | cons s ss ih => exact ⟨h.1, ih h.2⟩

/-! Trees that rules put together -/

namespace Grammar

theorem drawn_of_atom? {t : Token} {e : Expr} (among : t ∈ ts) (h : atom? t = some e) : e.Drawn ts := by
  unfold atom? at h
  split at h <;> first | (cases h; first | exact among | trivial) | cases h

theorem drawn_join (level : Level) {left right : Expr} {op : Token} (hl : left.Drawn ts) (ho : op ∈ ts)
    (hr : right.Drawn ts) : (level.join left op right).Drawn ts := by
  cases level <;> exact ⟨hl, ho, hr⟩

theorem drawn_forLoop {initial : Option Stmt} {condition increment : Option Expr} {body : Stmt}
    (hi : ∀ s ∈ initial, s.Drawn ts false) (hc : ∀ e ∈ condition, e.Drawn ts)
    (hn : ∀ e ∈ increment, e.Drawn ts) (hb : body.Drawn ts false) :
    (Stmt.forLoop initial condition increment body).Drawn ts false := by
  have condition : (condition.getD (.literal (.bool true))).Drawn ts := by
    cases condition with
    | none => trivial
    | some e => exact hc e rfl
  cases increment with
  | none =>
    cases initial with
    | none => exact ⟨condition, hb⟩
    | some s => exact ⟨hi s rfl, ⟨condition, hb⟩, trivial⟩
  | some e =>
    have round : (Stmt.block [body, .expression e]).Drawn ts false := ⟨hb, hn e rfl, trivial⟩
    cases initial with
    | none => exact ⟨condition, round⟩
    | some s => exact ⟨hi s rfl, ⟨condition, round⟩, trivial⟩

end Grammar

/-! Rules -/

/-- Faults that are noticed at tokens from among these. -/
def SyntaxError.AllDrawn (ts : List Token) (errors : List SyntaxError) : Prop :=
  ∀ e ∈ errors, e.token ∈ ts

theorem SyntaxError.AllDrawn.snoc {errors : List SyntaxError} {e : SyntaxError}
    (h : SyntaxError.AllDrawn ts errors) (among : e.token ∈ ts) :
    SyntaxError.AllDrawn ts (errors ++ [e]) := by
  intro f mem
  rcases List.mem_append.mp mem with before | here
  · exact h f before
  · rw [List.mem_singleton.mp here]
    exact among

/-- What is read next is among the tokens, and so are the tokens of the faults noted. -/
def Cursor.Drawn (ts : List Token) (c : Cursor) : Prop :=
  c.rest ⊆ ts ∧ SyntaxError.AllDrawn ts c.errors

theorem Cursor.Drawn.tail {t : Token} {rest : List Token} {errors : List SyntaxError}
    (h : Cursor.Drawn ts ⟨t :: rest, errors⟩) : t ∈ ts ∧ Cursor.Drawn ts ⟨rest, errors⟩ :=
  ⟨h.1 List.mem_cons_self, List.subset_of_cons_subset h.1, h.2⟩

namespace Parse

variable {α β : Type} {rule : Parse α} {Q R : α → Prop} {S : β → Prop} {last : Token} {p : Token → Bool}

/-- From a cursor in the tokens the rule comes to one, or fails at one of them, and makes a `Q`. -/
def Draws (ts : List Token) (rule : Parse α) (Q : α → Prop) : Prop :=
  ∀ c : Cursor, c.Drawn ts → match rule c with
    | .ok a d => d.Drawn ts ∧ Q a
    | .fail e d => d.Drawn ts ∧ e.token ∈ ts
    | .starved => True

namespace Draws

theorem of_ok {c d : Cursor} {a : α} (h : Draws ts rule Q) (drawn : c.Drawn ts) (made : rule c = .ok a d) :
    d.Drawn ts ∧ Q a := by
  have result := h c drawn
  rwa [made] at result

theorem of_fail {c d : Cursor} {e : SyntaxError} (h : Draws ts rule Q) (drawn : c.Drawn ts)
    (failed : rule c = .fail e d) : d.Drawn ts ∧ e.token ∈ ts := by
  have result := h c drawn
  rwa [failed] at result

theorem imp (h : Draws ts rule Q) (imp : ∀ a, Q a → R a) : Draws ts rule R := by
  intro c drawn
  have made := h c drawn
  cases result : rule c with
  | ok a d =>
    rw [result] at made
    exact ⟨made.1, imp a made.2⟩
  | fail e d =>
    rw [result] at made
    exact made
  | starved => trivial

theorem starved : Draws ts (starved : Parse α) Q := fun _ _ => trivial

theorem pure {a : α} (h : Q a) : Draws ts (pure a) Q := fun _ drawn => ⟨drawn, h⟩

theorem bind {cont : α → Parse β} (h : Draws ts rule Q) (h' : ∀ a, Q a → Draws ts (cont a) S) :
    Draws ts (rule >>= cont) S := by
  intro c drawn
  have first := h c drawn
  rw [bind_apply]
  cases result : rule c with
  | ok a d =>
    rw [result] at first
    exact h' a first.2 d first.1
  | fail e d =>
    rw [result] at first
    exact first
  | starved => trivial

theorem fail (among : last ∈ ts) (fault : SyntaxFault) : Draws ts (Parse.fail last fault : Parse α) Q := by
  rintro ⟨rest, errors⟩ drawn
  cases rest with
  | nil => exact ⟨drawn, among⟩
  | cons t rest => exact ⟨drawn, drawn.tail.1⟩

theorem report {t : Token} (among : t ∈ ts) (fault : SyntaxFault) :
    Draws ts (report fault t) fun _ => True := by
  exact fun c drawn => ⟨⟨drawn.1, drawn.2.snoc among⟩, trivial⟩

theorem looks {g : Option Token → α} (h : Looks rule g) : Draws ts rule fun _ => True := by
  intro c drawn
  rw [h c]
  exact ⟨drawn, trivial⟩

theorem steps {g : Token → Option α} {y : α} (h : Steps rule g y) :
    Draws ts rule fun a => a = y ∨ ∃ t ∈ ts, g t = some a := by
  rintro ⟨rest, errors⟩ drawn
  cases rest with
  | nil =>
    rw [(h errors).1]
    exact ⟨drawn, .inl rfl⟩
  | cons t rest =>
    rw [(h errors).2]
    cases made : g t with
    | none => exact ⟨drawn, .inl rfl⟩
    | some a => exact ⟨drawn.tail.2, .inr ⟨t, drawn.tail.1, made⟩⟩

theorem next : Draws ts (next p) fun _ => True := looks (looks_next p)

theorem accept : Draws ts (accept p) fun _ => True := (steps (steps_accept p)).imp fun _ _ => trivial

theorem take : Draws ts (take? p) fun o => ∀ t ∈ o, t ∈ ts ∧ p t = true := by
  refine (steps (steps_take p)).imp fun o made => ?_
  rcases made with rfl | ⟨t, among, made⟩
  · exact nofun
  · rintro s ⟨⟩
    cases holds : p t <;> rw [holds] at made <;> cases made
    exact ⟨among, holds⟩

theorem peek (among : last ∈ ts) : Draws ts (peek last) (· ∈ ts) := by
  rintro ⟨rest, errors⟩ drawn
  cases rest with
  | nil => exact ⟨drawn, among⟩
  | cons t rest => exact ⟨drawn, drawn.tail.1⟩

theorem expect (among : last ∈ ts) (fault : SyntaxFault) :
    Draws ts (expect last p fault) fun t => t ∈ ts ∧ p t = true := by
  rw [expect_eq]
  refine take.bind fun found made => ?_
  cases found with
  | none => exact fail among fault
  | some t => exact pure (made t rfl)

/-- A token that is taken in front of a rule, whatever it is. -/
theorem expecting {cont : Token → Parse β} (among : last ∈ ts) (fault : SyntaxFault)
    (h : ∀ t, Draws ts (cont t) S) : Draws ts (Parse.expect last p fault >>= cont) S :=
  (expect among fault).bind fun t _ => h t

theorem accepting {cont : Bool → Parse β} (h : Draws ts (cont true) S) (h' : Draws ts (cont false) S) :
    Draws ts (Parse.accept p >>= cont) S :=
  accept.bind fun b _ => by cases b <;> assumption

theorem resuming (h : Draws ts rule Q) : Draws ts (resuming rule) fun o => ∀ a ∈ o, Q a := by
  intro c drawn
  have made := h c drawn
  unfold Parse.resuming
  cases result : rule c with
  | ok a d =>
    rw [result] at made
    refine ⟨made.1, ?_⟩
    rintro b ⟨⟩
    exact made.2
  | fail e d =>
    rw [result] at made
    exact ⟨⟨fun t mem => made.1.1 (Grammar.mem_resume _ mem), made.1.2.snoc made.2⟩, nofun⟩
  | starved => trivial

theorem counted {fault : SyntaxFault} {count : Nat} (among : last ∈ ts) (h : Draws ts rule Q) :
    Draws ts (Grammar.counted last fault count rule) Q := by
  unfold Grammar.counted
  dsimp only
  split
  · exact (peek among).bind fun t drawn => (report drawn _).bind fun _ _ => h
  · exact h

end Draws

end Parse

namespace Grammar

open Parse

section

variable (ts : List Token) (last : Token)

/-- The end is among the tokens, and at this depth every rule makes what is drawn from them. -/
structure Draws (n : Nat) : Prop where
  among : last ∈ ts
  moreParams (count : Nat) : Parse.Draws ts (moreParams last n count) (· ⊆ ts)
  expression : Parse.Draws ts (expression last n) (Expr.Drawn ts)
  lambda : Parse.Draws ts (lambda last n) (Expr.Drawn ts)
  lambdaBody : Parse.Draws ts (lambdaBody last n) (Stmt.AllDrawn ts true)
  ternary : Parse.Draws ts (ternary last n) (Expr.Drawn ts)
  operation (level : Level) : Parse.Draws ts (operation last n level) (Expr.Drawn ts)
  operand (level : Level) : Parse.Draws ts (operand last n level) (Expr.Drawn ts)
  moreOperation (level : Level) {left : Expr} :
    left.Drawn ts → Parse.Draws ts (moreOperation last n level left) (Expr.Drawn ts)
  unary : Parse.Draws ts (unary last n) (Expr.Drawn ts)
  moreCall {callee : Expr} :
    callee.Drawn ts → Parse.Draws ts (moreCall last n callee) (Expr.Drawn ts)
  moreArguments (count : Nat) : Parse.Draws ts (moreArguments last n count) (Expr.AllDrawn ts)
  primary : Parse.Draws ts (primary last n) (Expr.Drawn ts)
  declaration : Parse.Draws ts (declaration last n) fun o => ∀ s ∈ o, s.Drawn ts false
  declarationRule : Parse.Draws ts (declarationRule last n) (Stmt.Drawn ts false)
  classRule : Parse.Draws ts (classRule last n) (Stmt.Drawn ts false)
  members : Parse.Draws ts (members last n) fun fs =>
    Function.AllDrawn ts fs.1 ∧ Function.AllDrawn ts fs.2
  function (callee : Callee) : Parse.Draws ts (function last n callee) (Function.Drawn ts false)
  varRule : Parse.Draws ts (varRule last n) (Stmt.Drawn ts false)
  declarators : Parse.Draws ts (declarators last n) fun ds =>
    ds.1.Drawn ts ∧ Declarator.AllDrawn ts ds.2
  statement : Parse.Draws ts (statement last n) (Stmt.Drawn ts false)
  forRule : Parse.Draws ts (forRule last n) (Stmt.Drawn ts false)
  forInitial : Parse.Draws ts (forInitial last n) fun o => ∀ s ∈ o, s.Drawn ts false
  ifRule : Parse.Draws ts (ifRule last n) (Stmt.Drawn ts false)
  returnRule {keyword : Token} :
    keyword ∈ ts → Parse.Draws ts (returnRule last n keyword) (Stmt.Drawn ts false)
  whileRule : Parse.Draws ts (whileRule last n) (Stmt.Drawn ts false)
  expressionRule : Parse.Draws ts (expressionRule last n) (Stmt.Drawn ts false)
  block : Parse.Draws ts (block last n) (Stmt.AllDrawn ts false)
  declarations (inBlock : Bool) :
    Parse.Draws ts (declarations last n inBlock) (Stmt.AllDrawn ts false)

variable {ts last} in
theorem Draws.zero (among : last ∈ ts) : Draws ts last 0 where
  among := among
  moreParams _ := .starved
  expression := .starved
  lambda := .starved
  lambdaBody := .starved
  ternary := .starved
  operation _ := .starved
  operand _ := .starved
  moreOperation _ _ _ := .starved
  unary := .starved
  moreCall _ := .starved
  moreArguments _ := .starved
  primary := .starved
  declaration := .starved
  declarationRule := .starved
  classRule := .starved
  members := .starved
  function _ := .starved
  varRule := .starved
  declarators := .starved
  statement := .starved
  forRule := .starved
  forInitial := .starved
  ifRule := .starved
  returnRule _ := .starved
  whileRule := .starved
  expressionRule := .starved
  block := .starved
  declarations _ := .starved

variable {ts last} {n : Nat} (h : Draws ts last n)

include h

theorem params_draws : Parse.Draws ts (params last n) (· ⊆ ts) := by
  have rest (names : List Token) (drawn : names ⊆ ts) :
      Parse.Draws ts (closeParams last names) (· ⊆ ts) := .expecting h.among _ fun _ => .pure drawn
  unfold params
  refine .bind .next fun closed _ => ?_
  dsimp only
  split
  · exact (Parse.Draws.pure (Q := (· ⊆ ts)) (List.nil_subset _)).bind rest
  · exact (h.moreParams 0).bind rest

theorem moreParams_draws (count : Nat) :
    Parse.Draws ts (moreParams last (n + 1) count) (· ⊆ ts) := by
  rw [moreParams_eq]
  have rest : Parse.Draws ts (paramsFrom last n count) (· ⊆ ts) := by
    refine (Parse.Draws.expect h.among _).bind fun name drawn => .accepting ?_ ?_
    · exact (h.moreParams _).bind fun names others => .pure (List.cons_subset.mpr ⟨drawn.1, others⟩)
    · exact .pure (List.cons_subset.mpr ⟨drawn.1, List.nil_subset _⟩)
  exact .counted h.among rest

theorem expression_draws : Parse.Draws ts (expression last (n + 1)) (Expr.Drawn ts) := by
  unfold expression
  refine h.lambda.bind fun target drawn => Parse.Draws.take.bind fun equals taken => ?_
  cases equals with
  | none => exact .pure drawn
  | some equals =>
    refine h.expression.bind fun value drawnValue => ?_
    split
    · exact .pure ⟨drawn, drawnValue⟩
    · exact .pure ⟨drawn.1, drawn.2, drawnValue⟩
    · exact (Parse.Draws.report (taken _ rfl).1 _).bind fun _ _ => .pure drawn

theorem lambda_draws : Parse.Draws ts (lambda last (n + 1)) (Expr.Drawn ts) := by
  unfold lambda
  refine Parse.Draws.take.bind fun keyword taken => ?_
  cases keyword with
  | none => exact h.ternary
  | some keyword =>
    refine .expecting h.among _ fun _ => (params_draws h).bind fun names drawn => ?_
    exact h.lambdaBody.bind fun body drawnBody => .pure ⟨(taken _ rfl).1, drawn, drawnBody⟩

theorem lambdaBody_draws : Parse.Draws ts (lambdaBody last (n + 1)) (Stmt.AllDrawn ts true) := by
  have rest : Parse.Draws ts (valueBody last n) (Stmt.AllDrawn ts true) :=
    (Parse.Draws.peek h.among).bind fun first drawn => h.expression.bind fun value drawnValue =>
      .pure ⟨⟨.inr ⟨rfl, first, drawn, rfl⟩, drawnValue⟩, trivial⟩
  unfold lambdaBody
  refine .accepting ?_ ?_
  · exact h.block.imp fun body drawn => drawn.weaken true
  · refine Parse.Draws.take.bind fun keyword taken => ?_
    cases keyword with
    | none => exact rest
    | some keyword => exact (Parse.Draws.report (taken _ rfl).1 _).bind fun _ _ => rest

theorem ternary_draws : Parse.Draws ts (ternary last (n + 1)) (Expr.Drawn ts) := by
  unfold ternary
  refine (h.operation .disjunction).bind fun condition drawn => .accepting ?_ (.pure drawn)
  refine h.ternary.bind fun whenTrue drawnTrue => .expecting h.among _ fun _ => ?_
  exact h.ternary.bind fun whenFalse drawnFalse => .pure ⟨drawn, drawnTrue, drawnFalse⟩

theorem operation_draws (level : Level) :
    Parse.Draws ts (operation last (n + 1) level) (Expr.Drawn ts) := by
  unfold operation
  exact (h.operand level).bind fun left drawn => h.moreOperation level drawn

theorem operand_draws (level : Level) :
    Parse.Draws ts (operand last (n + 1) level) (Expr.Drawn ts) := by
  unfold operand
  split
  · exact h.operation _
  · exact h.unary

theorem moreOperation_draws (level : Level) {left : Expr} (drawn : left.Drawn ts) :
    Parse.Draws ts (moreOperation last (n + 1) level left) (Expr.Drawn ts) := by
  unfold moreOperation
  refine Parse.Draws.take.bind fun op taken => ?_
  cases op with
  | none => exact .pure drawn
  | some op =>
    refine (h.operand level).bind fun right drawnRight => ?_
    exact h.moreOperation level (drawn_join level drawn (taken _ rfl).1 drawnRight)

theorem unary_draws : Parse.Draws ts (unary last (n + 1)) (Expr.Drawn ts) := by
  unfold unary
  refine Parse.Draws.take.bind fun op taken => ?_
  cases op with
  | some op => exact h.unary.bind fun right drawn => .pure ⟨(taken _ rfl).1, drawn⟩
  | none => exact h.primary.bind fun callee drawn => h.moreCall drawn

theorem moreCall_draws {callee : Expr} (drawn : callee.Drawn ts) :
    Parse.Draws ts (moreCall last (n + 1) callee) (Expr.Drawn ts) := by
  have rest (values : List Expr) (drawnValues : Expr.AllDrawn ts values) :
      Parse.Draws ts (closeCall last n callee values) (Expr.Drawn ts) :=
    (Parse.Draws.expect h.among _).bind fun paren closes => h.moreCall ⟨drawn, closes, drawnValues⟩
  unfold moreCall
  refine .accepting ?_ (.accepting ?_ (.pure drawn))
  · refine .bind .next fun closed _ => ?_
    dsimp only
    split
    · have none : Parse.Draws ts (pure [] : Parse (List Expr)) (Expr.AllDrawn ts) := .pure trivial
      exact none.bind rest
    · exact (h.moreArguments 0).bind rest
  · exact (Parse.Draws.expect h.among _).bind fun name drawnName => h.moreCall ⟨drawn, drawnName.1⟩

theorem moreArguments_draws (count : Nat) :
    Parse.Draws ts (moreArguments last (n + 1) count) (Expr.AllDrawn ts) := by
  rw [moreArguments_eq]
  have rest : Parse.Draws ts (argumentsFrom last n count) (Expr.AllDrawn ts) := by
    refine h.expression.bind fun value drawn => .accepting ?_ (.pure ⟨drawn, trivial⟩)
    exact (h.moreArguments _).bind fun values others => .pure ⟨drawn, others⟩
  exact .counted h.among rest

theorem primary_draws : Parse.Draws ts (primary last (n + 1)) (Expr.Drawn ts) := by
  unfold primary
  refine (Parse.Draws.steps steps_atom).bind fun found made => ?_
  cases found with
  | some e =>
    refine .pure ?_
    rcases made with none | ⟨t, drawn, atom⟩
    · cases none
    · obtain ⟨e', found, same⟩ := Option.map_eq_some_iff.mp atom
      cases same
      exact drawn_of_atom? drawn found
  | none =>
    refine .accepting ?_ (.fail h.among _)
    exact h.expression.bind fun inner drawn => .expecting h.among _ fun _ => .pure drawn

theorem declaration_draws :
    Parse.Draws ts (declaration last (n + 1)) fun o => ∀ s ∈ o, s.Drawn ts false := by
  rw [declaration_eq]
  exact .resuming h.declarationRule

theorem declarationRule_draws :
    Parse.Draws ts (declarationRule last (n + 1)) (Stmt.Drawn ts false) := by
  unfold declarationRule
  refine .accepting h.classRule (.accepting ?_ (.accepting h.varRule h.statement))
  exact (h.function .function).bind fun code drawn => .pure drawn

theorem classRule_draws : Parse.Draws ts (classRule last (n + 1)) (Stmt.Drawn ts false) := by
  unfold classRule
  refine (Parse.Draws.expect h.among _).bind fun name drawn => .expecting h.among _ fun _ => ?_
  refine h.members.bind fun fs drawnMembers => .expecting h.among _ fun _ => ?_
  exact .pure ⟨drawn.1, drawnMembers⟩

theorem members_draws : Parse.Draws ts (members last (n + 1)) fun fs =>
    Function.AllDrawn ts fs.1 ∧ Function.AllDrawn ts fs.2 := by
  unfold members
  refine (Parse.Draws.looks (looks_over true)).bind fun ended _ => ?_
  split
  · exact .pure ⟨trivial, trivial⟩
  refine .accepting ?_ ?_
  · exact (h.function .method).bind fun code drawn => h.members.bind fun fs others =>
      .pure ⟨others.1, drawn, others.2⟩
  · exact (h.function .method).bind fun code drawn => h.members.bind fun fs others =>
      .pure ⟨⟨drawn, others.1⟩, others.2⟩

theorem function_draws (callee : Callee) :
    Parse.Draws ts (Grammar.function last (n + 1) callee) (Function.Drawn ts false) := by
  unfold Grammar.function
  refine (Parse.Draws.expect h.among _).bind fun name drawn => .expecting h.among _ fun _ => ?_
  refine (params_draws h).bind fun names drawnParams => .expecting h.among _ fun _ => ?_
  exact h.block.bind fun body drawnBody => .pure ⟨drawn.1, drawnParams, drawnBody⟩

theorem declarators_draws : Parse.Draws ts (declarators last (n + 1)) fun ds =>
    ds.1.Drawn ts ∧ Declarator.AllDrawn ts ds.2 := by
  have rest (d : Declarator) (drawn : d.Drawn ts) : Parse.Draws ts (declaratorsBehind last n d) fun ds =>
      ds.1.Drawn ts ∧ Declarator.AllDrawn ts ds.2 :=
    .accepting (h.declarators.bind fun ds others => .pure ⟨drawn, others⟩) (.pure ⟨drawn, trivial⟩)
  unfold Grammar.declarators
  refine (Parse.Draws.expect h.among _).bind fun name drawn => .bind .accept fun given _ => ?_
  dsimp only
  split
  · refine h.expression.bind fun value drawnValue => ?_
    exact (Parse.Draws.pure (Q := fun o => o = some value) rfl).bind fun o same =>
      rest ⟨name, o⟩ (same ▸ ⟨drawn.1, drawnValue⟩)
  · exact (Parse.Draws.pure (Q := fun o : Option Expr => o = none) rfl).bind fun o same =>
      rest ⟨name, o⟩ (same ▸ drawn.1)

theorem varRule_draws : Parse.Draws ts (varRule last (n + 1)) (Stmt.Drawn ts false) := by
  unfold varRule
  refine h.declarators.bind fun ds drawn => .expecting h.among _ fun _ => ?_
  obtain ⟨first, others⟩ := ds
  cases others with
  | nil => exact .pure drawn.1
  | cons second others => exact .pure drawn

theorem statement_draws : Parse.Draws ts (statement last (n + 1)) (Stmt.Drawn ts false) := by
  unfold statement
  refine .accepting h.forRule (.accepting h.ifRule (.accepting ?_ ?_))
  · exact h.expression.bind fun value drawn => .expecting h.among _ fun _ => .pure drawn
  refine Parse.Draws.take.bind fun keyword taken => ?_
  cases keyword with
  | some keyword => exact h.returnRule (taken _ rfl).1
  | none =>
    refine .accepting h.whileRule (.accepting ?_ h.expressionRule)
    exact h.block.bind fun body drawn => .pure drawn

theorem optional_draws {α : Type} {S : α → Prop} {cont : Option Expr → Parse α} (p : Token → Bool)
    (h' : ∀ o : Option Expr, (∀ e ∈ o, e.Drawn ts) → Parse.Draws ts (cont o) S) :
    Parse.Draws ts (optional last n p cont) S := by
  refine .bind .next fun missing _ => ?_
  split
  · exact (Parse.Draws.pure (Q := fun o : Option Expr => o = none) rfl).bind fun o same =>
      h' o (same ▸ nofun)
  · refine h.expression.bind fun value drawn => ?_
    refine (Parse.Draws.pure (Q := fun o => o = some value) rfl).bind fun o same => h' o ?_
    subst same
    rintro e ⟨⟩
    exact drawn

theorem forRule_draws : Parse.Draws ts (forRule last (n + 1)) (Stmt.Drawn ts false) := by
  unfold forRule
  refine .expecting h.among _ fun _ => h.forInitial.bind fun initial drawnInitial => ?_
  refine optional_draws h _ fun condition drawnCondition => .expecting h.among _ fun _ => ?_
  refine optional_draws h _ fun increment drawnIncrement => .expecting h.among _ fun _ => ?_
  exact h.statement.bind fun body drawnBody =>
    .pure (drawn_forLoop drawnInitial drawnCondition drawnIncrement drawnBody)

theorem forInitial_draws :
    Parse.Draws ts (forInitial last (n + 1)) fun o => ∀ s ∈ o, s.Drawn ts false := by
  have given (s : Stmt) (drawn : s.Drawn ts false) : ∀ r ∈ some s, r.Drawn ts false := by
    rintro r ⟨⟩
    exact drawn
  unfold forInitial
  refine .accepting (.pure nofun) (.accepting ?_ ?_)
  · exact h.varRule.bind fun s drawn => .pure (given s drawn)
  · exact h.expressionRule.bind fun s drawn => .pure (given s drawn)

theorem ifRule_draws : Parse.Draws ts (ifRule last (n + 1)) (Stmt.Drawn ts false) := by
  unfold ifRule
  refine .expecting h.among _ fun _ => h.expression.bind fun condition drawn => ?_
  refine .expecting h.among _ fun _ => h.statement.bind fun whenTrue drawnTrue => ?_
  refine .accepting ?_ (.pure ⟨drawn, drawnTrue⟩)
  exact h.statement.bind fun whenFalse drawnFalse => .pure ⟨drawn, drawnTrue, drawnFalse⟩

theorem returnRule_draws {keyword : Token} (drawn : keyword ∈ ts) :
    Parse.Draws ts (returnRule last (n + 1) keyword) (Stmt.Drawn ts false) := by
  unfold returnRule
  refine optional_draws h _ fun value drawnValue => .expecting h.among _ fun _ => .pure ?_
  cases value with
  | none => exact drawn
  | some e => exact ⟨.inl drawn, drawnValue e rfl⟩

theorem whileRule_draws : Parse.Draws ts (whileRule last (n + 1)) (Stmt.Drawn ts false) := by
  unfold whileRule
  refine .expecting h.among _ fun _ => h.expression.bind fun condition drawn => ?_
  refine .expecting h.among _ fun _ => ?_
  exact h.statement.bind fun body drawnBody => .pure ⟨drawn, drawnBody⟩

theorem expressionRule_draws : Parse.Draws ts (expressionRule last (n + 1)) (Stmt.Drawn ts false) := by
  unfold expressionRule
  exact h.expression.bind fun value drawn => .expecting h.among _ fun _ => .pure drawn

theorem block_draws : Parse.Draws ts (block last (n + 1)) (Stmt.AllDrawn ts false) := by
  unfold block
  exact (h.declarations true).bind fun body drawn => .expecting h.among _ fun _ => .pure drawn

theorem declarations_draws (inBlock : Bool) :
    Parse.Draws ts (declarations last (n + 1) inBlock) (Stmt.AllDrawn ts false) := by
  unfold declarations
  refine (Parse.Draws.looks (looks_over inBlock)).bind fun ended _ => ?_
  split
  · exact .pure trivial
  refine h.declaration.bind fun first drawn => (h.declarations inBlock).bind fun others drawnOthers => ?_
  refine .pure (Stmt.AllDrawn.append ?_ drawnOthers)
  cases first with
  | none => trivial
  | some s => exact ⟨drawn s rfl, trivial⟩

end

/-- Every rule makes what is drawn from the tokens. -/
theorem draws {ts : List Token} {last : Token} (among : last ∈ ts) : ∀ n, Draws ts last n
  | 0 => .zero among
  | n + 1 =>
    have h := draws among n
    { among
      moreParams := moreParams_draws h
      expression := expression_draws h
      lambda := lambda_draws h
      lambdaBody := lambdaBody_draws h
      ternary := ternary_draws h
      operation := operation_draws h
      operand := operand_draws h
      moreOperation := moreOperation_draws h
      unary := unary_draws h
      moreCall := moreCall_draws h
      moreArguments := moreArguments_draws h
      primary := primary_draws h
      declaration := declaration_draws h
      declarationRule := declarationRule_draws h
      classRule := classRule_draws h
      members := members_draws h
      function := function_draws h
      varRule := varRule_draws h
      declarators := declarators_draws h
      statement := statement_draws h
      forRule := forRule_draws h
      forInitial := forInitial_draws h
      ifRule := ifRule_draws h
      returnRule := returnRule_draws h
      whileRule := whileRule_draws h
      expressionRule := expressionRule_draws h
      block := block_draws h
      declarations := declarations_draws h }

end Grammar

/-! Programs and expressions -/

/-- The end that tokens are read up to is among them, if there is one. -/
theorem Token.last_untilEof_mem : ∀ {tokens : List Token}, (∃ t ∈ tokens, t.isEof = true) →
    (Token.untilEof tokens).2 ∈ tokens
  | [], ⟨_, mem, _⟩ => nomatch mem
  | t :: tokens, ⟨s, mem, ends⟩ => by
    unfold Token.untilEof
    split
    · exact List.mem_cons_self
    · rename_i more
      refine List.mem_cons_of_mem _ (last_untilEof_mem ⟨s, ?_, ends⟩)
      rcases List.mem_cons.mp mem with rfl | later
      · exact absurd ends more
      · exact later

/-- What is read off tokens has a property, or what is wrong with them is noticed at tokens from among
these. -/
def ReadOff {α : Type} (ts : List Token) (Q : α → Prop) : Except (List SyntaxError) α → Prop
  | .ok a => Q a
  | .error errors => SyntaxError.AllDrawn ts errors

section

variable {tokens : List Token} (ended : ∃ t ∈ tokens, t.isEof = true)

theorem Cursor.drawn_untilEof (tokens : List Token) :
    Cursor.Drawn tokens ⟨(Token.untilEof tokens).1, []⟩ :=
  ⟨fun _ => Token.mem_untilEof _, fun _ none => nomatch none⟩

include ended

/-- A program is drawn from the tokens it is read off, and so are the faults in it. -/
theorem drawn_of_programOfTokens :
    ReadOff tokens (Stmt.AllDrawn tokens false) (Stmt.programOfTokens tokens) := by
  have reads := (Grammar.draws (Token.last_untilEof_mem ended)
    (Grammar.depthFor (Token.untilEof tokens).1)).declarations false
  have start := Cursor.drawn_untilEof tokens
  unfold Stmt.programOfTokens
  dsimp only
  split
  · rename_i program c made
    obtain ⟨drawn, all⟩ := reads.of_ok start made
    cases c.errors.isEmpty
    · exact drawn.2
    · exact all
  · rename_i e c failed
    obtain ⟨drawn, among⟩ := reads.of_fail start failed
    exact drawn.2.snoc among
  · exact fun _ none => nomatch none

theorem drawn_of_ofTokens : ReadOff tokens (Expr.Drawn tokens) (Expr.ofTokens tokens) := by
  have among := Token.last_untilEof_mem ended
  have start := Cursor.drawn_untilEof tokens
  have reads : Parse.Draws tokens (Grammar.alone (Token.untilEof tokens).2
      (Grammar.depthFor (Token.untilEof tokens).1)) (Expr.Drawn tokens) := by
    refine (Grammar.draws among _).expression.bind fun e drawn => .bind .accept fun _ _ => ?_
    refine .bind .next fun more _ => ?_
    split
    · exact (Parse.Draws.peek among).bind fun t here => (Parse.Draws.report here _).bind fun _ _ =>
        .pure drawn
    · exact .pure drawn
  rw [Expr.ofTokens_eq]
  dsimp only
  split
  · rename_i e c made
    obtain ⟨drawn, all⟩ := reads.of_ok start made
    cases c.errors.isEmpty
    · exact drawn.2
    · exact all
  · rename_i e c failed
    obtain ⟨drawn, among⟩ := reads.of_fail start failed
    exact drawn.2.snoc among
  · exact fun _ none => nomatch none

end

end LoxLang
