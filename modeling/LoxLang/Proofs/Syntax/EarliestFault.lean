import LoxLang.Proofs.Syntax.Acceptance
import LoxLang.Proofs.Syntax.Tracking
/-!
The first fatal fault is at the earliest impossible token. All rules track the relaxed grammar
(`Grammar.tracks`): what is read at one depth is read again at every greater one, in front of the same
token. So the tokens in front of the first fatal fault can be continued to a program. They cannot if the
token of the fault comes next: a program has a reading, whose faults are all mild, and with enough depth
the parser follows it, but it would come to the fatal fault again.

What is proved: `Stmt.fatal_fault_earliest`.
-/
namespace LoxLang

open Ebnf Dialect Relaxed

namespace Grammar

open Parse

/-- What makes a call of what is in front of it, or a property. -/
def onward : Ebnf Nonterminal :=
  .alt (inOrder [symbol .leftParen, .opt (.rule .arguments)] (symbol .rightParen))
    (.seq (symbol .dot) name)

section

variable (last : Token)

/-- What the rule reads at the depth `n` it reads again at all greater ones. -/
abbrev Tracked {α : Type} (rule : Nat → Parse α) (n : Nat) (e : Ebnf Nonterminal) : Prop :=
  Parse.Tracks last (rule n) (fun k => rule (k + n)) e

/-- What all rules read at the depth `n` they read again at all greater ones. -/
structure Tracks (n : Nat) : Prop where
  moreParams (count : Nat) :
    Tracked last (fun d => moreParams last d count) n (relaxed.divided name)
  expression : Tracked last (expression last) n (.rule .expression)
  lambda : Tracked last (lambda last) n (.rule .lambda)
  lambdaBody : Tracked last (lambdaBody last) n
    (.alt (.rule .block) relaxed.bodyExpression)
  ternary : Tracked last (ternary last) n (.rule .ternary)
  operation (level : Level) :
    Tracked last (fun d => operation last d level) n (.rule (.operation level))
  operand (level : Level) :
    Tracked last (fun d => operand last d level) n (.rule level.operands)
  moreOperation (level : Level) (left : Expr) :
    Tracked last (fun d => moreOperation last d level left) n
      (.many (.seq level.operators (.rule level.operands)))
  unary : Tracked last (unary last) n (.rule .unary)
  moreCall (callee : Expr) : Tracked last (fun d => moreCall last d callee) n
    (.many onward)
  moreArguments (count : Nat) :
    Tracked last (fun d => moreArguments last d count) n
      (relaxed.divided (.rule .expression))
  primary : Tracked last (primary last) n (.rule .primary)
  declaration : Tracked last (declaration last) n (.rule .declaration)
  declarationRule :
    Tracked last (declarationRule last) n (.rule .declaration)
  classRule : Tracked last (classRule last) n
    (inOrder [name, symbol .leftBrace,
      .many (.seq (.opt (keyword .class)) (.rule .function))] (symbol .rightBrace))
  members : Tracked last (members last) n
    (.many (.seq (.opt (keyword .class)) (.rule .function)))
  function (callee : Callee) :
    Tracked last (fun d => function last d callee) n (.rule .function)
  varRule : Tracked last (varRule last) n
    (inOrder [.rule .varItem, .many (.seq (symbol .comma) (.rule .varItem))] (symbol .semicolon))
  declarators : Tracked last (declarators last) n
    (.seq (.rule .varItem) (.many (.seq (symbol .comma) (.rule .varItem))))
  statement : Tracked last (statement last) n (.rule .statement)
  forRule : Tracked last (forRule last) n
    (inOrder [symbol .leftParen, oneOf [.rule .varDecl, .rule .exprStmt] (symbol .semicolon),
      .opt (.rule .expression), symbol .semicolon, .opt (.rule .expression), symbol .rightParen]
      (.rule .statement))
  forInitial : Tracked last (forInitial last) n
    (oneOf [.rule .varDecl, .rule .exprStmt] (symbol .semicolon))
  ifRule : Tracked last (ifRule last) n
    (inOrder [symbol .leftParen, .rule .expression, symbol .rightParen, .rule .statement]
      (.opt (.seq (keyword .else) (.rule .statement))))
  returnRule (word : Token) : Tracked last (fun d => returnRule last d word) n
    (.seq (.opt (.rule .expression)) (symbol .semicolon))
  whileRule : Tracked last (whileRule last) n
    (inOrder [symbol .leftParen, .rule .expression, symbol .rightParen] (.rule .statement))
  expressionRule :
    Tracked last (expressionRule last) n (.rule .exprStmt)
  block : Tracked last (block last) n
    (.seq (.many (.rule .declaration)) (symbol .rightBrace))
  declarations (inBlock : Bool) :
    Tracked last (fun d => declarations last d inBlock) n
      (.many (.rule .declaration))

variable {last} {n : Nat}

theorem Tracks.zero (h : ∀ k, Keeps last k) : Tracks last 0 where
  moreParams count := .starved fun k => (h k).moreParams count
  expression := .starved fun k => (h k).expression
  lambda := .starved fun k => (h k).lambda
  lambdaBody := .starved fun k => (h k).lambdaBody
  ternary := .starved fun k => (h k).ternary
  operation level := .starved fun k => (h k).operation level
  operand level := .starved fun k => (h k).operand level
  moreOperation level left := .starved fun k => (h k).moreOperation level left
  unary := .starved fun k => (h k).unary
  moreCall callee := .starved fun k => (h k).moreCall callee
  moreArguments count := .starved fun k => (h k).moreArguments count
  primary := .starved fun k => (h k).primary
  declaration := .starved fun k => (h k).declaration
  declarationRule := .starved fun k => (h k).declarationRule
  classRule := .starved fun k => (h k).classRule
  members := .starved fun k => (h k).members
  function callee := .starved fun k => (h k).function callee
  varRule := .starved fun k => (h k).varRule
  declarators := .starved fun k => (h k).declarators
  statement := .starved fun k => (h k).statement
  forRule := .starved fun k => (h k).forRule
  forInitial := .starved fun k => (h k).forInitial
  ifRule := .starved fun k => (h k).ifRule
  returnRule word := .starved fun k => (h k).returnRule word
  whileRule := .starved fun k => (h k).whileRule
  expressionRule := .starved fun k => (h k).expressionRule
  block := .starved fun k => (h k).block
  declarations inBlock := .starved fun k => (h k).declarations inBlock

theorem excess_tracks {α : Type} {fault : SyntaxFault} (mild : fault.fatal = false) {count : Nat}
    {e : Ebnf Nonterminal} {rule : Nat → Parse α} (h : Tracked last rule n e) :
    Tracked last (fun d => counted last fault count (rule d)) n e := by
  unfold counted
  dsimp only
  split
  · exact .peek fun _ => .report mild h
  · exact h

theorem more_tracks {α : Type} {e : Ebnf Nonterminal} {others : Nat → Parse (List α)}
    (h : Tracked last others n (relaxed.divided e)) (first : α) :
    Tracked last (fun d => do
      if ← accept (Token.isSymbol .comma) then
        let xs ← others d
        pure (first :: xs)
      else pure [first]) n (.many (.seq (symbol .comma) e)) :=
  .accept _ (h.map _) (fun _ _ ht derived => many_divided ht derived) (.pure .done)

theorem moreParams_tracks (h : Tracks last n) (count : Nat) :
    Tracked last (fun d => moreParams last (d + 1) count) n
      (relaxed.divided name) := by
  simp only [moreParams_eq]
  refine excess_tracks rfl ?_
  exact (Tracks.expect rfl completable_name).bind (fun name => more_tracks (h.moreParams _) name)
    completable_many

theorem params_tracks (h : Tracks last n) {β : Type} {e : Ebnf Nonterminal}
    {cont : List Token → Parse β} {onward : Nat → List Token → Parse β}
    (h' : ∀ names, Parse.Tracks last (cont names) (fun k => onward k names) e)
    (more : Completable e) :
    Parse.Tracks last (params last n >>= cont) (fun k => params last (k + n) >>= onward k)
      (inOrder [.opt (.rule .parameters), symbol .rightParen] e) := by
  unfold params
  have rest (names : List Token) : Tracked last (fun _ => closeParams last names) n (symbol .rightParen) :=
    (Tracks.expect rfl (completable_symbol .rightParen)).map _
  have whole : Tracked last (params last) n
      (.seq (.opt (.rule .parameters)) (symbol .rightParen)) := by
    refine .next fun empty => ?_
    dsimp only
    split
    · exact (rest []).imp fun u derived => .seq .absent derived
    · refine ((h.moreParams 0).bind rest (completable_symbol _)).imp fun u derived => ?_
      obtain ⟨v, w, names, closed, rfl⟩ := of_seq derived
      exact .seq (.present (.rule names)) closed
  exact (whole.bind h' more).imp fun u => seq_assoc

theorem expression_tracks (h : Tracks last n) :
    Tracked last (fun d => Grammar.expression last (d + 1)) n
      (.rule .expression) := by
  unfold Grammar.expression
  have more : Completable (.opt (.seq (symbol .equal) (.rule .assignment))) := completable_opt
  have value : ∀ u, Relaxed (.rule .expression) u → Relaxed (.rule .assignment) u := fun u => of_rule
  refine (h.lambda.bind (fun target => ?_) more).imp fun u derived => ?_
  · refine .take (.rule .expression) (fun equals _ => ?_)
      (fun t u ht read => .present (.seq (.token ht) (value u read))) (.pure .absent)
    cases target with
    | «variable» name depth => exact h.expression.map _
    | property object name => exact h.expression.map _
    | _ => exact h.expression.close fun _ => .report rfl (.pure .enough)
  · obtain ⟨v, w, target, rest, rfl⟩ := of_seq derived
    rcases of_opt rest with rfl | rest
    · rw [List.append_nil]
      exact .rule (.rule (.right target))
    · obtain ⟨x, y, equals, value, rfl⟩ := of_seq rest
      rw [← List.append_assoc]
      exact .rule (.rule (.left (.seq (.seq target equals) value)))

theorem lambda_tracks (h : Tracks last n) :
    Tracked last (fun d => Grammar.lambda last (d + 1)) n (.rule .lambda) := by
  unfold Grammar.lambda
  have body : Completable (.alt (.rule .block) relaxed.bodyExpression) := .left (completable_rule _)
  refine .take (inOrder [symbol .leftParen, .opt (.rule .parameters), symbol .rightParen]
    (.alt (.rule .block) relaxed.bodyExpression)) (fun keyword _ => ?_) (fun t u ht derived => ?_)
    (h.ternary.imp fun u derived => .rule (.right derived))
  · exact (Tracks.expect rfl (completable_symbol .leftParen)).bind
      (fun _ => params_tracks h (fun names => h.lambdaBody.map _) body) (by simp [body])
  · exact .rule (.left (.seq (.token ht) derived))

theorem lambdaBody_tracks (h : Tracks last n) :
    Tracked last (fun d => Grammar.lambdaBody last (d + 1)) n
      (.alt (.rule .block) relaxed.bodyExpression) := by
  unfold Grammar.lambdaBody
  refine .accept _ h.block (fun t u ht derived => .left (.rule (.seq (.token ht) derived))) ?_
  refine .take (.rule .expression) (fun keyword _ => ?_)
    (fun t u ht derived => .right (.seq (.present (.token ht)) derived)) ?_
  · exact .report rfl (.peek fun first => h.expression.map _)
  · exact .peek fun first => (h.expression.map _).imp fun u derived => .right (.seq .absent derived)

theorem ternary_tracks (h : Tracks last n) :
    Tracked last (fun d => Grammar.ternary last (d + 1)) n
      (.rule .ternary) := by
  unfold Grammar.ternary
  refine ((h.operation .disjunction).bind (fun condition => ?_) completable_opt).imp
    fun u derived => .rule derived
  refine .accept (inOrder [.rule .ternary, symbol .colon] (.rule .ternary)) ?_
    (fun t u ht derived => .present (.seq (.token ht) derived)) (.pure .absent)
  exact h.ternary.bind (fun whenTrue => (Tracks.expect rfl (completable_symbol .colon)).bind
    (fun _ => h.ternary.map _) (completable_rule _)) (by simp)

theorem operation_tracks (h : Tracks last n) (level : Level) :
    Tracked last (fun d => Grammar.operation last (d + 1) level) n
      (.rule (.operation level)) := by
  unfold Grammar.operation
  exact ((h.operand level).bind (fun left => h.moreOperation level left) completable_many).imp
    fun u derived => .rule derived

theorem operand_tracks (h : Tracks last n) (level : Level) :
    Tracked last (fun d => Grammar.operand last (d + 1) level) n
      (.rule level.operands) := by
  unfold Grammar.operand
  cases level with
  | factor => exact h.unary
  | _ => exact h.operation _

theorem moreOperation_tracks (h : Tracks last n) (level : Level) (left : Expr) :
    Tracked last (fun d => Grammar.moreOperation last (d + 1) level left) n
      (.many (.seq level.operators (.rule level.operands))) := by
  unfold Grammar.moreOperation
  refine .take (.seq (.rule level.operands) (.many (.seq level.operators (.rule level.operands))))
    (fun op _ => ?_) (fun t u ht derived => ?_) (.pure .done)
  · exact (h.operand level).bind (fun right => h.moreOperation level _) completable_many
  · obtain ⟨v, w, right, others, rfl⟩ := of_seq derived
    obtain ⟨op, same, operator⟩ := Reading.covers_operator (d := relaxed) (b := []) ht
    rw [List.append_nil] at same
    subst same
    exact .more (.seq operator right) others

theorem unary_tracks (h : Tracks last n) :
    Tracked last (fun d => Grammar.unary last (d + 1)) n (.rule .unary) := by
  unfold Grammar.unary
  refine .take (.rule .unary) (fun op _ => h.unary.map _) (fun t u ht derived => ?_) ?_
  · obtain ⟨op, same, operator⟩ := Reading.covers_unaryOperator (d := relaxed) (b := []) ht
    rw [List.append_nil] at same
    subst same
    exact .rule (.left (.seq operator derived))
  · exact (h.primary.bind (fun callee => h.moreCall callee) completable_many).imp
      fun u derived => .rule (.right (.rule derived))

theorem moreCall_tracks (h : Tracks last n) (callee : Expr) :
    Tracked last (fun d => Grammar.moreCall last (d + 1) callee) n
      (.many onward) := by
  unfold Grammar.moreCall
  have closed (values : List Expr) : Tracked last (fun d => closeCall last d callee values) n
      (.seq (symbol .rightParen) (.many onward)) :=
    (Tracks.expect rfl (completable_symbol .rightParen)).bind (fun _ => h.moreCall _)
      completable_many
  refine .accept (.seq (inOrder [.opt (.rule .arguments)] (symbol .rightParen)) (.many onward)) ?_
    (fun t u ht derived => ?_) ?_
  · refine .next fun empty => ?_
    dsimp only
    split
    · refine (closed []).imp fun u derived => ?_
      obtain ⟨v, w, paren, others, rfl⟩ := of_seq derived
      exact .seq (.seq .absent paren) others
    · refine ((h.moreArguments 0).bind closed (by simp)).imp fun u derived => ?_
      obtain ⟨v, w, values, rest, rfl⟩ := of_seq derived
      obtain ⟨x, y, paren, others, rfl⟩ := of_seq rest
      rw [← List.append_assoc]
      exact .seq (.seq (.present (.rule values)) paren) others
  · obtain ⟨v, w, call, others, rfl⟩ := of_seq derived
    exact .more (.left (.seq (.token ht) call)) others
  · refine .accept (.seq name (.many onward)) ?_ (fun t u ht derived => ?_) (.pure .done)
    · exact (Tracks.expect rfl completable_name).bind (fun _ => h.moreCall _) completable_many
    · obtain ⟨v, w, property, others, rfl⟩ := of_seq derived
      exact .more (.right (.seq (.token ht) property)) others

theorem moreArguments_tracks (h : Tracks last n) (count : Nat) :
    Tracked last (fun d => Grammar.moreArguments last (d + 1) count) n
      (relaxed.divided (.rule .expression)) := by
  simp only [moreArguments_eq]
  refine excess_tracks rfl ?_
  exact h.expression.bind (fun value => more_tracks (h.moreArguments _) value) completable_many

theorem atom_tracks {α : Type} {cont : Nat → Option Expr → Parse α}
    (found : ∀ e, Tracked last (fun d => cont d (some e)) n nothing)
    (left : Tracked last (fun d => cont d none) n (.rule .primary)) :
    Tracked last (fun d => atom >>= cont d) n (.rule .primary) := by
  have taken : ∀ (t : Token) (x : Option Expr), (atom? t).map some = some x →
      Tracked last (fun d => cont d x) n nothing := fun t x made => by
    obtain ⟨e, _, rfl⟩ := Option.map_eq_some_iff.mp made
    exact found e
  refine .step steps_atom taken (fun t x u made derived => ?_) left
  obtain ⟨e, atom, rfl⟩ := Option.map_eq_some_iff.mp made
  cases derived
  obtain ⟨v, same, derived⟩ := (Reading.covers_atom (d := relaxed) (b := []) atom).1
  rw [List.append_nil] at same
  rwa [same]

theorem primary_tracks (h : Tracks last n) :
    Tracked last (fun d => Grammar.primary last (d + 1)) n
      (.rule .primary) := by
  unfold Grammar.primary
  refine atom_tracks (fun e => .pure .enough) ?_
  refine .accept (inOrder [.rule .expression] (symbol .rightParen)) ?_ (fun t u ht derived => ?_)
    (.fail rfl (completable_rule _))
  · exact h.expression.bind
      (fun inner => (Tracks.expect rfl (completable_symbol .rightParen)).map _)
      (completable_symbol _)
  · exact .rule (.right (.right (.right (.right (.right (.right (.right
      (.seq (.token ht) derived))))))))

theorem declaration_ok {n : Nat} {c d : Cursor} {s : Stmt}
    (h : Grammar.declarationRule last n c = .ok s d) :
    Grammar.declaration last (n + 1) c = .ok (some s) d := by
  unfold Grammar.declaration
  rw [h]

/-- A declaration that is given up has noted its fault. -/
theorem declaration_fatal? (last : Token) (n : Nat) (c : Cursor) :
    (Grammar.declaration last (n + 1) c).fatal? = (Grammar.declarationRule last n c).fatal? := by
  unfold Grammar.declaration
  cases Grammar.declarationRule last n c <;> rfl

theorem declaration_meets {n : Nat} {c : Cursor} {f : SyntaxError}
    (h : (Grammar.declarationRule last n c).Meets f) :
    (Grammar.declaration last (n + 1) c).Meets f := by
  rcases h with out | first
  · left
    unfold Grammar.declaration
    rw [out]
  · exact .inr ((declaration_fatal? last n c).trans first)

theorem declaration_tracks (h : Tracks last n) :
    Parse.Tracks last (Grammar.declaration last (n + 1))
      (fun k => Grammar.declaration last (k + n + 1)) (.rule .declaration) where
  keeps := (Grammar.keeps last (n + 1)).declaration
  keepsAgain k := (Grammar.keeps last (k + n + 1)).declaration
  fails c f d failed := by
    unfold Grammar.declaration at failed
    split at failed <;> cases failed
  passes a errors x c clean made mild := by
    have whole := declaration_fatal? last n ⟨a, errors⟩
    rw [made] at whole
    unfold Grammar.declaration at made
    cases first : Grammar.declarationRule last n ⟨a, errors⟩ with
    | ok s d =>
      rw [first] at made
      cases made
      obtain ⟨u, same, derived, reread⟩ := h.declarationRule.passes a errors s c clean first mild
      refine ⟨u, same, derived, fun k b' errors' same' clean' => ?_⟩
      obtain ⟨noted, mild', ran⟩ := reread k b' errors' same' clean'
      exact ⟨noted, mild', declaration_ok ran⟩
    | fail f d =>
      -- The fault it was given up for is fatal.
      have fatal := h.declarationRule.fails _ f d first
      have none_ : firstFatal? (d.errors ++ [f]) = none := by
        rw [first] at whole
        exact whole.symm.trans mild
      rw [firstFatal?, List.find?_eq_none] at none_
      exact absurd fatal (none_ f (List.mem_append_right _ List.mem_cons_self))
    | starved =>
      rw [first] at made
      cases made
  sticks a errors f clean stuck := by
    rw [declaration_fatal?] at stuck
    obtain ⟨u, b, same, here, viable, reread⟩ := h.declarationRule.sticks a errors f clean stuck
    exact ⟨u, b, same, here, viable, fun k b' errors' same' clean' =>
      declaration_meets (reread k b' errors' same' clean')⟩

theorem declarationRule_tracks (h : Tracks last n) :
    Tracked last (fun d => Grammar.declarationRule last (d + 1)) n
      (.rule .declaration) := by
  unfold Grammar.declarationRule
  refine .accept _ h.classRule
    (fun t u ht derived => .rule (.left (.rule (.seq (.token ht) derived)))) ?_
  refine .accept _ ((h.function _).map _)
    (fun t u ht derived => .rule (.right (.left (.rule (.seq (.token ht) derived))))) ?_
  refine .accept _ h.varRule
    (fun t u ht derived => .rule (.right (.right (.left (.rule (.seq (.token ht) derived)))))) ?_
  exact h.statement.imp fun u derived => .rule (.right (.right (.right derived)))

theorem classRule_tracks (h : Tracks last n) :
    Tracked last (fun d => Grammar.classRule last (d + 1)) n
      (inOrder [name, symbol .leftBrace,
        .many (.seq (.opt (keyword .class)) (.rule .function))] (symbol .rightBrace)) := by
  unfold Grammar.classRule
  exact (Tracks.expect rfl completable_name).bind (fun _ =>
    (Tracks.expect rfl (completable_symbol .leftBrace)).bind (fun _ =>
      h.members.bind (fun _ => (Tracks.expect rfl (completable_symbol .rightBrace)).map _)
        (by simp)) (by simp)) (by simp)

theorem members_tracks (h : Tracks last n) :
    Tracked last (fun d => Grammar.members last (d + 1)) n
      (.many (.seq (.opt (keyword .class)) (.rule .function))) := by
  unfold Grammar.members
  refine .look (looks_over true) fun past => ?_
  split
  · exact .pure .done
  refine .accept (.seq (.rule .function) (.many (.seq (.opt (keyword .class)) (.rule .function)))) ?_
    (fun t u ht derived => ?_) ?_
  · exact (h.function _).bind (fun code => h.members.map _) completable_many
  · obtain ⟨v, w, code, others, rfl⟩ := of_seq derived
    exact .more (.seq (.present (.token ht)) code) others
  · refine ((h.function _).bind (fun code => h.members.map _) completable_many).imp
      fun u derived => ?_
    obtain ⟨v, w, code, others, rfl⟩ := of_seq derived
    exact .more (.seq .absent code) others

theorem function_tracks (h : Tracks last n) (callee : Callee) :
    Tracked last (fun d => Grammar.function last (d + 1) callee) n
      (.rule .function) := by
  unfold Grammar.function
  have body (name : Token) (names : List Token) : Tracked last (fun d => do
      let _ ← expect last (Token.isSymbol .leftBrace) (.calleeBody callee)
      let body ← Grammar.block last d
      pure (⟨name, names, body⟩ : Function)) n (.rule .block) :=
    ((Tracks.expect rfl (completable_symbol .leftBrace)).bind (fun _ => h.block.map _)
      (by simp)).imp fun u derived => .rule derived
  exact ((Tracks.expect rfl completable_name).bind (fun name =>
    (Tracks.expect rfl (completable_symbol .leftParen)).bind (fun _ =>
      params_tracks h (body name) (completable_rule _)) (by simp))
        (completable_seq.mpr ⟨completable_symbol _, by simp⟩)).imp fun u derived => .rule derived

theorem varRule_tracks (h : Tracks last n) :
    Tracked last (fun d => Grammar.varRule last (d + 1)) n
      (inOrder [.rule .varItem, .many (.seq (symbol .comma) (.rule .varItem))]
        (symbol .semicolon)) := by
  unfold Grammar.varRule
  refine (h.declarators.bind (fun ds => ?_) (completable_symbol .semicolon)).imp fun u => seq_assoc
  obtain ⟨first, others⟩ := ds
  cases others with
  | nil => exact (Tracks.expect rfl (completable_symbol .semicolon)).map _
  | cons => exact (Tracks.expect rfl (completable_symbol .semicolon)).map _

theorem declarators_tracks (h : Tracks last n) :
    Tracked last (fun d => Grammar.declarators last (d + 1)) n
      (.seq (.rule .varItem) (.many (.seq (symbol .comma) (.rule .varItem)))) := by
  unfold Grammar.declarators
  have rest (first : Declarator) : Tracked last (fun d => declaratorsBehind last d first) n
      (.many (.seq (symbol .comma) (.rule .varItem))) :=
    .accept _ (h.declarators.map _) (fun t u ht derived => many_divided ht derived) (.pure .done)
  have more : Completable (.seq (.opt (.seq (symbol .equal) (.rule .expression)))
      (.many (.seq (symbol .comma) (.rule .varItem)))) := by simp
  refine ((Tracks.expect rfl completable_name).bind (fun name => ?_) more).imp fun u derived => ?_
  · refine .accept (.seq (.rule .expression) (.many (.seq (symbol .comma) (.rule .varItem)))) ?_
      (fun t u ht derived => ?_) ((rest ⟨name, none⟩).imp fun u derived => .seq .absent derived)
    · exact h.expression.bind (fun value => rest ⟨name, some value⟩) completable_many
    · obtain ⟨v, w, value, others, rfl⟩ := of_seq derived
      exact .seq (.present (.seq (.token ht) value)) others
  · obtain ⟨v, w, name, behind, rfl⟩ := of_seq derived
    obtain ⟨x, y, initial, others, rfl⟩ := of_seq behind
    rw [← List.append_assoc]
    exact .seq (.rule (.seq name initial)) others

theorem statement_tracks (h : Tracks last n) :
    Tracked last (fun d => Grammar.statement last (d + 1)) n
      (.rule .statement) := by
  unfold Grammar.statement
  have print : Tracked last (fun d => do
      let value ← Grammar.expression last d
      let _ ← expect last (Token.isSymbol .semicolon) .printEnd
      pure (Stmt.print value)) n (.seq (.rule .expression) (symbol .semicolon)) :=
    h.expression.bind (fun _ => (Tracks.expect rfl (completable_symbol .semicolon)).map _)
      (completable_symbol _)
  refine .accept _ h.forRule
    (fun t u ht derived => .rule (.right (.left (.rule (.seq (.token ht) derived))))) ?_
  refine .accept _ h.ifRule
    (fun t u ht derived => .rule (.right (.right (.left (.rule (.seq (.token ht) derived)))))) ?_
  refine .accept _ print (fun t u ht derived =>
    .rule (.right (.right (.right (.left (.rule (.seq (.token ht) derived))))))) ?_
  refine .take _ (fun word _ => h.returnRule word) (fun t u ht derived =>
    .rule (.right (.right (.right (.right (.left (.rule (.seq (.token ht) derived)))))))) ?_
  refine .accept _ h.whileRule (fun t u ht derived => .rule
    (.right (.right (.right (.right (.right (.left (.rule (.seq (.token ht) derived))))))))) ?_
  refine .accept _ (h.block.map _) (fun t u ht derived => .rule
    (.right (.right (.right (.right (.right (.right (.rule (.seq (.token ht) derived))))))))) ?_
  exact h.expressionRule.imp fun u derived => .rule (.left derived)

theorem optional_tracks (h : Tracks last n) (p : Token → Bool) {β : Type} {e : Ebnf Nonterminal}
    {cont : Option Expr → Parse β} {onward : Nat → Option Expr → Parse β}
    (h' : ∀ o, Parse.Tracks last (cont o) (fun k => onward k o) e) (more : Completable e) :
    Parse.Tracks last (optional last n p cont) (fun k => optional last (k + n) p (onward k))
      (.seq (.opt (.rule .expression)) e) := by
  refine .next fun missing => ?_
  dsimp only
  split
  · exact (h' none).imp fun u derived => .seq .absent derived
  · refine (h.expression.bind (fun value => h' (some value)) more).imp fun u derived => ?_
    obtain ⟨v, w, value, rest, rfl⟩ := of_seq derived
    exact .seq (.present value) rest

theorem forRule_tracks (h : Tracks last n) :
    Tracked last (fun d => Grammar.forRule last (d + 1)) n
      (inOrder [symbol .leftParen, oneOf [.rule .varDecl, .rule .exprStmt] (symbol .semicolon),
        .opt (.rule .expression), symbol .semicolon, .opt (.rule .expression), symbol .rightParen]
        (.rule .statement)) := by
  unfold Grammar.forRule
  have initial : Completable (oneOf [.rule .varDecl, .rule .exprStmt] (symbol .semicolon)) :=
    .left (completable_rule _)
  exact (Tracks.expect rfl (completable_symbol .leftParen)).bind (fun _ =>
    h.forInitial.bind (fun _ =>
      optional_tracks h _ (fun _ => (Tracks.expect rfl (completable_symbol .semicolon)).bind (fun _ =>
        optional_tracks h _ (fun _ => (Tracks.expect rfl (completable_symbol .rightParen)).bind
          (fun _ => h.statement.map _) (by simp)) (by simp)) (by simp)) (by simp)) (by simp))
    (by simp [initial])

theorem forInitial_tracks (h : Tracks last n) :
    Tracked last (fun d => Grammar.forInitial last (d + 1)) n
      (oneOf [.rule .varDecl, .rule .exprStmt] (symbol .semicolon)) := by
  unfold Grammar.forInitial
  refine .accept nothing (.pure .enough) (fun t u ht derived => ?_) ?_
  · cases derived
    exact .right (.right (.token ht))
  refine .accept _ (h.varRule.map _) (fun t u ht derived => .left (.rule (.seq (.token ht) derived))) ?_
  exact (h.expressionRule.map _).imp fun u derived => .right (.left derived)

theorem ifRule_tracks (h : Tracks last n) :
    Tracked last (fun d => Grammar.ifRule last (d + 1)) n
      (inOrder [symbol .leftParen, .rule .expression, symbol .rightParen, .rule .statement]
        (.opt (.seq (keyword .else) (.rule .statement)))) := by
  unfold Grammar.ifRule
  exact (Tracks.expect rfl (completable_symbol .leftParen)).bind (fun _ =>
    h.expression.bind (fun _ => (Tracks.expect rfl (completable_symbol .rightParen)).bind (fun _ =>
      h.statement.bind (fun _ => .accept _ (h.statement.map _)
        (fun t u ht derived => .present (.seq (.token ht) derived)) (.pure .absent))
        completable_opt) (by simp)) (by simp)) (by simp)

theorem returnRule_tracks (h : Tracks last n) (word : Token) :
    Tracked last (fun d => Grammar.returnRule last (d + 1) word) n
      (.seq (.opt (.rule .expression)) (symbol .semicolon)) := by
  unfold Grammar.returnRule
  exact optional_tracks h _ (fun _ => (Tracks.expect rfl (completable_symbol .semicolon)).map _)
    (completable_symbol _)

theorem whileRule_tracks (h : Tracks last n) :
    Tracked last (fun d => Grammar.whileRule last (d + 1)) n
      (inOrder [symbol .leftParen, .rule .expression, symbol .rightParen] (.rule .statement)) := by
  unfold Grammar.whileRule
  exact (Tracks.expect rfl (completable_symbol .leftParen)).bind (fun _ =>
    h.expression.bind (fun _ => (Tracks.expect rfl (completable_symbol .rightParen)).bind
      (fun _ => h.statement.map _) (by simp)) (by simp)) (by simp)

theorem expressionRule_tracks (h : Tracks last n) :
    Tracked last (fun d => Grammar.expressionRule last (d + 1)) n
      (.rule .exprStmt) := by
  unfold Grammar.expressionRule
  exact (h.expression.bind (fun _ => (Tracks.expect rfl (completable_symbol .semicolon)).map _)
    (completable_symbol _)).imp fun u derived => .rule derived

theorem block_tracks (h : Tracks last n) :
    Tracked last (fun d => Grammar.block last (d + 1)) n
      (.seq (.many (.rule .declaration)) (symbol .rightBrace)) := by
  unfold Grammar.block
  exact (h.declarations true).bind
    (fun _ => (Tracks.expect rfl (completable_symbol .rightBrace)).map _) (completable_symbol _)

theorem declarations_tracks (h : Tracks last n) (inBlock : Bool) :
    Tracked last (fun d => Grammar.declarations last (d + 1) inBlock) n (.many (.rule .declaration)) := by
  unfold Grammar.declarations
  refine .look (looks_over inBlock) fun past => ?_
  split
  · exact .pure .done
  · refine (h.declaration.bind (fun first => (h.declarations inBlock).map _) completable_many).imp
      fun u derived => ?_
    obtain ⟨v, w, first, others, rfl⟩ := of_seq derived
    exact .more first others

/-- What is read at one depth is read again at every greater one. -/
theorem tracks (last : Token) : ∀ n, Tracks last n
  | 0 => .zero (keeps last)
  | n + 1 =>
    have h := tracks last n
    { moreParams := moreParams_tracks h
      expression := expression_tracks h
      lambda := lambda_tracks h
      lambdaBody := lambdaBody_tracks h
      ternary := ternary_tracks h
      operation := operation_tracks h
      operand := operand_tracks h
      moreOperation := moreOperation_tracks h
      unary := unary_tracks h
      moreCall := moreCall_tracks h
      moreArguments := moreArguments_tracks h
      primary := primary_tracks h
      declaration := declaration_tracks h
      declarationRule := declarationRule_tracks h
      classRule := classRule_tracks h
      members := members_tracks h
      function := function_tracks h
      varRule := varRule_tracks h
      declarators := declarators_tracks h
      statement := statement_tracks h
      forRule := forRule_tracks h
      forInitial := forInitial_tracks h
      ifRule := ifRule_tracks h
      returnRule := returnRule_tracks h
      whileRule := whileRule_tracks h
      expressionRule := expressionRule_tracks h
      block := block_tracks h
      declarations := declarations_tracks h }

end

end Grammar

/-! Programs and their end -/

namespace Relaxed

variable {e : Ebnf Nonterminal} {u : List Token}

/-- No part of the rule is an end token or a whole program. -/
def Inner : Ebnf Nonterminal → Prop
  | .token p => ∀ t, p t = true → t.isEof = false
  | .rule n => n ≠ .program
  | .seq e f => Inner e ∧ Inner f
  | .alt e f => Inner e ∧ Inner f
  | .opt e => Inner e
  | .many e => Inner e
  | .atMost _ e => Inner e

@[simp]
theorem inner_symbol (s : Symbol) : Inner (symbol s) :=
  fun _ h => Token.isSymbol_elim (p := Token.isEof) h fun _ _ => rfl

@[simp]
theorem inner_keyword (k : Keyword) : Inner (keyword k) :=
  fun _ h => Token.isKeyword_elim (p := Token.isEof) h fun _ _ => rfl

@[simp]
theorem inner_name : Inner name :=
  fun _ h => Token.isIdentifier_elim (p := Token.isEof) h fun _ _ => rfl

theorem inner_number : Inner (.token Token.isNumber) := by
  rintro ⟨kind, lexeme, line⟩ h
  cases kind <;> first | rfl | cases h

theorem inner_string : Inner (.token Token.isString) := by
  rintro ⟨kind, lexeme, line⟩ h
  cases kind <;> first | rfl | cases h

theorem inner_operation (level : Level) : Inner (relaxed.rules (.operation level)) := by
  cases level <;> simp [rules, Inner, Level.operators, Level.operands, oneOf]

theorem inner_rules {n : Nonterminal} (other : n ≠ .program) : Inner (relaxed.rules n) := by
  cases n with
  | program => exact absurd rfl other
  | operation level => exact inner_operation level
  | primary => exact ⟨inner_number, inner_string, by simp [Inner, inOrder, oneOf]⟩
  | _ => simp [rules, Inner, inOrder, oneOf, target, bodyExpression, divided]

theorem isEof_of_mem (h : Relaxed e u) (inner : Inner e) : ∀ t ∈ u, t.isEof = false := by
  induction h with
  | token h => exact List.forall_mem_singleton.mpr (inner _ h)
  | rule _ ih => exact ih (inner_rules inner)
  | seq _ _ ih ih' => exact List.forall_mem_append.mpr ⟨ih inner.1, ih' inner.2⟩
  | left _ ih => exact ih inner.1
  | right _ ih => exact ih inner.2
  | absent => exact fun t mem => absurd mem List.not_mem_nil
  | present _ ih => exact ih inner
  | done => exact fun t mem => absurd mem List.not_mem_nil
  | more _ _ ih ih' => exact List.forall_mem_append.mpr ⟨ih inner, ih' inner⟩
  | enough => exact fun t mem => absurd mem List.not_mem_nil
  | another _ _ ih ih' => exact List.forall_mem_append.mpr ⟨ih inner, ih' inner⟩

theorem of_program {tokens : List Token} (h : relaxed.Derives .program tokens) :
    ∃ front last, tokens = front ++ [last] ∧ (∀ t ∈ front, t.isEof = false) ∧
      last.isEof = true := by
  obtain ⟨front, w, declarations, ends, rfl⟩ := of_seq (of_rule h)
  cases ends with
  | token ends =>
    have inner : Inner (.many (.rule .declaration)) := Nonterminal.noConfusion
    exact ⟨front, _, rfl, isEof_of_mem declarations inner, ends⟩

theorem program {front : List Token} {last : Token}
    (h : Relaxed (.many (.rule .declaration)) front) (ends : last.isEof = true) :
    relaxed.Derives .program (front ++ [last]) := .rule (.seq h (.token ends))

end Relaxed

namespace Grammar

variable {last : Token} {front : List Token} {e : SyntaxError}

/-- Tokens whose declarations come to a fatal fault at all great depths are no program. -/
theorem no_program {n : Nat}
    (met : ∀ k, (declarations last (k + n) false ⟨front, []⟩).Meets e) (behind : Token) :
    ¬relaxed.Derives .program (front ++ [behind]) := by
  intro derived
  obtain ⟨program, vs, _, read⟩ := Reading.Program.of_derives derived
  let k := 32 * front.length + 22
  have settled := (settles last (k + n)).declarations false front (Nat.le_add_right _ _) []
  rcases Reading.Declarations.follows last (k + n) read [] with out | made
  · rw [out] at settled
    exact settled
  · have met := met k
    rw [made] at met
    have mild : firstFatal? vs = none := read.mild
    rcases met with out | first
    · cases out
    · rw [Reply.fatal?, List.nil_append, mild] at first
      cases first

/-- The faults of a program are what reading its declarations comes to. -/
theorem fatal?_of_error {es : List SyntaxError} (inner : ∀ t ∈ front, t.isEof = false)
    (ends : last.isEof = true) (failed : Stmt.programOfTokens (front ++ [last]) = .error es)
    (first : firstFatal? es = some e) :
    (declarations last (depthFor front) false ⟨front, []⟩).fatal? = some e := by
  unfold Stmt.programOfTokens at failed
  rw [Token.untilEof_append inner ends] at failed
  dsimp only at failed
  split at failed
  · rename_i made
    rw [made]
    split at failed
    · cases failed
    · cases failed
      exact first
  · rename_i made
    rw [made]
    cases failed
    exact first
  · cases failed
    cases first

end Grammar

open Grammar in
/-- The first fatal fault of tokens that end with their only end token is at the earliest token that is
impossible. The tokens in front of it can be continued to a program of the relaxed grammar; no tokens that
begin with them and with the token of the fault are such a program, the tokens themselves included if the
fault is at their end. -/
theorem Stmt.fatal_fault_earliest {front : List Token} {last : Token} {es : List SyntaxError}
    {e : SyntaxError} (inner : ∀ t ∈ front, t.isEof = false) (ends : last.isEof = true)
    (failed : Stmt.programOfTokens (front ++ [last]) = .error es) (first : firstFatal? es = some e) :
    ∃ before after, front ++ [last] = before ++ e.token :: after ∧
      (∃ rest, relaxed.Derives .program (before ++ rest)) ∧
      ∀ rest, ¬relaxed.Derives .program (before ++ e.token :: rest) := by
  have stuck := fatal?_of_error inner ends failed first
  obtain ⟨before, b, rfl, here, ⟨w, begun⟩, again⟩ :=
    ((tracks last (depthFor front)).declarations false).sticks front [] e rfl stuck
  have viable : ∃ rest, relaxed.Derives .program (before ++ rest) := by
    refine ⟨w ++ [last], ?_⟩
    rw [← List.append_assoc]
    exact program begun ends
  have never (b' : List Token) (same : b'.head? = b.head?) (behind : Token) :
      ¬relaxed.Derives .program (before ++ b' ++ [behind]) :=
    no_program (fun k => again k b' [] same rfl) behind
  cases b with
  | nil =>
    -- The fault is at the end, and behind the end token of a program there is nothing.
    obtain rfl : last = e.token := here
    refine ⟨before, [], by rw [List.append_nil], viable, fun rest derived => ?_⟩
    rcases List.eq_nil_or_concat rest with rfl | ⟨between, behind, rfl⟩
    · rw [← List.append_nil before] at derived
      exact never [] rfl e.token derived
    · obtain ⟨front, _, same, inside, _⟩ := of_program derived
      rw [List.concat_eq_append, ← List.cons_append, ← List.append_assoc] at same
      have among : e.token ∈ front := by
        rw [← (List.append_inj' same rfl).1]
        exact List.mem_append_right _ List.mem_cons_self
      rw [inside e.token among] at ends
      cases ends
  | cons t after =>
    obtain rfl : t = e.token := here
    refine ⟨before, after ++ [last], by rw [List.append_assoc]; rfl, viable, fun rest derived => ?_⟩
    rcases List.eq_nil_or_concat rest with rfl | ⟨between, behind, rfl⟩
    · -- No program ends with a token that is no end token.
      obtain ⟨front, final, same, _, isEof⟩ := of_program derived
      have final_eq : e.token = final := List.singleton_inj.mp (List.append_inj' same rfl).2
      rw [← final_eq, inner e.token (List.mem_append_right _ List.mem_cons_self)] at isEof
      cases isEof
    · rw [List.concat_eq_append, ← List.cons_append, ← List.append_assoc] at derived
      exact never (e.token :: between) rfl behind derived

/-- What is assigned to a constant is noted first, but that is not fatal. The operator without an operand
is, at the semicolon behind it, and what the declaration behind comes to is found later. -/
theorem Stmt.fatal_fault_earliest_second :
    let word (k : Keyword) : Token := ⟨.keyword k, "", 1⟩
    let mark (s : Symbol) : Token := ⟨.symbol s, "", 1⟩
    let semicolon : Token := ⟨.symbol .semicolon, ";", 2⟩
    let front := [word .true, mark .equal, word .nil, mark .semicolon,
      word .print, word .nil, mark .plus, semicolon, word .print, mark .rightParen]
    (∀ t ∈ front, t.isEof = false) ∧ (Token.eof 2).isEof = true ∧
      Stmt.programOfTokens (front ++ [.eof 2]) = .error
        [⟨.assignmentTarget, mark .equal⟩, ⟨.expression, semicolon⟩,
          ⟨.expression, mark .rightParen⟩] ∧
      ∃ before after, front ++ [.eof 2] = before ++ semicolon :: after ∧
        (∃ rest, relaxed.Derives .program (before ++ rest)) ∧
        ∀ rest, ¬relaxed.Derives .program (before ++ semicolon :: rest) := by
  intro word mark semicolon front
  have inner : ∀ t ∈ front, t.isEof = false := by decide
  have ends : (Token.eof 2).isEof = true := by decide
  have failed : Stmt.programOfTokens (front ++ [.eof 2]) = .error
      [⟨.assignmentTarget, mark .equal⟩, ⟨.expression, semicolon⟩,
        ⟨.expression, mark .rightParen⟩] := by rfl
  exact ⟨inner, ends, failed, Stmt.fatal_fault_earliest inner ends failed rfl⟩

end LoxLang
