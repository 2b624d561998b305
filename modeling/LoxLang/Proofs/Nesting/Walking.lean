import LoxLang.Proofs.Nesting.Padding
import LoxLang.Proofs.Syntax.Proper
/-!
The walk over a program some of whose statements were put into blocks of their own.

What is proved, by induction on the program: the walk goes through the same scopes as before and the
marked ones, finds the same faults and the same unused names, and makes the same of the program but
for the blocks and for the distances that lead over them (`statement_nests` and its siblings).
-/
namespace LoxLang

open Resolve Resolution

variable {chosen : List Nat → Bool}

/-- A statement that is no declaration, whichever scopes it stands in: it may get a block. -/
theorem enclose_nests {place : Surroundings} {s s' : Stmt} {marks : List Bool} (b : Bool)
    (h : ∀ marks, Nests (Paused marks) (Stmt.Bare marks) (statement place s) (statement place s')) :
    Nests (Paused marks) (Stmt.Nested marks) (statement place s)
      (statement place (s'.enclose b)) := by
  intro r r' paused
  cases b with
  | false =>
    obtain ⟨bare, after⟩ := h marks r r' paused
    exact ⟨.bare bare, after⟩
  | true =>
    obtain ⟨bare, after, settled⟩ := h (true :: marks) _ _ ⟨Pads.openMarked paused, paused.2⟩
    exact ⟨.enclosed bare, after.closeMarked, settled⟩

theorem plain_stands {s : Stmt} {marks : List Bool} (plain : s.isDeclaration = false)
    (declares : s.isDeclaration = true) : marks.headD false = false := by
  rw [plain] at declares
  cases declares

mutual

theorem expression_nests (place : Surroundings) : ∀ (e : Expr) (here : List Nat), e.Proper →
    ∀ {marks : List Bool}, Nests (Pads marks) (Expr.Nested marks) (expression place e)
      (expression place (e.wrap chosen here))
  | .literal value, _, _ => .pure (.literal value)
  | .group inner, _, proper =>
    (expression_nests place inner _ proper).bind fun _ _ inner => .pure (.group inner)
  | .unary op right, _, proper =>
    (expression_nests place right _ proper.2).bind fun _ _ right => .pure (.unary op right)
  | .binary left op right, _, proper =>
    (expression_nests place left _ proper.1).bind fun _ _ left =>
      (expression_nests place right _ proper.2.2).bind fun _ _ right => .pure (.binary op left right)
  | .logical left op right, _, proper =>
    (expression_nests place left _ proper.1).bind fun _ _ left =>
      (expression_nests place right _ proper.2.2).bind fun _ _ right => .pure (.logical op left right)
  | .ternary condition whenTrue whenFalse, _, proper =>
    (expression_nests place condition _ proper.1).bind fun _ _ condition =>
      (expression_nests place whenTrue _ proper.2.1).bind fun _ _ whenTrue =>
        (expression_nests place whenFalse _ proper.2.2).bind fun _ _ whenFalse =>
          .pure (.ternary condition whenTrue whenFalse)
  | .variable name _, _, _ =>
    (checkDefined_nests name).bind fun _ _ _ =>
      (locateRead_nests name).bind fun _ _ depth => .pure (.variable name depth)
  | .this keyword depth, _, proper => by
    obtain ⟨_, rfl⟩ := proper
    unfold Expr.wrap expression
    split
    · exact (report_nests _ _).bind fun _ _ _ => .pure (.this keyword rfl)
    · exact (report_nests _ _).bind fun _ _ _ => .pure (.this keyword rfl)
    · exact (locate_nests keyword).bind fun _ _ depth => .pure (.this keyword depth)
  | .assign name value _, _, proper =>
    (expression_nests place value _ proper.2.1).bind fun _ _ value =>
      (locate_nests name).bind fun _ _ depth => .pure (.assign name value depth)
  | .call callee paren arguments, _, proper =>
    (expression_nests place callee _ proper.1).bind fun _ _ callee =>
      (expressions_nests place arguments _ proper.2.2).bind fun _ _ arguments =>
        .pure (.call paren callee arguments)
  | .property object name, _, proper =>
    (expression_nests place object _ proper.1).bind fun _ _ object => .pure (.property name object)
  | .setProperty object name value, _, proper =>
    (expression_nests place value _ proper.2.2).bind fun _ _ value =>
      (expression_nests place object _ proper.1).bind fun _ _ object =>
        .pure (.setProperty name object value)
  | .lambda code, _, proper =>
    (function_nests ⟨.function, place.receiver⟩ code _ proper.2).bind fun _ _ code =>
      .pure (.lambda code)

theorem expressions_nests (place : Surroundings) : ∀ (es : List Expr) (here : List Nat),
    Expr.AllProper es → ∀ {marks : List Bool}, Nests (Pads marks) (Expr.AllNested marks)
      (expressions place es) (expressions place (Expr.wrapAll chosen here es))
  | [], _, _ => .pure .nil
  | e :: es, _, proper =>
    (expression_nests place e _ proper.1).bind fun _ _ first =>
      (expressions_nests place es _ proper.2).bind fun _ _ rest => .pure (.cons first rest)

/-- A statement. Only a declaration needs a scope that is not marked. -/
theorem statement_nests (place : Surroundings) : ∀ (s : Stmt) (here : List Nat), s.Proper →
    ∀ {marks : List Bool}, (s.isDeclaration = true → marks.headD false = false) →
      Nests (Paused marks) (Stmt.Nested marks) (statement place s)
        (statement place (s.wrap chosen here))
  | .expression value, _, proper, _, _ => enclose_nests _ fun _ =>
    Nests.paused ((expression_nests place value _ proper).bind fun _ _ value =>
      .pure (.expression value)) (statement_grows place (.expression value))
  | .print value, _, proper, _, _ => enclose_nests _ fun _ =>
    Nests.paused ((expression_nests place value _ proper).bind fun _ _ value =>
      .pure (.print value)) (statement_grows place (.print value))
  | .declare d, _, proper, _, unmarked =>
    Nests.paused ((declarator_nests place d _ proper (unmarked rfl)).bind fun _ _ d =>
      .pure (.declare (unmarked rfl) d)) (statement_grows place (.declare d))
  | .declareAll ds, _, proper, _, unmarked =>
    Nests.paused ((declarators_nests place ds _ proper.2 (unmarked rfl)).bind fun _ _ ds =>
      .pure (.declareAll (unmarked rfl) ds)) (statement_grows place (.declareAll ds))
  | .block body, _, proper, _, _ => enclose_nests _ fun _ r r' ⟨pads, settled⟩ => by
    have opened := Paused.openScope pads
    obtain ⟨body, after, _⟩ := statements_nests place body _ proper rfl _ _ opened
    exact ⟨.block body, after.closeScope, (statement_grows place (.block _) r).settled settled⟩
  | .conditional condition whenTrue none, _, proper, _, _ => enclose_nests _ fun _ =>
    (expression_nests place condition _ proper.1).condition.bind fun _ _ condition =>
      (statement_nests place whenTrue _ proper.2.2 (plain_stands proper.2.1)).bind fun _ _ whenTrue =>
        .pure (.onlyIf condition whenTrue)
  | .conditional condition whenTrue (some whenFalse), _, proper, _, _ => enclose_nests _ fun _ =>
    (expression_nests place condition _ proper.1).condition.bind fun _ _ condition =>
      (statement_nests place whenTrue _ proper.2.1.2 (plain_stands proper.2.1.1)).bind
        fun _ _ whenTrue =>
          (statement_nests place whenFalse _ proper.2.2.2 (plain_stands proper.2.2.1)).bind
            fun _ _ whenFalse => .pure (.orElse condition whenTrue whenFalse)
  | .loop condition body, _, proper, _, _ => enclose_nests _ fun _ =>
    (expression_nests place condition _ proper.1).condition.bind fun _ _ condition =>
      (statement_nests place body _ proper.2.2 (plain_stands proper.2.1)).bind fun _ _ body =>
        .pure (.loop condition body)
  | .declareFunction ⟨name, params, body⟩, _, proper, _, unmarked => fun r r' ⟨pads, settled⟩ => by
    have declared := (pads.declare (unmarked rfl) name false).define (unmarked rfl) name
    obtain ⟨code, after⟩ := function_nests ⟨.function, place.receiver⟩ ⟨name, params, body⟩ _
      proper.2 _ _ declared
    exact ⟨.declareFunction (unmarked rfl) code, after,
      (statement_grows place (.declareFunction _) r).settled settled⟩
  | .returns keyword none, _, _, _, _ => enclose_nests _ fun _ =>
    Nests.paused ((checkReturn_nests place.body keyword).bind fun _ _ _ => .pure (.returns keyword))
      (statement_grows place (.returns keyword none))
  | .returns keyword (some value), _, proper, _, _ => enclose_nests _ fun _ =>
    Nests.paused ((checkReturn_nests place.body keyword).bind fun _ _ _ =>
      (checkReturnValue_nests place.body keyword).bind fun _ _ _ =>
        (expression_nests place value _ proper).bind fun _ _ value =>
          .pure (.returnsValue keyword value))
      (statement_grows place (.returns keyword (some value)))
  | .declareClass name methods statics, _, proper, _, unmarked => fun r r' ⟨pads, settled⟩ => by
    have declared := (pads.declare (unmarked rfl) name false).define (unmarked rfl) name
    obtain ⟨methods, between⟩ := methods_nests methods _ proper.2.1 _ _
      (declared.openScope [⟨"this", name.line, true, false, false⟩])
    obtain ⟨statics, after⟩ := statics_nests statics _ proper.2.2 _ _ between
    exact ⟨.declareClass name (unmarked rfl) methods statics, after.closeScope,
      (statement_grows place (.declareClass name _ _) r).settled settled⟩

theorem statements_nests (place : Surroundings) : ∀ (ss : List Stmt) (here : List Nat),
    Stmt.AllProper ss → ∀ {marks : List Bool}, marks.headD false = false →
      Nests (Paused marks) (Stmt.AllNested marks) (statements place ss)
        (statements place (Stmt.wrapAll chosen here ss))
  | [], _, _, _, _ => .pure .nil
  | s :: ss, _, proper, _, unmarked =>
    (statement_nests place s _ proper.1 fun _ => unmarked).bind fun _ _ first =>
      (statements_nests place ss _ proper.2 unmarked).bind fun _ _ rest => .pure (.cons first rest)

theorem declarator_nests (place : Surroundings) : ∀ (d : Declarator) (here : List Nat), d.Proper →
    ∀ {marks : List Bool}, marks.headD false = false → Nests (Pads marks) (Declarator.Nested marks)
      (declarator place d) (declarator place (d.wrap chosen here))
  | ⟨name, none⟩, _, _, _, unmarked => fun _ _ pads =>
    ⟨.plain name, (pads.declare unmarked name true).define unmarked name⟩
  | ⟨name, some initial⟩, _, proper, _, unmarked => fun r r' pads => by
    have declared := pads.declare unmarked name true
    obtain ⟨initial, after⟩ := expression_nests place initial _ proper.2 _ _ declared
    exact ⟨.initialized name initial, after.define unmarked name⟩

theorem declarators_nests (place : Surroundings) : ∀ (ds : List Declarator) (here : List Nat),
    Declarator.AllProper ds → ∀ {marks : List Bool}, marks.headD false = false →
      Nests (Pads marks) (Declarator.AllNested marks) (declarators place ds)
        (declarators place (Declarator.wrapAll chosen here ds))
  | [], _, _, _, _ => .pure .nil
  | d :: ds, _, proper, _, unmarked =>
    (declarator_nests place d _ proper.1 unmarked).bind fun _ _ first =>
      (declarators_nests place ds _ proper.2 unmarked).bind fun _ _ rest =>
        .pure (.cons first rest)

/-- A function. Its parameters are complete before its body is looked at. -/
theorem function_nests (place : Surroundings) : ∀ (f : Function) (here : List Nat), f.Proper →
    ∀ {marks : List Bool}, Nests (Pads marks) (Function.Nested marks) (function place f)
      (function place (f.wrap chosen here))
  | ⟨name, params, body⟩, _, proper, marks => fun r r' pads => by
    have opened := Paused.openScope pads
    have declared := (declareParams_nests rfl params).paused
      (declareParams_grows params) _ _ opened
    obtain ⟨body, after, _⟩ := statements_nests place body _ proper.2 rfl _ _ declared.2
    exact ⟨.code name params body, after.closeScope⟩

theorem methods_nests : ∀ (fs : List Function) (here : List Nat), Function.AllProper fs →
    ∀ {marks : List Bool}, Nests (Pads marks) (Function.AllNested marks) (methods fs)
      (methods (Function.wrapAll chosen here fs))
  | [], _, _ => .pure .nil
  | ⟨name, params, body⟩ :: fs, _, proper =>
    (function_nests _ ⟨name, params, body⟩ _ proper.1.2).bind fun _ _ first =>
      (methods_nests fs _ proper.2).bind fun _ _ rest => .pure (.cons first rest)

theorem statics_nests : ∀ (fs : List Function) (here : List Nat), Function.AllProper fs →
    ∀ {marks : List Bool}, Nests (Pads marks) (Function.AllNested marks) (statics fs)
      (statics (Function.wrapAll chosen here fs))
  | [], _, _ => .pure .nil
  | f :: fs, _, proper =>
    (function_nests _ f _ proper.1.2).bind fun _ _ first =>
      (statics_nests fs _ proper.2).bind fun _ _ rest => .pure (.cons first rest)

end

/-- The walk over a program finds the same with the blocks and without them. -/
theorem ofProgram_nests {program : List Stmt} (chosen : List Nat → Bool)
    (proper : Stmt.AllProper program) :
    Stmt.AllNested [] (ofProgram program).1 (ofProgram (Stmt.wrapAll chosen [] program)).1 ∧
      (ofProgram (Stmt.wrapAll chosen [] program)).2.errors = (ofProgram program).2.errors ∧
        (ofProgram (Stmt.wrapAll chosen [] program)).2.warnings =
          (ofProgram program).2.warnings := by
  obtain ⟨nested, after, _⟩ := statements_nests ⟨.program, .none⟩ program []
    proper rfl _ _ Paused.empty
  exact ⟨nested, after.errors, after.warnings⟩

end LoxLang
