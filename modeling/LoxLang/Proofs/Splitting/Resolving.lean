import LoxLang.Proofs.Resolution.Site
import LoxLang.Proofs.Splitting.Relocation
/-!
The walk over the names of two programs one behind the other. The walk does not look at lines and not at
what it has found before, so on a program on other lines it goes the same way behind anything that was
found; and between the statements of a program no scope is open.

What is proved: what is found in two programs one behind the other is what is found in the first one and
then what is found in the second (`Resolution.ofProgram_append`).
-/
namespace LoxLang

variable {f : Nat → Nat}

def Local.relocate (f : Nat → Nat) (l : Local) : Local := { l with line := f l.line }

def Warning.relocate (f : Nat → Nat) (w : Warning) : Warning := { w with line := f w.line }

def ScopeError.relocate (f : Nat → Nat) (e : ScopeError) : ScopeError :=
  { e with token := e.token.relocate f }

/-- The names of a scope with their lines moved. -/
def Locals.relocate (f : Nat → Nat) (ls : Locals) : Locals := ls.map (·.relocate f)

/-- The same state of a walk on other lines and behind what was found before. -/
def Resolution.placed (f : Nat → Nat) (errors : List ScopeError) (warnings : List Warning)
    (r : Resolution) : Resolution where
  scopes := r.scopes.map (·.relocate f)
  errors := errors ++ r.errors.map (·.relocate f)
  warnings := warnings ++ r.warnings.map (·.relocate f)

/-! Scopes -/

namespace Locals

theorem binds_relocate (name : String) (ls : Locals) : (ls.relocate f).binds name = ls.binds name := by
  rw [binds, relocate, List.any_map]
  rfl

theorem update_relocate (change : Local → Local)
    (same : ∀ l : Local, change (l.relocate f) = (change l).relocate f) (name : String)
    (ls : Locals) : (ls.relocate f).update name change = (ls.update name change).relocate f := by
  simp only [update, relocate, List.map_map]
  apply List.map_congr_left
  intro l _
  simp only [Function.comp_apply]
  by_cases named : (l.name == name) = true
  · have named' : ((l.relocate f).name == name) = true := named
    rw [if_pos named, if_pos named', same]
  · have named' : ¬((l.relocate f).name == name) = true := named
    rw [if_neg named, if_neg named']

theorem unused_relocate (ls : Locals) :
    (ls.relocate f).unused = ls.unused.map (·.relocate f) := by
  simp only [unused, relocate, List.filter_map, List.map_map]
  rfl

end Locals

/-! Walks side by side -/

namespace Resolve

open Resolution

variable {α β α' β' : Type} {errors : List ScopeError} {warnings : List Warning}

/-- One walk goes the way of the other, on other lines and behind what was found before. -/
def Moves (f : Nat → Nat) (errors : List ScopeError) (warnings : List Warning) (move : α → α')
    (walk : Resolve α) (walk' : Resolve α') : Prop :=
  ∀ r, walk' (r.placed f errors warnings) = (move (walk r).1, (walk r).2.placed f errors warnings)

namespace Moves

theorem pure {move : α → α'} {a : α} {a' : α'} (same : move a = a') :
    Moves f errors warnings move (pure a) (pure a') := by
  intro r
  rw [← same]
  rfl

theorem bind {move : α → α'} {move' : β → β'} {walk : Resolve α} {walk' : Resolve α'}
    {next : α → Resolve β} {next' : α' → Resolve β'} (h : Moves f errors warnings move walk walk')
    (h' : ∀ a, Moves f errors warnings move' (next a) (next' (move a))) :
    Moves f errors warnings move' (walk >>= next) (walk' >>= next') := by
  intro r
  have first := h r
  have second := h' (walk r).1 (walk r).2
  show next' (walk' (r.placed f errors warnings)).1 (walk' (r.placed f errors warnings)).2 = _
  rw [first, second]
  rfl

end Moves

/-! Steps -/

/-- A change that is the same on other lines and behind what was found before. -/
theorem modify_moves {change change' : Resolution → Resolution}
    (h : ∀ r, change' (r.placed f errors warnings) = (change r).placed f errors warnings) :
    Moves f errors warnings id (modify change) (modify change') := by
  intro r
  show ((), change' (r.placed f errors warnings)) = ((), _)
  rw [h]
  rfl

theorem report_moves (fault : ScopeFault) (token : Token) :
    Moves f errors warnings id (report fault token) (report fault (token.relocate f)) := by
  refine modify_moves fun r => ?_
  simp only [placed, List.map_append, List.append_assoc]
  rfl

theorem openScope_moves (ls : Locals) :
    Moves f errors warnings id (openScope ls) (openScope (ls.relocate f)) :=
  modify_moves fun _ => rfl

theorem closeScope_moves : Moves f errors warnings id closeScope closeScope := by
  refine modify_moves fun r => ?_
  obtain ⟨scopes, found, noted⟩ := r
  cases scopes with
  | nil => rfl
  | cons s outer =>
    -- What is found unused is noted in the order of the names, which no map of lines changes.
    simp only [placed, List.map_cons, Locals.unused_relocate, List.map_append, List.append_assoc]

theorem declare_moves (name : Token) (tracked : Bool) :
    Moves f errors warnings id (declare name tracked) (declare (name.relocate f) tracked) := by
  refine modify_moves fun r => ?_
  obtain ⟨scopes, found, noted⟩ := r
  cases scopes with
  | nil => rfl
  | cons s outer =>
    simp only [placed, List.map_cons, Token.lexeme_relocate, Locals.binds_relocate]
    split
    · rw [Locals.update_relocate (fun l => { l with defined := false }) fun _ => rfl]
      simp only [List.map_append, List.append_assoc, List.map_cons]
      rfl
    · simp only [List.map_cons, Locals.relocate, List.map_append]
      rfl

theorem define_moves (name : Token) :
    Moves f errors warnings id (define name) (define (name.relocate f)) := by
  refine modify_moves fun r => ?_
  obtain ⟨scopes, found, noted⟩ := r
  cases scopes with
  | nil => rfl
  | cons s outer =>
    simp only [placed, List.map_cons, Token.lexeme_relocate]
    rw [Locals.update_relocate (fun l => { l with defined := true }) fun _ => rfl]

theorem top_placed (r : Resolution) : (r.placed f errors warnings).top = r.top := by
  obtain ⟨scopes, found, noted⟩ := r
  cases scopes with
  | nil => rfl
  | cons s outer =>
    show (s.relocate f).outline = s.outline
    rw [Locals.outline, Locals.relocate, List.map_map]
    rfl

theorem checkDefined_moves (name : Token) :
    Moves f errors warnings id (checkDefined name) (checkDefined (name.relocate f)) := by
  intro r
  rw [checkDefined_eq, checkDefined_eq, top_placed, Token.lexeme_relocate]
  split
  · exact report_moves .ownInitializer name r
  · rfl

theorem distance?_placed (name : String) (r : Resolution) :
    distance? name (r.placed f errors warnings).scopes = distance? name r.scopes := by
  rw [distance?, distance?, placed, List.findIdx?_map]
  congr 1
  funext ls
  exact Locals.binds_relocate name ls

theorem locate_moves (name : Token) :
    Moves f errors warnings id (locate name) (locate (name.relocate f)) := by
  intro r
  show (distance? name.lexeme (r.placed f errors warnings).scopes, _) =
    (distance? name.lexeme r.scopes, _)
  rw [distance?_placed]
  rfl

theorem locateRead_moves (name : Token) :
    Moves f errors warnings id (locateRead name) (locateRead (name.relocate f)) := by
  refine (locate_moves name).bind fun depth => ?_
  cases depth with
  | none => exact .pure rfl
  | some d =>
    refine Moves.bind (modify_moves fun r => ?_) fun _ => .pure rfl
    simp only [placed]
    congr 1
    refine List.ext_getElem? fun i => ?_
    simp only [List.getElem?_map, List.getElem?_modify]
    cases r.scopes[i]? with
    | none => rfl
    | some ls =>
      by_cases same : d = i
      · subst same
        have used := Locals.update_relocate (f := f) (fun l => { l with used := true })
          (fun _ => rfl) name.lexeme ls
        simp only [if_true]
        exact congrArg some used
      · simp [same]

theorem checkReturn_moves (body : Body) (keyword : Token) :
    Moves f errors warnings id (checkReturn body keyword) (checkReturn body (keyword.relocate f)) := by
  unfold checkReturn
  split
  · exact report_moves _ keyword
  · exact .pure rfl

theorem checkReturnValue_moves (body : Body) (keyword : Token) :
    Moves f errors warnings id (checkReturnValue body keyword)
      (checkReturnValue body (keyword.relocate f)) := by
  unfold checkReturnValue
  split
  · exact report_moves _ keyword
  · exact .pure rfl

theorem declareParams_moves : ∀ ps : List Token, Moves f errors warnings id (declareParams ps)
    (declareParams (ps.map (·.relocate f)))
  | [] => .pure rfl
  | p :: ps => by
    apply (declare_moves p false).bind
    intro _
    apply (define_moves p).bind
    intro _
    exact declareParams_moves ps

/-! Programs -/

mutual

theorem expression_moves (place : Surroundings) : ∀ e : Expr,
    Moves f errors warnings (Expr.relocate f) (expression place e) (expression place (e.relocate f))
  | .literal _ => .pure rfl
  | .group inner => by
    apply (expression_moves place inner).bind
    intro _
    exact .pure rfl
  | .unary _ right => by
    apply (expression_moves place right).bind
    intro _
    exact .pure rfl
  | .binary left _ right => by
    apply (expression_moves place left).bind
    intro _
    apply (expression_moves place right).bind
    intro _
    exact .pure rfl
  | .logical left _ right => by
    apply (expression_moves place left).bind
    intro _
    apply (expression_moves place right).bind
    intro _
    exact .pure rfl
  | .ternary condition whenTrue whenFalse => by
    apply (expression_moves place condition).bind
    intro _
    apply (expression_moves place whenTrue).bind
    intro _
    apply (expression_moves place whenFalse).bind
    intro _
    exact .pure rfl
  | .variable name _ => by
    apply (checkDefined_moves name).bind
    intro _
    apply (locateRead_moves name).bind
    intro _
    exact .pure rfl
  | .this keyword _ => match place with
    | ⟨_, .none⟩ => by
      apply (report_moves _ keyword).bind
      intro _
      exact .pure rfl
    | ⟨_, .static⟩ => by
      apply (report_moves _ keyword).bind
      intro _
      exact .pure rfl
    | ⟨_, .object⟩ => by
      apply (locate_moves keyword).bind
      intro _
      exact .pure rfl
  | .assign name value _ => by
    apply (expression_moves place value).bind
    intro _
    apply (locate_moves name).bind
    intro _
    exact .pure rfl
  | .call callee _ arguments => by
    apply (expression_moves place callee).bind
    intro _
    apply (expressions_moves place arguments).bind
    intro _
    exact .pure rfl
  | .property object _ => by
    apply (expression_moves place object).bind
    intro _
    exact .pure rfl
  -- The walk goes over the value before it goes over the object.
  | .setProperty object _ value => by
    apply (expression_moves place value).bind
    intro _
    apply (expression_moves place object).bind
    intro _
    exact .pure rfl
  | .lambda code => by
    apply (function_moves _ code).bind
    intro _
    exact .pure rfl

theorem expressions_moves (place : Surroundings) : ∀ es : List Expr,
    Moves f errors warnings (Expr.relocateAll f) (expressions place es)
      (expressions place (Expr.relocateAll f es))
  | [] => .pure rfl
  | e :: es => by
    apply (expression_moves place e).bind
    intro _
    apply (expressions_moves place es).bind
    intro _
    exact .pure rfl

theorem statement_moves (place : Surroundings) : ∀ s : Stmt,
    Moves f errors warnings (Stmt.relocate f) (statement place s) (statement place (s.relocate f))
  | .expression value => by
    apply (expression_moves place value).bind
    intro _
    exact .pure rfl
  | .print value => by
    apply (expression_moves place value).bind
    intro _
    exact .pure rfl
  | .declare d => by
    apply (declarator_moves place d).bind
    intro _
    exact .pure rfl
  | .declareAll ds => by
    apply (declarators_moves place ds).bind
    intro _
    exact .pure rfl
  | .block body => by
    apply (openScope_moves []).bind
    intro _
    apply (statements_moves place body).bind
    intro _
    apply closeScope_moves.bind
    intro _
    exact .pure rfl
  | .conditional condition whenTrue none => by
    apply (expression_moves place condition).bind
    intro _
    apply (statement_moves place whenTrue).bind
    intro _
    exact .pure rfl
  | .conditional condition whenTrue (some whenFalse) => by
    apply (expression_moves place condition).bind
    intro _
    apply (statement_moves place whenTrue).bind
    intro _
    apply (statement_moves place whenFalse).bind
    intro _
    exact .pure rfl
  | .loop condition body => by
    apply (expression_moves place condition).bind
    intro _
    apply (statement_moves place body).bind
    intro _
    exact .pure rfl
  | .declareFunction ⟨name, params, body⟩ => by
    apply (declare_moves name false).bind
    intro _
    apply (define_moves name).bind
    intro _
    apply (function_moves _ ⟨name, params, body⟩).bind
    intro _
    exact .pure rfl
  | .returns keyword none => by
    apply (checkReturn_moves _ keyword).bind
    intro _
    exact .pure rfl
  | .returns keyword (some value) => by
    apply (checkReturn_moves _ keyword).bind
    intro _
    apply (checkReturnValue_moves _ keyword).bind
    intro _
    apply (expression_moves place value).bind
    intro _
    exact .pure rfl
  | .declareClass name ms ss => by
    apply (declare_moves name false).bind
    intro _
    apply (define_moves name).bind
    intro _
    -- The scope around the methods has the line of the class, which is moved with its name.
    apply (openScope_moves [⟨"this", name.line, true, false, false⟩]).bind
    intro _
    apply (methods_moves ms).bind
    intro _
    apply (statics_moves ss).bind
    intro _
    apply closeScope_moves.bind
    intro _
    exact .pure rfl

theorem statements_moves (place : Surroundings) : ∀ ss : List Stmt,
    Moves f errors warnings (Stmt.relocateAll f) (statements place ss)
      (statements place (Stmt.relocateAll f ss))
  | [] => .pure rfl
  | s :: ss => by
    apply (statement_moves place s).bind
    intro _
    apply (statements_moves place ss).bind
    intro _
    exact .pure rfl

theorem declarator_moves (place : Surroundings) : ∀ d : Declarator,
    Moves f errors warnings (Declarator.relocate f) (declarator place d)
      (declarator place (d.relocate f))
  | ⟨name, none⟩ => by
    apply (declare_moves name true).bind
    intro _
    apply (define_moves name).bind
    intro _
    exact .pure rfl
  | ⟨name, some initial⟩ => by
    apply (declare_moves name true).bind
    intro _
    apply (expression_moves place initial).bind
    intro _
    apply (define_moves name).bind
    intro _
    exact .pure rfl

theorem declarators_moves (place : Surroundings) : ∀ ds : List Declarator,
    Moves f errors warnings (Declarator.relocateAll f) (declarators place ds)
      (declarators place (Declarator.relocateAll f ds))
  | [] => .pure rfl
  | d :: ds => by
    apply (declarator_moves place d).bind
    intro _
    apply (declarators_moves place ds).bind
    intro _
    exact .pure rfl

theorem function_moves (place : Surroundings) : ∀ code : Function,
    Moves f errors warnings (Function.relocate f) (function place code)
      (function place (code.relocate f))
  | ⟨_, params, body⟩ => by
    apply (openScope_moves []).bind
    intro _
    apply (declareParams_moves params).bind
    intro _
    apply (statements_moves place body).bind
    intro _
    apply closeScope_moves.bind
    intro _
    exact .pure rfl

theorem methods_moves : ∀ fs : List Function,
    Moves f errors warnings (Function.relocateAll f) (methods fs)
      (methods (Function.relocateAll f fs))
  | [] => .pure rfl
  | ⟨name, params, body⟩ :: fs => by
    apply (function_moves _ ⟨name, params, body⟩).bind
    intro _
    apply (methods_moves fs).bind
    intro _
    exact .pure rfl

theorem statics_moves : ∀ fs : List Function,
    Moves f errors warnings (Function.relocateAll f) (statics fs)
      (statics (Function.relocateAll f fs))
  | [] => .pure rfl
  | code :: fs => by
    apply (function_moves _ code).bind
    intro _
    apply (statics_moves fs).bind
    intro _
    exact .pure rfl

end

end Resolve

namespace Resolution

theorem scopes_ofProgram (program : List Stmt) : (ofProgram program).2.scopes = [] := by
  have grows := Resolve.statements_grows ⟨.program, .none⟩ program empty
  have length := grows.length
  rw [length_outline, length_outline] at length
  exact List.eq_nil_of_length_eq_zero length

/-- What is found in a program behind another one, and what it becomes, does not depend on that one. -/
theorem ofProgram_append (first second : List Stmt) :
    ofProgram (first ++ Stmt.relocateAll f second) =
      ((ofProgram first).1 ++ Stmt.relocateAll f (ofProgram second).1,
        (ofProgram second).2.placed f (ofProgram first).2.errors (ofProgram first).2.warnings) := by
  have between : (ofProgram first).2 =
      empty.placed f (ofProgram first).2.errors (ofProgram first).2.warnings := by
    have scopes := scopes_ofProgram first
    generalize (ofProgram first).2 = r at scopes ⊢
    obtain ⟨_, errors, warnings⟩ := r
    cases scopes
    simp [placed, empty]
  have moved : Resolve.statements ⟨.program, .none⟩ (Stmt.relocateAll f second)
      (ofProgram first).2 = (Stmt.relocateAll f (ofProgram second).1,
        (ofProgram second).2.placed f (ofProgram first).2.errors (ofProgram first).2.warnings) :=
    (congrArg (Resolve.statements _ _) between).trans (Resolve.statements_moves _ second empty)
  calc ofProgram (first ++ Stmt.relocateAll f second)
      = _ := Resolve.statements_append ⟨.program, .none⟩ _ first empty
    _ = ((ofProgram first).1 ++ (Resolve.statements ⟨.program, .none⟩ (Stmt.relocateAll f second)
          (ofProgram first).2).1, (Resolve.statements ⟨.program, .none⟩
            (Stmt.relocateAll f second) (ofProgram first).2).2) := rfl
    _ = _ := by rw [moved]

/-- A program on other lines: the case of nothing before it. -/
theorem ofProgram_relocate (f : Nat → Nat) (program : List Stmt) :
    ofProgram (Stmt.relocateAll f program) =
      (Stmt.relocateAll f (ofProgram program).1, (ofProgram program).2.placed f [] []) :=
  ofProgram_append [] program

end Resolution

end LoxLang
