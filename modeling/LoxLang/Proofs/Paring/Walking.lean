import LoxLang.Proofs.Paring.Slimming
/-!
The walk over a program from which a variable was taken that nothing reads or gives a value.

What is proved, by induction on the program: the walk goes through the same scopes as before, but for the
variable, finds the same faults and the same unused names, but for the variable, and makes the same of
the program, but for the variable (`statement_pares` and its siblings).
-/
namespace LoxLang

open Resolve Resolution

/-- What is to be declared in a scope. -/
def Phase.Expects (w : Warning) : Phase → List Declared → Prop
  | other, _ => True
  | ahead, ds => (ds.filter fun d => d.name == w.name) = [⟨w.name, w.line, true⟩]
  | behind, ds => (ds.filter fun d => d.name == w.name) = []

/-- A scope in which nothing is to be declared any more. -/
def Phase.done : Phase → Phase
  | ahead => behind
  | p => p

namespace Surplus

def warning (v : Surplus) (line : Nat) : Warning := ⟨v.name, line⟩

/-- How far the variable is when the scope of a part is opened. -/
def phase (v : Surplus) (here : List Nat) : Phase := if here = v.scope then .ahead else .other

/-- How often the scope of the variable is closed. -/
def closed (v : Surplus) (here : List Nat) (ways : List (List Nat)) : Nat :=
  ways.countP fun way => way ++ here == v.scope

/-- The variable is declared once in its scope, and no place reads it or gives it a value. -/
structure Given (v : Surplus) (program : List Stmt) (line : Nat) : Prop where
  proper : Stmt.AllProper program
  ne_this : v.name ≠ Keyword.this.word
  declared : ((partAt program v.scope).declared.filter fun d => d.name == v.name) =
    [⟨v.name, line, true⟩]
  unread : ∀ way ∈ Stmt.placesAll program, ∀ name depth,
    partAt program way = .expression (.variable name depth) → name.lexeme = v.name →
      resolvesTo program way v.name ≠ some v.scope
  unassigned : ∀ way ∈ Stmt.placesAll program, ∀ name value depth,
    partAt program way = .expression (.assign name value depth) → name.lexeme = v.name →
      resolvesTo program way v.name ≠ some v.scope

/-- The walk comes to a place in these scopes. -/
structure Visit (v : Surplus) (program : List Stmt) (ps : List Phase) (here : List Nat) (p : Site) :
    Prop where
  listed : here ∈ Stmt.placesAll program
  site : siteAt program here = p
  marks : (openersAt program here).map (· == v.scope) = ps.map Phase.mark

variable {v : Surplus} {program : List Stmt} {line : Nat} {ps : List Phase} {here : List Nat}
  {p : Site}

theorem mark_phase (v : Surplus) (here : List Nat) : (v.phase here).mark = (here == v.scope) := by
  unfold phase
  split
  · rename_i same
    exact (beq_iff_eq.mpr same).symm
  · rename_i other
    exact (beq_false_of_ne other).symm

theorem closed_append (v : Surplus) (here : List Nat) (ways ways' : List (List Nat)) :
    v.closed here (ways ++ ways') = v.closed here ways + v.closed here ways' := List.countP_append

theorem closed_under (v : Surplus) (here : List Nat) (i : Nat) (ways : List (List Nat)) :
    v.closed here (under i ways) = v.closed (i :: here) ways := by
  rw [closed, closed, under, List.countP_map]
  simp only [Function.comp_def, List.append_assoc, List.singleton_append]

theorem closed_self (v : Surplus) (here : List Nat) :
    v.closed here [[]] = if (v.phase here).done.mark then 1 else 0 := by
  rw [closed, List.countP_singleton, List.nil_append, ← mark_phase]
  cases v.phase here <;> rfl

namespace Visit

theorem part (h : v.Visit program ps here p) : partAt program here = p.part := by
  rw [partAt_eq, h.site]

theorem child (h : v.Visit program ps here p) (i : Nat) (mem : i ∈ p.part.order)
    (closed : p.part.opens? i = none := by rfl) : v.Visit program ps (i :: here) (p.child i) where
  listed := Part.places_closed h.listed (by rw [← h.part] at mem; exact mem)
  site := Site.at_child h.site i
  marks := by
    rw [← h.part] at closed
    rw [openersAt_same closed]
    exact h.marks

theorem enter (h : v.Visit program ps here p) (i : Nat) (mem : i ∈ p.part.order) {s : Scope}
    (opened : p.part.opens? i = some s) :
    v.Visit program (v.phase here :: ps) (i :: here) (p.child i) where
  listed := Part.places_closed h.listed (by rw [← h.part] at mem; exact mem)
  site := Site.at_child h.site i
  marks := by
    rw [← h.part] at opened
    rw [openersAt_opened opened, List.map_cons, List.map_cons, h.marks, mark_phase]

theorem further {d : Declarator} {ds : List Declarator} {place : Surroundings} {before : Resolution}
    {closing : List Locals}
    (h : v.Visit program ps here ⟨.declarators (d :: ds), place, before, closing⟩) :
    v.Visit program ps (1 :: here) ⟨.declarators ds, place, (declarator place d before).2, closing⟩ := by
  obtain ⟨name, initial⟩ := d
  cases initial with
  | none => exact h.child 1 (.head _)
  | some initial => exact h.child 1 (.tail _ (.head _))

/-- Whether the variable has been declared does not matter for the marks. -/
theorem later (h : v.Visit program (.ahead :: ps) here p) :
    v.Visit program (.behind :: ps) here p := ⟨h.listed, h.site, h.marks⟩

theorem proper (h : v.Visit program ps here p) (given : v.Given program line) : p.part.Proper := by
  have proper := proper_siteAt given.proper here
  rwa [h.site] at proper

/-- A name that belongs to a marked scope belongs to that of the variable. -/
theorem resolves (h : v.Visit program ps here p) (given : v.Given program line) {x : String} {d : Nat}
    (found : distance? x p.before.scopes = some d)
    (mark : (ps.map Phase.mark).getD d false = true) : resolvesTo program here x = some v.scope := by
  rw [← h.site, distance?_siteAt given.proper] at found
  rw [resolvesTo, found, Option.bind_some]
  rw [← h.marks, List.getD_eq_getElem?_getD, List.getElem?_map] at mark
  cases opener : (openersAt program here)[d]? with
  | none =>
    rw [opener] at mark
    cases mark
  | some o =>
    rw [opener] at mark
    exact congrArg some (eq_of_beq mark)

end Visit

end Surplus

/-! Ways to put walks together -/

section

variable {v : Surplus} {w : Warning} {ps ps₁ ps₂ : List Phase} {here : List Nat} {i : Nat}
  {cs ds : List (List Nat)} {α α' β β' : Type} {r : Resolution} {walk : Resolve α}
  {walk' : Resolve α'} {Q : α → α' → Prop} {Q' : β → β' → Prop}

theorem Resolve.Pares.part {next : α → Resolve β} {next' : α' → Resolve β'}
    (h : Pares w ps ps₁ (v.closed (i :: here) cs) Q walk walk' r)
    (h' : ∀ a a', Q a a' → Pares w ps₁ ps₂ (v.closed here ds) Q' (next a) (next' a') (walk r).2) :
    Pares w ps ps₂ (v.closed here (under i cs ++ ds)) Q' (walk >>= next) (walk' >>= next') r := by
  rw [v.closed_append, v.closed_under]
  exact h.bind h'

theorem Resolve.Pares.last {f : α → β} {f' : α' → β'}
    (h : Pares w ps ps₁ (v.closed (i :: here) cs) Q walk walk' r)
    (q : ∀ a a', Q a a' → Q' (f a) (f' a')) :
    Pares w ps ps₁ (v.closed here (under i cs)) Q' (walk >>= fun a => Pure.pure (f a))
      (walk' >>= fun a => Pure.pure (f' a)) r := by
  rw [v.closed_under]
  exact h.bind fun a a' made => .pure (q a a' made)

end

section

variable {v : Surplus} {program : List Stmt} {line : Nat}

namespace Surplus.Visit

variable {ps : List Phase} {here : List Nat}

theorem spare_read (given : v.Given program line) {name : Token} {depth : Option Nat}
    {place : Surroundings} {before : Resolution} {closing : List Locals}
    (visit : v.Visit program ps here ⟨.expression (.variable name depth), place, before, closing⟩) :
    Phase.Spare ps v.name before.scopes name.lexeme := by
  intro d found mark same
  have belongs := visit.resolves given found mark
  rw [same] at belongs
  exact given.unread here visit.listed name depth visit.part same belongs

/-- A name that is given a value is none of the variable. -/
theorem spare_assigned (given : v.Given program line) {name : Token} {value : Expr}
    {depth : Option Nat} {place : Surroundings} {before : Resolution} {closing : List Locals}
    (visit : v.Visit program ps here
      ⟨.expression (.assign name value depth), place, before, closing⟩) :
    Phase.Spare ps v.name (expression place value before).2.scopes name.lexeme := by
  intro d found mark same
  rw [Site.distance?_behind] at found
  have belongs := visit.resolves given found mark
  rw [same] at belongs
  exact given.unassigned here visit.listed name value depth visit.part same belongs

end Surplus.Visit

theorem Phase.Spare.spares {ps : List Phase} {x : String} {scopes : List Locals} {name : Token}
    (h : Phase.Spare ps x scopes name.lexeme) :
    name.Spares x (Exchange.mark (ps.map Phase.mark) (distance? name.lexeme scopes)) := by
  intro mark
  cases found : distance? name.lexeme scopes with
  | none =>
    rw [found] at mark
    cases mark
  | some d =>
    rw [found] at mark
    exact h d found mark

theorem variable_pares (given : v.Given program line) {ps : List Phase} {here : List Nat}
    {name : Token} {depth : Option Nat} {place : Surroundings} {before : Resolution}
    {closing : List Locals}
    (visit : v.Visit program ps here ⟨.expression (.variable name depth), place, before, closing⟩) :
    Pares (v.warning line) ps ps 0 (Expr.Pared v.name (ps.map Phase.mark))
      (expression place (.variable name depth)) (expression place (.variable name depth)) before := by
  have spare := visit.spare_read given
  obtain ⟨scopes, _⟩ := checkDefined_still name before
  intro k r' lacks
  have same := lacks.scopes.distance? spare
  refine ⟨(lacks.checkDefined spare).locateRead (scopes ▸ spare), ?_⟩
  rw [Site.resolved_variable, Site.resolved_variable, same]
  exact .variable name spare.spares

theorem Resolve.statements_append_bind (place : Surroundings) (ss more : List Stmt) :
    statements place (ss ++ more) = (statements place ss >>= fun a =>
      statements place more >>= fun b => pure (a ++ b)) :=
  funext fun r => statements_append place more ss r

theorem Resolve.checkReturn_lacks {w : Warning} {ps : List Phase} {n : Nat} {r r' : Resolution}
    (h : Lacks w ps n r r') (body : Body) (keyword : Token) :
    Lacks w ps n (checkReturn body keyword r).2 (checkReturn body keyword r').2 := by
  unfold checkReturn
  split
  · exact h.report _ _
  · exact h

theorem Resolve.checkReturnValue_lacks {w : Warning} {ps : List Phase} {n : Nat}
    {r r' : Resolution} (h : Lacks w ps n r r') (body : Body) (keyword : Token) :
    Lacks w ps n (checkReturnValue body keyword r).2 (checkReturnValue body keyword r').2 := by
  unfold checkReturnValue
  split
  · exact h.report _ _
  · exact h

theorem Resolve.declareParams_lacks {w : Warning} {ps : List Phase} {n : Nat} :
    ∀ (params : List Token) {r r' : Resolution}, Lacks w ps n r r' →
      (∀ t ∈ params, t.Spares w.name ((ps.map Phase.mark).headD false)) →
        Lacks w ps n (declareParams params r).2 (declareParams params r').2
  | [], _, _, h, _ => h
  | t :: ts, _, _, h, apart =>
    declareParams_lacks ts ((h.declare false (apart t List.mem_cons_self)).define
      (apart t List.mem_cons_self)) fun u mem => apart u (List.mem_cons_of_mem t mem)

/-! What is declared -/

theorem Declarator.name_pare (v : Surplus) (here : List Nat) (d : Declarator) :
    (d.pare v here).name = d.name := by
  obtain ⟨name, initial⟩ := d
  cases initial <;> rfl

theorem Declarator.any_pareAll (v : Surplus) (x : String) : ∀ (here : List Nat)
    (ds : List Declarator), (Declarator.pareAll v here ds).any (fun d => d.name.lexeme == x) =
      ds.any fun d => d.name.lexeme == x
  | _, [] => rfl
  | here, d :: ds => by
    rw [Declarator.pareAll, List.any_cons, List.any_cons, Declarator.name_pare,
      Declarator.any_pareAll v x (1 :: here) ds]

theorem Declarator.without_of_apart {x : String} {d : Declarator} (apart : d.name.lexeme ≠ x) :
    d.without x = [.declare d] := if_neg apart

/-- A statement that does not declare the variable is left as it is. -/
theorem Stmt.without_of_apart {x : String} {s : Stmt} (v : Surplus) (here : List Nat)
    (apart : ∀ d ∈ s.declared, d.name ≠ x) : (s.pare v here).without x = [s.pare v here] := by
  cases s with
  | declare d =>
    refine Declarator.without_of_apart ?_
    rw [Declarator.name_pare]
    exact apart _ List.mem_cons_self
  | declareAll ds =>
    have none : (Declarator.pareAll v (0 :: here) ds).any (fun d => d.name.lexeme == x) = false := by
      rw [Declarator.any_pareAll, List.any_eq_false]
      exact fun d mem same => apart _ (List.mem_map_of_mem mem) (eq_of_beq same)
    exact if_neg (by rw [none]; decide)
  | conditional _ _ whenFalse => cases whenFalse <;> rfl
  | returns _ value => cases value <;> rfl
  | _ => rfl

/-- Either the variable is not declared by what comes first, or it is declared there only. -/
theorem Phase.Expects.cases {w : Warning} {p : Phase} {a b : List Declared}
    (h : p.Expects w (a ++ b)) :
    (p.Expects w b ∧ ∀ d ∈ a, p.mark = true → d.name ≠ w.name) ∨
      (p = .ahead ∧ Phase.Expects w .ahead a ∧ Phase.Expects w .behind b) := by
  have apart (none : (a.filter fun d => d.name == w.name) = []) : ∀ d ∈ a, d.name ≠ w.name :=
    fun d mem same => List.filter_eq_nil_iff.mp none d mem (beq_iff_eq.mpr same)
  cases p with
  | other => exact .inl ⟨trivial, fun _ _ mark => nomatch mark⟩
  | behind =>
    rw [Expects, List.filter_append, List.append_eq_nil_iff] at h
    exact .inl ⟨h.2, fun d mem _ => apart h.1 d mem⟩
  | ahead =>
    rw [Expects, List.filter_append, List.append_eq_singleton_iff] at h
    rcases h with ⟨none, later⟩ | ⟨here, none⟩
    · exact .inl ⟨later, fun d mem _ => apart none d mem⟩
    · exact .inr ⟨rfl, here, none⟩

theorem Phase.Expects.single {w : Warning} {d : Declared} (h : Phase.Expects w .ahead [d]) :
    d = ⟨w.name, w.line, true⟩ := by
  rw [Expects, List.filter_singleton] at h
  cases same : d.name == w.name with
  | true =>
    rw [same] at h
    exact List.singleton_inj.mp h
  | false =>
    rw [same] at h
    cases h

/-- The declarator of the variable is among those that are to declare it. -/
theorem Phase.Expects.any {w : Warning} {ds : List Declarator}
    (h : Phase.Expects w .ahead (ds.map Declarator.declared)) :
    ds.any (fun d => d.name.lexeme == w.name) = true := by
  have mem : Declared.mk w.name w.line true ∈ (ds.map Declarator.declared).filter
      fun d => d.name == w.name := by
    rw [h]
    exact List.mem_singleton_self _
  obtain ⟨d, mem, same⟩ := List.mem_map.mp (List.mem_filter.mp mem).1
  exact List.any_eq_true.mpr ⟨d, mem, beq_iff_eq.mpr (congrArg Declared.name same)⟩

theorem Declarator.without_self {x : String} {d : Declarator} (same : d.name.lexeme = x) :
    d.without x = d.initial.toList.map Stmt.expression := if_pos same

theorem Surplus.Visit.other_of_class (given : v.Given program line) {ps : List Phase}
    {here : List Nat} {name : Token} {ms ss : List Function} {place : Surroundings}
    {before : Resolution} {closing : List Locals}
    (visit : v.Visit program ps here
      ⟨.statement (.declareClass name ms ss), place, before, closing⟩) : v.phase here = .other := by
  refine if_neg ?_
  rintro rfl
  have declared := given.declared
  rw [visit.part] at declared
  have same : Declared.mk Keyword.this.word name.line false = ⟨v.name, line, true⟩ :=
    Phase.Expects.single (w := v.warning line) declared
  exact absurd (congrArg Declared.tracked same) Bool.false_ne_true

/-- What is to be declared in a scope when it is opened. -/
theorem Surplus.Visit.expects (given : v.Given program line) {ps : List Phase} {here : List Nat}
    {p : Site} (visit : v.Visit program ps here p) :
    (v.phase here).Expects (v.warning line) p.part.declared := by
  unfold Surplus.phase
  split
  · rename_i same
    rw [← visit.part, same]
    exact given.declared
  · trivial

/-- Parameters are no variables. -/
theorem Phase.Expects.params {w : Warning} {p : Phase} {params : List Token} {ds : List Declared}
    (h : p.Expects w (Token.declaredParams params ++ ds)) :
    p.Expects w ds ∧ ∀ t ∈ params, p.mark = true → t.lexeme ≠ w.name := by
  rcases h.cases with ⟨rest, apart⟩ | ⟨_, first, _⟩
  · exact ⟨rest, fun t mem => apart _ (List.mem_map_of_mem mem)⟩
  · have mem : Declared.mk w.name w.line true ∈ Token.declaredParams params := by
      refine List.mem_of_mem_filter (p := fun d => d.name == w.name) ?_
      rw [first]
      exact List.mem_singleton_self _
    obtain ⟨t, _, same⟩ := List.mem_map.mp mem
    exact absurd (congrArg Declared.tracked same) Bool.false_ne_true

theorem Phase.done_ne_ahead (p : Phase) : p.done ≠ .ahead := by
  cases p <;> decide

theorem Locals.Lacks.empty (w : Warning) (v : Surplus) (here : List Nat) :
    Locals.Lacks w (v.phase here) [] [] := by
  unfold Surplus.phase
  split
  · exact .ahead rfl
  · exact .other []

mutual

theorem expression_pares (given : v.Given program line) : ∀ (e : Expr) {ps : List Phase}
    {here : List Nat} {place : Surroundings} {before : Resolution} {closing : List Locals},
    v.Visit program ps here ⟨.expression e, place, before, closing⟩ →
      Pares (v.warning line) ps ps (v.closed here e.closings) (Expr.Pared v.name (ps.map Phase.mark))
        (expression place e) (expression place (e.pare v here)) before
  | .literal value, _, _, _, _, _, _ => .pure (.literal value)
  | .group inner, _, _, _, _, _, visit =>
    .last (expression_pares given inner (visit.child 0 (.head _))) fun _ _ inner => .group inner
  | .unary op right, _, _, _, _, _, visit =>
    .last (expression_pares given right (visit.child 0 (.head _))) fun _ _ right => .unary op right
  | .binary left op right, _, _, _, _, _, visit =>
    .part (expression_pares given left (visit.child 0 (.head _))) fun _ _ left =>
      .last (expression_pares given right (visit.child 1 (.tail _ (.head _)))) fun _ _ right =>
        .binary op left right
  | .logical left op right, _, _, _, _, _, visit =>
    .part (expression_pares given left (visit.child 0 (.head _))) fun _ _ left =>
      .last (expression_pares given right (visit.child 1 (.tail _ (.head _)))) fun _ _ right =>
        .logical op left right
  | .ternary condition whenTrue whenFalse, _, _, _, _, _, visit =>
    .part (expression_pares given condition (visit.child 0 (.head _))) fun _ _ condition =>
      .part (expression_pares given whenTrue (visit.child 1 (.tail _ (.head _)))) fun _ _ whenTrue =>
        .last (expression_pares given whenFalse (visit.child 2 (.tail _ (.tail _ (.head _)))))
          fun _ _ whenFalse => .ternary condition whenTrue whenFalse
  | .variable _ _, _, _, _, _, _, visit => variable_pares given visit
  | .this keyword depth, _, _, place, _, _, visit => by
    obtain ⟨⟨_, lexeme⟩, rfl⟩ := visit.proper given
    -- The variable that is left out has another name than `this`.
    have apart (mark : Bool) : keyword.Spares v.name mark :=
      fun _ same => given.ne_this (same.symm.trans lexeme)
    obtain ⟨body, receiver⟩ := place
    cases receiver with
    | none => exact .after (fun _ _ lacks => lacks.report _ _) fun _ _ => .pure (.this keyword (apart _))
    | static => exact .after (fun _ _ lacks => lacks.report _ _) fun _ _ => .pure (.this keyword (apart _))
    | object =>
      intro k r' lacks
      have same := lacks.scopes.distance? fun _ _ _ => apart true rfl
      refine ⟨lacks, ?_⟩
      show Expr.Pared v.name _ (.this keyword (distance? keyword.lexeme _))
        (.this keyword (distance? keyword.lexeme r'.scopes))
      rw [same]
      exact .this keyword (apart _)
  | .assign name value depth, ps, here, place, before, _, visit => by
    -- The variable that is left out is given no value anywhere, so the name is another one.
    have spare := visit.spare_assigned given
    rw [Expr.closings, v.closed_under]
    intro k r' lacks
    obtain ⟨valued, made⟩ := expression_pares given value (visit.child 0 (.head _)) k r' lacks
    have same := valued.scopes.distance? spare
    refine ⟨valued, ?_⟩
    show Expr.Pared v.name _ (.assign name _ (distance? name.lexeme _))
      (.assign name _ (distance? name.lexeme _))
    rw [same]
    exact .assign name made (Phase.Spare.spares spare)
  | .call callee paren arguments, _, _, _, _, _, visit =>
    .part (expression_pares given callee (visit.child 0 (.head _))) fun _ _ callee =>
      .last (expressions_pares given arguments (visit.child 1 (.tail _ (.head _)))) fun _ _ arguments =>
        .call paren callee arguments
  | .property object name, _, _, _, _, _, visit =>
    .last (expression_pares given object (visit.child 0 (.head _))) fun _ _ object =>
      .property name object
  | .setProperty object name value, _, _, _, _, _, visit =>
    .part (expression_pares given value (visit.child 1 (.head _))) fun _ _ value =>
      .last (expression_pares given object (visit.child 0 (.tail _ (.head _)))) fun _ _ object =>
        .setProperty name object value
  | .lambda code, _, _, _, _, _, visit =>
    .last (function_pares given code (visit.child 0 (.head _))) fun _ _ code => .lambda code

theorem expressions_pares (given : v.Given program line) : ∀ (es : List Expr) {ps : List Phase}
    {here : List Nat} {place : Surroundings} {before : Resolution} {closing : List Locals},
    v.Visit program ps here ⟨.expressions es, place, before, closing⟩ →
      Pares (v.warning line) ps ps (v.closed here (Expr.closingsAll es))
        (Expr.AllPared v.name (ps.map Phase.mark)) (expressions place es)
        (expressions place (Expr.pareAll v here es)) before
  | [], _, _, _, _, _, _ => .pure .nil
  | e :: es, _, _, _, _, _, visit =>
    .part (expression_pares given e (visit.child 0 (.head _))) fun _ _ first =>
      .last (expressions_pares given es (visit.child 1 (.tail _ (.head _)))) fun _ _ rest =>
        .cons first rest

theorem statement_pares (given : v.Given program line) : ∀ (s : Stmt) {ps : List Phase}
    {here : List Nat} {place : Surroundings} {before : Resolution} {closing : List Locals},
    v.Visit program ps here ⟨.statement s, place, before, closing⟩ →
      (∀ d ∈ s.declared, (ps.map Phase.mark).headD false = true → d.name ≠ v.name) →
        Pares (v.warning line) ps ps (v.closed here s.closings)
          (Stmt.Pared v.name (ps.map Phase.mark)) (statement place s)
          (statement place (s.pare v here)) before
  | .expression value, _, _, _, _, _, visit, _ =>
    .last (expression_pares given value (visit.child 0 (.head _))) fun _ _ value => .expression value
  | .print value, _, _, _, _, _, visit, _ =>
    .last (expression_pares given value (visit.child 0 (.head _))) fun _ _ value => .print value
  | .declare d, _, _, _, _, _, visit, apart =>
    .last (declarator_pares given d (visit.child 0 (.head _)) (apart _ (.head _))) fun _ _ d =>
      .declare d
  | .declareAll ds, _, _, _, _, _, visit, apart =>
    .last (declarators_pares given ds (visit.child 0 (.head _))
      fun d mem => apart _ (List.mem_map_of_mem mem)) fun _ _ ds => .declareAll ds
  | .block body, _, here, _, _, _, visit, _ => by
    rw [Stmt.closings, v.closed_append, v.closed_under, v.closed_self]
    have inside := visit.enter 0 (.head _) rfl
    have walked := statements_pares given body inside (visit.expects given) fun _ => rfl
    rw [v.mark_phase] at walked
    exact .enclosed walked (.empty _ v here) (Phase.done_ne_ahead _) fun _ _ body => .block _ body
  | .conditional condition whenTrue none, _, _, _, _, _, visit, _ =>
    -- A branch declares nothing.
    have plain := (visit.proper given).2.1
    .part (expression_pares given condition (visit.child 0 (.head _))) fun _ _ condition =>
      .last (statement_pares given whenTrue (visit.child 1 (.tail _ (.head _)))
        (Stmt.declared_eq_nil plain ▸ nofun)) fun _ _ whenTrue => .onlyIf condition whenTrue
  | .conditional condition whenTrue (some whenFalse), _, _, _, _, _, visit, _ =>
    have plain := (visit.proper given).2.1.1
    have plain' := (visit.proper given).2.2.1
    .part (expression_pares given condition (visit.child 0 (.head _))) fun _ _ condition =>
      .part (statement_pares given whenTrue (visit.child 1 (.tail _ (.head _)))
        (Stmt.declared_eq_nil plain ▸ nofun)) fun _ _ whenTrue =>
          .last (statement_pares given whenFalse (visit.child 2 (.tail _ (.tail _ (.head _))))
            (Stmt.declared_eq_nil plain' ▸ nofun)) fun _ _ whenFalse =>
              .orElse condition whenTrue whenFalse
  | .loop condition body, _, _, _, _, _, visit, _ =>
    have plain := (visit.proper given).2.1
    .part (expression_pares given condition (visit.child 0 (.head _))) fun _ _ condition =>
      .last (statement_pares given body (visit.child 1 (.tail _ (.head _)))
        (Stmt.declared_eq_nil plain ▸ nofun)) fun _ _ body => .loop condition body
  | .declareFunction ⟨name, params, body⟩, ps, _, _, _, _, visit, apart => by
    have apart : name.Spares v.name ((ps.map Phase.mark).headD false) := apart _ (.head _)
    rw [Stmt.closings, v.closed_under]
    intro k r' lacks
    have declared := (lacks.declare false apart).define apart
    obtain ⟨walked, code⟩ := function_pares given ⟨name, params, body⟩ (visit.child 0 (.head _))
      _ _ declared
    exact ⟨walked, .declareFunction code⟩
  | .returns keyword none, _, _, place, _, _, _, _ =>
    .after (fun _ _ lacks => checkReturn_lacks lacks place.body keyword) fun _ _ =>
      .pure (.returns keyword)
  | .returns keyword (some value), _, _, place, _, _, visit, _ =>
    .after (fun _ _ lacks => checkReturn_lacks lacks place.body keyword) fun _ _ =>
      .after (fun _ _ lacks => checkReturnValue_lacks lacks place.body keyword) fun _ _ =>
        .last (expression_pares given value (visit.child 0 (.head _))) fun _ _ value =>
          .returnsValue keyword value
  | .declareClass name ms ss, ps, here, _, _, _, visit, apart => by
    have apart : name.Spares v.name ((ps.map Phase.mark).headD false) := apart _ (.head _)
    -- The scope of a class has `this` only, so the variable is not of that scope.
    have other := visit.other_of_class given
    have first := visit.enter 0 (.head _) rfl
    have second := visit.enter 1 (.tail _ (.head _)) rfl
    rw [other] at first second
    rw [Stmt.closings, v.closed_append, v.closed_append, v.closed_under, v.closed_under,
      v.closed_self, other]
    intro k r' lacks
    have opened := ((lacks.declare false apart).define apart).openScope
      (.other [⟨"this", name.line, true, false, false⟩])
    obtain ⟨between, methods⟩ := methods_pares given ms first _ _ opened
    obtain ⟨inside, statics⟩ := statics_pares given ss second _ _ between
    have closed := inside.closeScope nofun
    rw [Nat.add_assoc k] at closed
    exact ⟨closed, .declareClass name methods statics⟩

/-- The statements of a scope, one of which may declare the variable. -/
theorem statements_pares (given : v.Given program line) : ∀ (ss : List Stmt) {p : Phase}
    {ps : List Phase} {here : List Nat} {place : Surroundings} {before : Resolution}
    {closing : List Locals} {may : Bool},
    v.Visit program (p :: ps) here ⟨.statements ss, place, before, closing⟩ →
      p.Expects (v.warning line) (ss.flatMap Stmt.declared) → (p = .ahead → may = true) →
        Pares (v.warning line) (p :: ps) (p.done :: ps) (v.closed here (Stmt.closingsAll ss))
          (Stmt.AllPared v.name (p.mark :: ps.map Phase.mark) may) (statements place ss)
          (statements place (Stmt.pareAll v p.mark here ss)) before
  | [], p, _, _, _, _, _, may, _, expects, _ => by
    cases p with
    | ahead => cases expects
    | _ => exact .pure (.nil may)
  | s :: ss, p, ps, here, place, before, _, may, visit, expects, open_ => by
    rw [Stmt.pareAll]
    rcases expects.cases with ⟨others, apart⟩ | ⟨rfl, here_, later⟩
    · have left : (if p.mark then (s.pare v (0 :: here)).without v.name
          else [s.pare v (0 :: here)]) = [s.pare v (0 :: here)] := by
        split
        · rename_i mark
          exact Stmt.without_of_apart v _ fun d mem => apart d mem mark
        · rfl
      rw [left, List.singleton_append]
      exact .part (statement_pares given s (visit.child 0 (.head _)) apart) fun _ _ first =>
        .last (statements_pares given ss (visit.child 1 (.tail _ (.head _))) others open_)
          fun _ _ rest => .cons first rest
    · obtain rfl := open_ rfl
      rw [if_pos (show Phase.ahead.mark = true from rfl), statements_append_bind]
      exact (statement_left given s (visit.child 0 (.head _)) here_).part fun _ _ left =>
        .last (statements_pares given ss (visit.child 1 (.tail _ (.head _))).later later nofun)
          fun _ _ rest => .dropped rfl left rest

/-- The statement that declares the variable: only one with declarators can do so. -/
theorem statement_left (given : v.Given program line) : ∀ (s : Stmt) {ps : List Phase}
    {here : List Nat} {place : Surroundings} {before : Resolution} {closing : List Locals},
    v.Visit program (.ahead :: ps) here ⟨.statement s, place, before, closing⟩ →
      Phase.Expects (v.warning line) .ahead s.declared →
        Pares (v.warning line) (.ahead :: ps) (.behind :: ps) (v.closed here s.closings)
          (Stmt.Left v.name (true :: ps.map Phase.mark)) (statement place s)
          (statements place ((s.pare v here).without v.name)) before
  | .declare d, _, _, _, _, _, visit, expects => by
    rw [Stmt.closings, v.closed_under]
    intro k r' lacks
    obtain ⟨walked, left⟩ := declarator_left given d (visit.child 0 (.head _)) expects k r' lacks
    exact ⟨walked, .declare left⟩
  | .declareAll ds, _, here, _, _, _, visit, expects => by
    have divides : (Declarator.pareAll v (0 :: here) ds).any
        (fun d => d.name.lexeme == v.name) = true := by
      rw [Declarator.any_pareAll]
      exact expects.any
    have divided : (Stmt.pare v here (.declareAll ds)).without v.name =
        (Declarator.pareAll v (0 :: here) ds).flatMap (Declarator.without v.name) := if_pos divides
    rw [Stmt.closings, v.closed_under, divided]
    intro k r' lacks
    obtain ⟨walked, left⟩ := declarators_divided given ds (visit.child 0 (.head _)) rfl expects
      (fun _ => rfl) k r' lacks
    exact ⟨walked, .declareAll left⟩
  | .declareFunction _, _, _, _, _, _, _, expects =>
    absurd (congrArg Declared.tracked expects.single) Bool.false_ne_true
  | .declareClass _ _ _, _, _, _, _, _, _, expects =>
    absurd (congrArg Declared.tracked expects.single) Bool.false_ne_true
  | .expression _, _, _, _, _, _, _, expects | .print _, _, _, _, _, _, _, expects
  | .block _, _, _, _, _, _, _, expects | .conditional _ _ _, _, _, _, _, _, _, expects
  | .loop _ _, _, _, _, _, _, _, expects | .returns _ _, _, _, _, _, _, _, expects => nomatch expects

theorem declarator_left (given : v.Given program line) : ∀ (d : Declarator) {ds : List Declarator}
    {ps : List Phase} {here : List Nat} {place : Surroundings} {before : Resolution}
    {closing : List Locals},
    v.Visit program (.ahead :: ps) here ⟨.declarators (d :: ds), place, before, closing⟩ →
      Phase.Expects (v.warning line) .ahead [d.declared] →
        Pares (v.warning line) (.ahead :: ps) (.behind :: ps) (v.closed here d.closings)
          (Declarator.Left v.name (true :: ps.map Phase.mark)) (declarator place d)
          (statements place ((d.pare v (0 :: here)).without v.name)) before
  | ⟨name, none⟩, _, _, _, _, _, _, _, expects => by
    have same : name.lexeme = v.name := congrArg Declared.name expects.single
    have line_ : name.line = line := congrArg Declared.line expects.single
    rw [Declarator.without_self (by exact same)]
    exact fun k r' lacks => ⟨(lacks.declareLeft same line_).defineLeft same, .nothing same⟩
  | ⟨name, some initial⟩, _, _, here, _, _, _, visit, expects => by
    have same : name.lexeme = v.name := congrArg Declared.name expects.single
    have line_ : name.line = line := congrArg Declared.line expects.single
    rw [Declarator.without_self (by exact same), Declarator.closings, v.closed_under]
    intro k r' lacks
    obtain ⟨valued, made⟩ := expression_pares given initial (visit.later.child 0 (.head _)) k r'
      (lacks.declareLeft same line_)
    exact ⟨valued.defineLeft same, .value same made⟩

/-- Declarators of a statement that is split. -/
theorem declarators_divided (given : v.Given program line) : ∀ (ds : List Declarator) {p : Phase}
    {ps : List Phase} {here : List Nat} {place : Surroundings} {before : Resolution}
    {closing : List Locals} {may : Bool},
    v.Visit program (p :: ps) here ⟨.declarators ds, place, before, closing⟩ → p.mark = true →
      p.Expects (v.warning line) (ds.map Declarator.declared) → (p = .ahead → may = true) →
        Pares (v.warning line) (p :: ps) (p.done :: ps) (v.closed here (Declarator.closingsAll ds))
          (Declarator.Divided v.name (true :: ps.map Phase.mark) may) (declarators place ds)
          (statements place ((Declarator.pareAll v here ds).flatMap (Declarator.without v.name)))
          before
  | [], p, _, _, _, _, _, may, _, _, expects, _ => by
    cases p with
    | ahead => cases expects
    | _ => exact .pure (.nil may)
  | d :: ds, p, ps, here, place, before, _, may, visit, marked, expects, open_ => by
    rw [Declarator.pareAll, List.flatMap_cons, Declarator.closingsAll, v.closed_append]
    have expects : p.Expects (v.warning line) ([d.declared] ++ ds.map Declarator.declared) := expects
    rcases expects.cases with ⟨others, apart⟩ | ⟨rfl, here_, later⟩
    · have apart : d.name.lexeme ≠ v.name := apart _ (.head _) marked
      rw [Declarator.without_of_apart (by rwa [Declarator.name_pare]), List.singleton_append]
      have first := declarator_pares given d visit fun _ => apart
      rw [List.map_cons, marked] at first
      have kept : Pares (v.warning line) (p :: ps) (p :: ps) (v.closed here d.closings)
          (fun d s => ∃ d', s = .declare d' ∧
            Declarator.Pared v.name (true :: ps.map Phase.mark) d d') (declarator place d)
          (statement place (.declare (d.pare v (0 :: here)))) before := fun k r' lacks =>
        (first k r' lacks).imp id fun made => ⟨_, rfl, made⟩
      refine kept.bind ?_
      rintro d₁ _ ⟨d', rfl, first⟩
      exact .last (declarators_divided given ds visit.further marked others open_)
        fun _ _ rest => .kept first rest
    · obtain rfl := open_ rfl
      rw [statements_append_bind]
      exact (declarator_left given d visit here_).bind fun _ _ left =>
        .last (declarators_divided given ds visit.further.later rfl later nofun)
          fun _ _ rest => .dropped left rest

theorem declarator_pares (given : v.Given program line) : ∀ (d : Declarator)
    {ds : List Declarator} {ps : List Phase} {here : List Nat} {place : Surroundings}
    {before : Resolution} {closing : List Locals},
    v.Visit program ps here ⟨.declarators (d :: ds), place, before, closing⟩ →
      d.name.Spares v.name ((ps.map Phase.mark).headD false) →
        Pares (v.warning line) ps ps (v.closed here d.closings)
          (Declarator.Pared v.name (ps.map Phase.mark)) (declarator place d)
          (declarator place (d.pare v (0 :: here))) before
  | ⟨name, none⟩, _, _, _, _, _, _, _, apart =>
    .after (fun _ _ lacks => lacks.declare true apart) fun _ _ =>
      .after (fun _ _ lacks => lacks.define apart) fun _ _ => .pure (.plain name)
  | ⟨name, some initial⟩, _, _, _, _, _, _, visit, apart => by
    rw [Declarator.closings, v.closed_under]
    exact .after (fun _ _ lacks => lacks.declare true apart) fun _ _ =>
      (expression_pares given initial (visit.child 0 (.head _))).bind fun _ _ initial =>
        .after (fun _ _ lacks => lacks.define apart) fun _ _ => .pure (.initialized name initial)

theorem declarators_pares (given : v.Given program line) : ∀ (ds : List Declarator)
    {ps : List Phase} {here : List Nat} {place : Surroundings} {before : Resolution}
    {closing : List Locals},
    v.Visit program ps here ⟨.declarators ds, place, before, closing⟩ →
      (∀ d ∈ ds, d.name.Spares v.name ((ps.map Phase.mark).headD false)) →
        Pares (v.warning line) ps ps (v.closed here (Declarator.closingsAll ds))
          (Declarator.AllPared v.name (ps.map Phase.mark)) (declarators place ds)
          (declarators place (Declarator.pareAll v here ds)) before
  | [], _, _, _, _, _, _, _ => .pure .nil
  | d :: ds, _, _, _, _, _, visit, apart => by
    obtain ⟨apart, others⟩ := List.forall_mem_cons.mp apart
    rw [Declarator.closingsAll, v.closed_append]
    exact (declarator_pares given d visit apart).bind fun _ _ first =>
      .last (declarators_pares given ds visit.further others) fun _ _ rest => .cons first rest

theorem function_pares (given : v.Given program line) : ∀ (f : Function) {ps : List Phase}
    {here : List Nat} {place : Surroundings} {before : Resolution} {closing : List Locals},
    v.Visit program ps here ⟨.function f, place, before, closing⟩ →
      Pares (v.warning line) ps ps (v.closed here f.closings)
        (Function.Pared v.name (ps.map Phase.mark)) (function place f)
        (function place (f.pare v here)) before
  | ⟨name, params, body⟩, _, here, _, _, _, visit => by
    rw [Function.closings, v.closed_append, v.closed_under, v.closed_self]
    have inside := visit.enter 0 (.head _) rfl
    obtain ⟨expects, apart⟩ := Phase.Expects.params (visit.expects given)
    have walked := statements_pares given body inside expects fun _ => rfl
    rw [v.mark_phase] at walked
    intro k r' lacks
    have declared := declareParams_lacks params (lacks.openScope (.empty _ v here)) apart
    obtain ⟨walked, body⟩ := walked _ _ declared
    rw [← Nat.add_assoc]
    exact ⟨walked.closeScope (Phase.done_ne_ahead _), .code name params _ body⟩

theorem methods_pares (given : v.Given program line) : ∀ (fs : List Function) {ps : List Phase}
    {here : List Nat} {place : Surroundings} {before : Resolution} {closing : List Locals},
    v.Visit program ps here ⟨.methods fs, place, before, closing⟩ →
      Pares (v.warning line) ps ps (v.closed here (Function.closingsAll fs))
        (Function.AllPared v.name (ps.map Phase.mark)) (methods fs)
        (methods (Function.pareAll v here fs)) before
  | [], _, _, _, _, _, _ => .pure .nil
  | ⟨name, params, body⟩ :: fs, _, _, _, _, _, visit =>
    .part (function_pares given ⟨name, params, body⟩ (visit.child 0 (.head _))) fun _ _ first =>
      .last (methods_pares given fs (visit.child 1 (.tail _ (.head _)))) fun _ _ rest =>
        .cons first rest

theorem statics_pares (given : v.Given program line) : ∀ (fs : List Function) {ps : List Phase}
    {here : List Nat} {place : Surroundings} {before : Resolution} {closing : List Locals},
    v.Visit program ps here ⟨.statics fs, place, before, closing⟩ →
      Pares (v.warning line) ps ps (v.closed here (Function.closingsAll fs))
        (Function.AllPared v.name (ps.map Phase.mark)) (statics fs)
        (statics (Function.pareAll v here fs)) before
  | [], _, _, _, _, _, _ => .pure .nil
  | f :: fs, _, _, _, _, _, visit =>
    .part (function_pares given f (visit.child 0 (.head _))) fun _ _ first =>
      .last (statics_pares given fs (visit.child 1 (.tail _ (.head _)))) fun _ _ rest =>
        .cons first rest

end

end

end LoxLang
