import LoxLang.Proofs.Renaming.Relabelling
/-!
The walk over a program in which a variable was renamed. It goes through the same scopes under other
names, so it finds as many faults as before, and what it makes of the program is a twin of what it
made of it before.

What is proved, by induction on the program: this holds of each of its parts (`expression_renames`
and its siblings), provided that the new name does not occur and that no function or class has the
old one in the scope of the variable.
-/
namespace LoxLang

open Resolve Resolution

/-- What a renaming relies on: no function or class of the scope has the name of the variable. -/
structure Renaming.Fits (ρ : Renaming) (σ : Exchange) (program : List Stmt) : Prop where
  old : ρ.old = σ.old
  new : ρ.new = σ.new
  apart : ∀ s ∈ (siteAt program ρ.scope).part.body, ∀ t, s.callable? = some t → t.lexeme ≠ σ.old

/-- To rename what the walk made of a part and to walk over that again goes through the same scopes
and makes a twin. -/
def Renames {α : Type} (σ : Exchange) (marks : List Bool) (walk : α → Resolve α) (rename : α → α)
    (Twin : α → α → Prop) (a : α) : Prop :=
  ∀ r r', Relabels σ marks r r' →
    Relabels σ marks (walk a r).2 (walk (rename (walk a r).1) r').2 ∧
      Twin (walk a r).1 (walk (rename (walk a r).1) r').1

variable {program : List Stmt} {ρ : Renaming} {σ : Exchange}

theorem Site.part_child {p : Site} {part : Part} (h : p.part = part) (i : Nat) :
    (p.child i).part = (Site.child ⟨part, ⟨.program, .none⟩, .empty, []⟩ i).part := by
  obtain ⟨_, place, before, closing⟩ := p
  cases h
  unfold Site.child
  dsimp only
  split <;> rfl

/-- The parts of what stands at a place stand at the places one step on. -/
theorem part_siteAt {here : List Nat} {part : Part} (h : (siteAt program here).part = part)
    (i : Nat) : (siteAt program (i :: here)).part =
      (Site.child ⟨part, ⟨.program, .none⟩, .empty, []⟩ i).part := Site.part_child h i

/-- Further declarators stand one step on, whether the first one has a first value or not. -/
theorem part_declarators {here : List Nat} {d : Declarator} {ds : List Declarator}
    (h : (siteAt program here).part = .declarators (d :: ds)) :
    (siteAt program (1 :: here)).part = .declarators ds := by
  obtain ⟨name, initial⟩ := d
  cases initial with
  | none => exact part_siteAt h 1
  | some initial => exact part_siteAt h 1

namespace Renaming

theorem token_name (mark : Bool) (t : Token) :
    (ρ.token mark t).lexeme = if mark && t.lexeme == ρ.old then ρ.new else t.lexeme := by
  unfold token
  split <;> rfl

theorem Fits.twin (fits : ρ.Fits σ program) (mark : Bool) {t : Token} (notNew : t.lexeme ≠ σ.new) :
    t.Twin σ mark (ρ.token mark t) := by
  rw [Token.Twin, token_name, fits.old, fits.new, Exchange.swap]
  cases mark with
  | false => rfl
  | true => by_cases isOld : t.lexeme = σ.old <;> simp [isOld, notNew]

theorem Fits.allTwin (fits : ρ.Fits σ program) (mark : Bool) : ∀ {ts : List Token},
    (∀ t ∈ ts, t.lexeme ≠ σ.new) → Token.AllTwin σ mark ts (ts.map (ρ.token mark))
  | [], _ => .nil
  | t :: _, fresh => .cons (fits.twin mark (fresh t List.mem_cons_self))
      (fits.allTwin mark fun u mem => fresh u (List.mem_cons_of_mem t mem))

end Renaming

/-- A name that is neither of the two is the same in both programs. -/
theorem Token.twin_of_ne {t : Token} (mark : Bool) (notOld : mark = true → t.lexeme ≠ σ.old)
    (notNew : t.lexeme ≠ σ.new) : t.Twin σ mark t := by
  rw [Token.Twin, Exchange.swap]
  cases mark with
  | false => rfl
  | true => simp [notOld rfl, notNew]

theorem declareParams_relabels {mark : Bool} {marks : List Bool} : ∀ {ts ts' : List Token}
    {r r' : Resolution}, Token.AllTwin σ mark ts ts' → (∀ t ∈ ts, t.lexeme ≠ σ.new) →
      Relabels σ (mark :: marks) r r' →
        Relabels σ (mark :: marks) (declareParams ts r).2 (declareParams ts' r').2
  | [], _, _, _, .nil, _, h => h
  | t :: ts, t' :: ts', r, r', .cons twin rest, fresh, h => by
    have first := (h.declare false false twin (fresh t List.mem_cons_self)).define twin
    show Relabels σ _ (declareParams ts (define t (declare t false r).2).2).2
      (declareParams ts' (define t' (declare t' false r').2).2).2
    exact declareParams_relabels rest (fun u mem => fresh u (List.mem_cons_of_mem t mem)) first

theorem checkReturn_relabels {marks : List Bool} {r r' : Resolution} (h : Relabels σ marks r r')
    (body : Body) (keyword : Token) :
    Relabels σ marks (checkReturn body keyword r).2 (checkReturn body keyword r').2 := by
  unfold checkReturn
  split
  · exact h.report _ _ _
  · exact h

theorem checkReturnValue_relabels {marks : List Bool} {r r' : Resolution}
    (h : Relabels σ marks r r') (body : Body) (keyword : Token) :
    Relabels σ marks (checkReturnValue body keyword r).2 (checkReturnValue body keyword r').2 := by
  unfold checkReturnValue
  split
  · exact h.report _ _ _
  · exact h

/-- What a statement declares in the scope of the variable has another name. -/
def Apart (σ : Exchange) (marks : List Bool) (s : Stmt) : Prop :=
  marks.headD false = true → ∀ t, s.callable? = some t → t.lexeme ≠ σ.old

theorem Renaming.Fits.apart_at (fits : ρ.Fits σ program) {here : List Nat} {part : Part}
    (site : (siteAt program here).part = part) (marks : List Bool) :
    ∀ s ∈ part.body, Apart σ ((here == ρ.scope) :: marks) s := by
  intro s mem same
  have here : here = ρ.scope := eq_of_beq same
  rw [← site, here] at mem
  exact fits.apart s mem

theorem apart_of_not_declaration {s : Stmt} (h : s.isDeclaration = false) (marks : List Bool) :
    Apart σ marks s := by
  intro _ t declared
  cases s with
  | declareFunction => cases h
  | declareClass => cases h
  | _ => cases declared

theorem not_mem_append {x : String} {s t : List String} (h : x ∉ s ++ t) : x ∉ s ∧ x ∉ t :=
  ⟨fun mem => h (List.mem_append_left t mem), fun mem => h (List.mem_append_right s mem)⟩

theorem not_mem_cons {x z : String} {s : List String} (h : x ∉ z :: s) : z ≠ x ∧ x ∉ s :=
  ⟨fun same => h (same ▸ List.mem_cons_self), fun mem => h (List.mem_cons_of_mem z mem)⟩

mutual

theorem expression_renames (fits : ρ.Fits σ program) (place : Surroundings)
    {marks : List Bool} {here : List Nat} : ∀ e : Expr,
      (siteAt program here).part = .expression e → σ.new ∉ e.names → e.Proper →
        Renames σ marks (expression place) (Expr.rename ρ marks here) (Expr.Twin σ marks) e
  | .literal value, _, _, _ => fun _ _ h => ⟨h, .literal value⟩
  | .group inner, site, fresh, proper => fun r r' h =>
    have first := expression_renames fits place inner (part_siteAt site 0) fresh proper r r' h
    ⟨first.1, .group first.2⟩
  | .unary op right, site, fresh, proper => fun r r' h =>
    have first := expression_renames fits place right (part_siteAt site 0) fresh proper.2 r r' h
    ⟨first.1, .unary op first.2⟩
  | .binary left op right, site, fresh, proper => fun r r' h =>
    have ⟨fresh, fresh'⟩ := not_mem_append fresh
    have first := expression_renames fits place left (part_siteAt site 0) fresh proper.1 r r' h
    have second := expression_renames fits place right (part_siteAt site 1) fresh' proper.2.2
      _ _ first.1
    ⟨second.1, .binary op first.2 second.2⟩
  | .logical left op right, site, fresh, proper => fun r r' h =>
    have ⟨fresh, fresh'⟩ := not_mem_append fresh
    have first := expression_renames fits place left (part_siteAt site 0) fresh proper.1 r r' h
    have second := expression_renames fits place right (part_siteAt site 1) fresh' proper.2.2
      _ _ first.1
    ⟨second.1, .logical op first.2 second.2⟩
  | .ternary condition whenTrue whenFalse, site, fresh, proper => fun r r' h =>
    have ⟨fresh, rest⟩ := not_mem_append fresh
    have ⟨fresh', fresh''⟩ := not_mem_append rest
    have first := expression_renames fits place condition (part_siteAt site 0) fresh proper.1 r r' h
    have second := expression_renames fits place whenTrue (part_siteAt site 1) fresh' proper.2.1
      _ _ first.1
    have third := expression_renames fits place whenFalse (part_siteAt site 2) fresh'' proper.2.2
      _ _ second.1
    ⟨third.1, .ternary first.2 second.2 third.2⟩
  | .variable name depth, _, fresh, _ => fun r r' h => by
    -- The twin of the name has the same distance, so it is exchanged by the same mark in both walks.
    have notNew : name.lexeme ≠ σ.new := (not_mem_cons fresh).1
    have twin := fits.twin (Exchange.mark marks (distance? name.lexeme r.scopes)) notNew
    have same := h.distance? notNew
    have first := Site.resolved_variable place name depth r
    have second := Site.resolved_variable place
      (ρ.token (Exchange.mark marks (distance? name.lexeme r.scopes)) name) none r'
    rw [twin, same] at second
    have renamed : Expr.rename ρ marks here (expression place (.variable name depth) r).1 =
        .variable (ρ.token (Exchange.mark marks (distance? name.lexeme r.scopes)) name) none := by
      rw [first, Expr.rename]
    rw [renamed, first, second]
    exact ⟨h.read notNew twin, .variable twin⟩
  | .this keyword depth, _, _, proper => fun r r' h => by
    obtain ⟨⟨_, lexeme⟩, rfl⟩ := proper
    obtain ⟨body, receiver⟩ := place
    cases receiver with
    | none => exact ⟨h.report _ _ _, .this rfl⟩
    | static => exact ⟨h.report _ _ _, .this rfl⟩
    | object =>
      have notNew : keyword.lexeme ≠ σ.new := lexeme ▸ σ.new_ne.symm
      -- No exchange concerns `this`, which is not the new name either.
      have twin (mark : Bool) : keyword.Twin σ mark keyword := by
        rw [Token.Twin, lexeme, σ.swap_this]
      have same := h.distance? notNew
      rw [← twin] at same
      refine ⟨h, ?_⟩
      show Expr.Twin σ marks (.this keyword (distance? keyword.lexeme r.scopes))
        (.this keyword (distance? keyword.lexeme r'.scopes))
      rw [same]
      exact .this (twin _)
  | .assign name value depth, site, fresh, proper => fun r r' h => by
    have ⟨notNew, fresh⟩ := not_mem_cons fresh
    have first := expression_renames fits place value (part_siteAt site 0) fresh proper.2.1 r r' h
    have twin := fits.twin (Exchange.mark marks
      (distance? name.lexeme (expression place value r).2.scopes)) notNew
    have same := first.1.distance? notNew
    rw [← twin] at same
    refine ⟨first.1, ?_⟩
    show Expr.Twin σ marks (.assign name (expression place value r).1
        (distance? name.lexeme (expression place value r).2.scopes))
      (.assign (ρ.token _ name) _ (distance? (ρ.token _ name).lexeme _))
    rw [same]
    exact .assign first.2 twin
  | .call callee paren arguments, site, fresh, proper => fun r r' h =>
    have ⟨fresh, fresh'⟩ := not_mem_append fresh
    have first := expression_renames fits place callee (part_siteAt site 0) fresh proper.1 r r' h
    have second := expressions_renames fits place arguments (part_siteAt site 1) fresh' proper.2.2
      _ _ first.1
    ⟨second.1, .call paren first.2 second.2⟩
  | .property object name, site, fresh, proper => fun r r' h =>
    have first := expression_renames fits place object (part_siteAt site 0) fresh proper.1 r r' h
    ⟨first.1, .property name first.2⟩
  | .setProperty object name value, site, fresh, proper => fun r r' h =>
    have ⟨fresh, fresh'⟩ := not_mem_append fresh
    have first := expression_renames fits place value (part_siteAt site 1) fresh' proper.2.2 r r' h
    have second := expression_renames fits place object (part_siteAt site 0) fresh proper.1
      _ _ first.1
    ⟨second.1, .setProperty name second.2 first.2⟩
  | .lambda code, site, fresh, proper => fun r r' h =>
    have first := function_renames fits ⟨.function, place.receiver⟩ code (part_siteAt site 0) fresh
      proper.2 r r' h
    ⟨first.1, .lambda first.2⟩

theorem expressions_renames (fits : ρ.Fits σ program) (place : Surroundings)
    {marks : List Bool} {here : List Nat} : ∀ es : List Expr,
      (siteAt program here).part = .expressions es → σ.new ∉ Expr.allNames es →
        Expr.AllProper es →
          Renames σ marks (expressions place) (Expr.renameAll ρ marks here) (Expr.AllTwin σ marks) es
  | [], _, _, _ => fun _ _ h => ⟨h, .nil⟩
  | e :: es, site, fresh, proper => fun r r' h =>
    have ⟨fresh, fresh'⟩ := not_mem_append fresh
    have first := expression_renames fits place e (part_siteAt site 0) fresh proper.1 r r' h
    have second := expressions_renames fits place es (part_siteAt site 1) fresh' proper.2
      _ _ first.1
    ⟨second.1, .cons first.2 second.2⟩

theorem statement_renames (fits : ρ.Fits σ program) (place : Surroundings)
    {marks : List Bool} {here : List Nat} : ∀ s : Stmt,
      (siteAt program here).part = .statement s → σ.new ∉ s.names → s.Proper →
        Apart σ marks s →
          Renames σ marks (statement place) (Stmt.rename ρ marks here) (Stmt.Twin σ marks) s
  | .expression value, site, fresh, proper, _ => fun r r' h =>
    have first := expression_renames fits place value (part_siteAt site 0) fresh proper r r' h
    ⟨first.1, .expression first.2⟩
  | .print value, site, fresh, proper, _ => fun r r' h =>
    have first := expression_renames fits place value (part_siteAt site 0) fresh proper r r' h
    ⟨first.1, .print first.2⟩
  | .declare d, site, fresh, proper, _ => fun r r' h =>
    have first := declarator_renames fits place d (part_siteAt site 0) fresh proper r r' h
    ⟨first.1, .declare first.2⟩
  | .declareAll ds, site, fresh, proper, _ => fun r r' h =>
    have first := declarators_renames fits place ds (part_siteAt site 0) fresh proper.2 r r' h
    ⟨first.1, .declareAll first.2⟩
  | .block body, site, fresh, proper, _ => fun _ _ h =>
    have apart := fits.apart_at site marks
    have opened := h.openScope (here == ρ.scope) [] [] rfl rfl
    have first := statements_renames fits place body (part_siteAt site 0) fresh proper apart
      _ _ opened
    ⟨first.1.closeScope, .block _ first.2⟩
  | .conditional condition whenTrue none, site, fresh, proper, _ => fun r r' h =>
    have ⟨fresh, fresh'⟩ := not_mem_append fresh
    have first := expression_renames fits place condition (part_siteAt site 0) fresh proper.1 r r' h
    have second := statement_renames fits place whenTrue (part_siteAt site 1) fresh' proper.2.2
      (apart_of_not_declaration proper.2.1 marks) _ _ first.1
    ⟨second.1, .onlyIf first.2 second.2⟩
  | .conditional condition whenTrue (some whenFalse), site, fresh, proper, _ => fun r r' h =>
    have ⟨fresh, rest⟩ := not_mem_append fresh
    have ⟨fresh', fresh''⟩ := not_mem_append rest
    have first := expression_renames fits place condition (part_siteAt site 0) fresh proper.1 r r' h
    have second := statement_renames fits place whenTrue (part_siteAt site 1) fresh' proper.2.1.2
      (apart_of_not_declaration proper.2.1.1 marks) _ _ first.1
    have third := statement_renames fits place whenFalse (part_siteAt site 2) fresh'' proper.2.2.2
      (apart_of_not_declaration proper.2.2.1 marks) _ _ second.1
    ⟨third.1, .orElse first.2 second.2 third.2⟩
  | .loop condition body, site, fresh, proper, _ => fun r r' h =>
    have ⟨fresh, fresh'⟩ := not_mem_append fresh
    have first := expression_renames fits place condition (part_siteAt site 0) fresh proper.1 r r' h
    have second := statement_renames fits place body (part_siteAt site 1) fresh' proper.2.2
      (apart_of_not_declaration proper.2.1 marks) _ _ first.1
    ⟨second.1, .loop first.2 second.2⟩
  | .declareFunction ⟨name, params, body⟩, site, fresh, proper, apart => fun _ _ h =>
    have ⟨notNew, fresh⟩ := not_mem_cons fresh
    have twin := Token.twin_of_ne (marks.headD false) (fun mark => apart mark _ rfl) notNew
    have declared := (h.declare false false twin notNew).define twin
    have first := function_renames fits ⟨.function, place.receiver⟩ ⟨name, params, body⟩
      (part_siteAt site 0) fresh proper.2 _ _ declared
    ⟨first.1, .declareFunction first.2 twin⟩
  | .returns keyword none, _, _, _, _ => fun _ _ h =>
    ⟨checkReturn_relabels h place.body keyword, .returns keyword⟩
  | .returns keyword (some value), site, fresh, proper, _ => fun _ _ h =>
    have checked := checkReturnValue_relabels (checkReturn_relabels h place.body keyword)
      place.body keyword
    have first := expression_renames fits place value (part_siteAt site 0) fresh proper _ _ checked
    ⟨first.1, .returnsValue keyword first.2⟩
  | .declareClass name ms ss, site, fresh, proper, apart => fun _ _ h =>
    have ⟨notNew, rest⟩ := not_mem_cons fresh
    have ⟨fresh, fresh'⟩ := not_mem_append rest
    have twin := Token.twin_of_ne (marks.headD false) (fun mark => apart mark _ rfl) notNew
    have declared := (h.declare false false twin notNew).define twin
    have opened := declared.openScope false [⟨"this", name.line, true, false, false⟩] _ rfl
      (if_neg σ.new_ne.symm)
    have first := methods_renames fits ms (part_siteAt site 0) fresh proper.2.1 _ _ opened
    have second := statics_renames fits ss (part_siteAt site 1) fresh' proper.2.2 _ _ first.1
    ⟨second.1.closeScope, .declareClass first.2 second.2 twin⟩

theorem statements_renames (fits : ρ.Fits σ program) (place : Surroundings)
    {marks : List Bool} {here : List Nat} : ∀ ss : List Stmt,
      (siteAt program here).part = .statements ss → σ.new ∉ Stmt.allNames ss →
        Stmt.AllProper ss → (∀ s ∈ ss, Apart σ marks s) →
          Renames σ marks (statements place) (Stmt.renameAll ρ marks here) (Stmt.AllTwin σ marks) ss
  | [], _, _, _, _ => fun _ _ h => ⟨h, .nil⟩
  | s :: ss, site, fresh, proper, apart => fun r r' h =>
    have ⟨fresh, fresh'⟩ := not_mem_append fresh
    have ⟨apart, apart'⟩ := List.forall_mem_cons.mp apart
    have first := statement_renames fits place s (part_siteAt site 0) fresh proper.1 apart r r' h
    have second := statements_renames fits place ss (part_siteAt site 1) fresh' proper.2 apart'
      _ _ first.1
    ⟨second.1, .cons first.2 second.2⟩

/-- The walk over a declarator, with others after it or not, in which a variable was renamed. -/
theorem declarator_renames (fits : ρ.Fits σ program) (place : Surroundings)
    {marks : List Bool} {here : List Nat} {ds : List Declarator} : ∀ d : Declarator,
      (siteAt program here).part = .declarators (d :: ds) → σ.new ∉ d.names → d.Proper →
        Renames σ marks (declarator place) (Declarator.rename ρ marks (0 :: here))
          (Declarator.Twin σ marks) d
  | ⟨_, none⟩, _, fresh, _ => fun _ _ h =>
    have notNew := (not_mem_cons fresh).1
    have twin := fits.twin (marks.headD false) notNew
    ⟨(h.declare true true twin notNew).define twin, .plain twin⟩
  | ⟨_, some initial⟩, site, fresh, proper => fun _ _ h =>
    have ⟨notNew, fresh⟩ := not_mem_cons fresh
    have twin := fits.twin (marks.headD false) notNew
    have declared := h.declare true true twin notNew
    have first := expression_renames fits place initial (part_siteAt site 0) fresh proper.2
      _ _ declared
    ⟨first.1.define twin, .initialized twin first.2⟩

theorem declarators_renames (fits : ρ.Fits σ program) (place : Surroundings)
    {marks : List Bool} {here : List Nat} : ∀ ds : List Declarator,
      (siteAt program here).part = .declarators ds → σ.new ∉ Declarator.allNames ds →
        Declarator.AllProper ds →
          Renames σ marks (declarators place) (Declarator.renameAll ρ marks here)
            (Declarator.AllTwin σ marks) ds
  | [], _, _, _ => fun _ _ h => ⟨h, .nil⟩
  | d :: ds, site, fresh, proper => fun r r' h =>
    have ⟨fresh, fresh'⟩ := not_mem_append fresh
    have first := declarator_renames fits place d site fresh proper.1 r r' h
    have second := declarators_renames fits place ds (part_declarators site) fresh' proper.2
      _ _ first.1
    ⟨second.1, .cons first.2 second.2⟩

theorem function_renames (fits : ρ.Fits σ program) (place : Surroundings)
    {marks : List Bool} {here : List Nat} : ∀ code : Function,
      (siteAt program here).part = .function code → σ.new ∉ code.names → code.Proper →
        Renames σ marks (function place) (Function.rename ρ marks here) (Function.Twin σ marks) code
  | ⟨_, params, body⟩, site, fresh, proper => fun _ _ h =>
    have ⟨fresh, fresh'⟩ := not_mem_append fresh
    have fresh : ∀ t ∈ params, t.lexeme ≠ σ.new := fun t mem same =>
      fresh (List.mem_map.mpr ⟨t, mem, same⟩)
    have twins := fits.allTwin (here == ρ.scope) fresh
    have opened := h.openScope (here == ρ.scope) [] [] rfl rfl
    have bound := declareParams_relabels twins fresh opened
    have first := statements_renames fits place body (part_siteAt site 0) fresh' proper.2
      (fits.apart_at site marks) _ _ bound
    ⟨first.1.closeScope, .code _ twins first.2⟩

theorem methods_renames (fits : ρ.Fits σ program) {marks : List Bool} {here : List Nat} :
    ∀ fs : List Function, (siteAt program here).part = .methods fs →
      σ.new ∉ Function.allNames fs → Function.AllProper fs →
        Renames σ marks methods (Function.renameAll ρ marks here) (Function.AllTwin σ marks) fs
  | [], _, _, _ => fun _ _ h => ⟨h, .nil⟩
  | ⟨name, params, body⟩ :: fs, site, fresh, proper => fun r r' h =>
    have ⟨fresh, fresh'⟩ := not_mem_append fresh
    have first := function_renames fits ⟨methodBody name, .object⟩ ⟨name, params, body⟩
      (part_siteAt site 0) fresh proper.1.2 r r' h
    have second := methods_renames fits fs (part_siteAt site 1) fresh' proper.2 _ _ first.1
    ⟨second.1, .cons first.2 second.2⟩

theorem statics_renames (fits : ρ.Fits σ program) {marks : List Bool} {here : List Nat} :
    ∀ fs : List Function, (siteAt program here).part = .statics fs →
      σ.new ∉ Function.allNames fs → Function.AllProper fs →
        Renames σ marks statics (Function.renameAll ρ marks here) (Function.AllTwin σ marks) fs
  | [], _, _, _ => fun _ _ h => ⟨h, .nil⟩
  | f :: fs, site, fresh, proper => fun r r' h =>
    have ⟨fresh, fresh'⟩ := not_mem_append fresh
    have first := function_renames fits ⟨.static, .static⟩ f (part_siteAt site 0) fresh
      proper.1.2 r r' h
    have second := statics_renames fits fs (part_siteAt site 1) fresh' proper.2 _ _ first.1
    ⟨second.1, .cons first.2 second.2⟩

end

end LoxLang
