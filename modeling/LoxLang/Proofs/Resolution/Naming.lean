import LoxLang.Proofs.Resolution.Addressing
/-!
No name is `this`. The parser makes no declaration and no variable of that name, and the walk over the
names changes none.

What is proved: what the walk makes of what the parser made names nothing `this`
(`Stmt.names_resolved`); and of the scopes around a place, when the walk closes them, only bodies of
classes have a `this` (`ofClass_of_closing`).
-/
namespace LoxLang

namespace Resolve

variable {place : Surroundings}

mutual

theorem names_expression : ∀ (place : Surroundings) (e : Expr) (r : Resolution),
    (expression place e r).1.names = e.names
  | _, .literal _, _ => rfl
  | place, .group inner, r => names_expression place inner r
  | place, .unary _ right, r => names_expression place right r
  | place, .binary left _ right, r =>
    congrArg₂ (· ++ ·) (names_expression place left r) (names_expression place right _)
  | place, .logical left _ right, r =>
    congrArg₂ (· ++ ·) (names_expression place left r) (names_expression place right _)
  | place, .ternary condition whenTrue whenFalse, r =>
    congrArg₂ (· ++ ·) (names_expression place condition r)
      (congrArg₂ (· ++ ·) (names_expression place whenTrue _) (names_expression place whenFalse _))
  | _, .variable _ _, _ => rfl
  | ⟨_, .none⟩, .this _ _, _ => rfl
  | ⟨_, .static⟩, .this _ _, _ => rfl
  | ⟨_, .object⟩, .this _ _, _ => rfl
  | place, .assign name value _, r =>
    congrArg (name.lexeme :: ·) (names_expression place value r)
  | place, .call callee _ arguments, r =>
    congrArg₂ (· ++ ·) (names_expression place callee r) (names_expressions place arguments _)
  | place, .property object _, r => names_expression place object r
  | place, .setProperty object _ value, r =>
    congrArg₂ (· ++ ·) (names_expression place object _) (names_expression place value r)
  | place, .lambda code, r => names_function ⟨.function, place.receiver⟩ code r

theorem names_expressions : ∀ (place : Surroundings) (es : List Expr) (r : Resolution),
    Expr.allNames (expressions place es r).1 = Expr.allNames es
  | _, [], _ => rfl
  | place, e :: es, r =>
    congrArg₂ (· ++ ·) (names_expression place e r) (names_expressions place es _)

theorem names_statement : ∀ (place : Surroundings) (s : Stmt) (r : Resolution),
    (statement place s r).1.names = s.names
  | place, .expression value, r => names_expression place value r
  | place, .print value, r => names_expression place value r
  | place, .declare d, r => names_declarator place d r
  | place, .declareAll ds, r => names_declarators place ds r
  | place, .block body, _ => names_statements place body _
  | place, .conditional condition whenTrue none, r =>
    congrArg₂ (· ++ ·) (names_expression place condition r) (names_statement place whenTrue _)
  | place, .conditional condition whenTrue (some whenFalse), r =>
    congrArg₂ (· ++ ·) (names_expression place condition r)
      (congrArg₂ (· ++ ·) (names_statement place whenTrue _) (names_statement place whenFalse _))
  | place, .loop condition body, r =>
    congrArg₂ (· ++ ·) (names_expression place condition r) (names_statement place body _)
  | place, .declareFunction ⟨name, params, body⟩, _ =>
    congrArg (name.lexeme :: ·) (names_function ⟨.function, place.receiver⟩ ⟨name, params, body⟩ _)
  | _, .returns _ none, _ => rfl
  | place, .returns _ (some value), _ => names_expression place value _
  | _, .declareClass name ms ss, _ =>
    congrArg (name.lexeme :: ·) (congrArg₂ (· ++ ·) (names_methods ms _) (names_statics ss _))

theorem names_statements : ∀ (place : Surroundings) (ss : List Stmt) (r : Resolution),
    Stmt.allNames (statements place ss r).1 = Stmt.allNames ss
  | _, [], _ => rfl
  | place, s :: ss, r =>
    congrArg₂ (· ++ ·) (names_statement place s r) (names_statements place ss _)

theorem names_declarator : ∀ (place : Surroundings) (d : Declarator) (r : Resolution),
    (declarator place d r).1.names = d.names
  | _, ⟨_, none⟩, _ => rfl
  | place, ⟨name, some initial⟩, _ =>
    congrArg (name.lexeme :: ·) (names_expression place initial _)

theorem names_declarators : ∀ (place : Surroundings) (ds : List Declarator) (r : Resolution),
    Declarator.allNames (declarators place ds r).1 = Declarator.allNames ds
  | _, [], _ => rfl
  | place, d :: ds, r =>
    congrArg₂ (· ++ ·) (names_declarator place d r) (names_declarators place ds _)

theorem names_function : ∀ (place : Surroundings) (f : Function) (r : Resolution),
    (function place f r).1.names = f.names
  | place, ⟨_, params, body⟩, _ =>
    congrArg (params.map (·.lexeme) ++ ·) (names_statements place body _)

theorem names_methods : ∀ (fs : List Function) (r : Resolution),
    Function.allNames (methods fs r).1 = Function.allNames fs
  | [], _ => rfl
  | f :: fs, r => congrArg₂ (· ++ ·) (names_function _ f r) (names_methods fs _)

theorem names_statics : ∀ (fs : List Function) (r : Resolution),
    Function.allNames (statics fs r).1 = Function.allNames fs
  | [], _ => rfl
  | f :: fs, r => congrArg₂ (· ++ ·) (names_function _ f r) (names_statics fs _)

end

end Resolve

/-! What the parser makes -/

theorem Token.IsName.ne_this {t : Token} (h : t.IsName) : Keyword.this.word ≠ t.lexeme :=
  fun same => h.lexeme_ne .this same.symm

mutual

theorem Expr.Proper.names : ∀ {e : Expr}, e.Proper → Keyword.this.word ∉ e.names
  | .literal _, _ => List.not_mem_nil
  | .group inner, h => Expr.Proper.names (e := inner) h
  | .unary _ _, h => h.2.names
  | .binary _ _ _, h => List.not_mem_append h.1.names h.2.2.names
  | .logical _ _ _, h => List.not_mem_append h.1.names h.2.2.names
  | .ternary _ _ _, h =>
    List.not_mem_append h.1.names (List.not_mem_append h.2.1.names h.2.2.names)
  | .variable _ _, h => List.not_mem_cons_of_ne_of_not_mem h.1.ne_this List.not_mem_nil
  | .this _ _, _ => List.not_mem_nil
  | .assign _ _ _, h => List.not_mem_cons_of_ne_of_not_mem h.1.ne_this h.2.1.names
  | .call _ _ _, h => List.not_mem_append h.1.names (Expr.AllProper.names h.2.2)
  | .property _ _, h => h.1.names
  | .setProperty _ _ _, h => List.not_mem_append h.1.names h.2.2.names
  | .lambda _, h => h.2.names

theorem Expr.AllProper.names : ∀ {es : List Expr}, Expr.AllProper es →
    Keyword.this.word ∉ Expr.allNames es
  | [], _ => List.not_mem_nil
  | _ :: _, h => List.not_mem_append h.1.names (Expr.AllProper.names h.2)

theorem Stmt.Proper.names : ∀ {s : Stmt}, s.Proper → Keyword.this.word ∉ s.names
  | .expression value, h => Expr.Proper.names (e := value) h
  | .print value, h => Expr.Proper.names (e := value) h
  | .declare d, h => Declarator.Proper.names (d := d) h
  | .declareAll _, h => Declarator.AllProper.names h.2
  | .block body, h => Stmt.AllProper.names (l := body) h
  | .conditional _ _ none, h => List.not_mem_append h.1.names h.2.2.names
  | .conditional _ _ (some _), h =>
    List.not_mem_append h.1.names (List.not_mem_append h.2.1.2.names h.2.2.2.names)
  | .loop _ _, h => List.not_mem_append h.1.names h.2.2.names
  | .declareFunction _, h => List.not_mem_cons_of_ne_of_not_mem h.1.ne_this h.2.names
  | .returns _ none, _ => List.not_mem_nil
  | .returns _ (some value), h => Expr.Proper.names (e := value) h
  | .declareClass _ _ _, h =>
    List.not_mem_cons_of_ne_of_not_mem h.1.ne_this
      (List.not_mem_append (Function.AllProper.names h.2.1) (Function.AllProper.names h.2.2))

theorem Stmt.AllProper.names : ∀ {l : List Stmt}, Stmt.AllProper l →
    Keyword.this.word ∉ Stmt.allNames l
  | [], _ => List.not_mem_nil
  | _ :: _, h => List.not_mem_append h.1.names (Stmt.AllProper.names h.2)

theorem Declarator.Proper.names : ∀ {d : Declarator}, d.Proper → Keyword.this.word ∉ d.names
  | ⟨_, none⟩, h => List.not_mem_cons_of_ne_of_not_mem (Token.IsName.ne_this h) List.not_mem_nil
  | ⟨_, some _⟩, h => List.not_mem_cons_of_ne_of_not_mem h.1.ne_this h.2.names

theorem Declarator.AllProper.names : ∀ {l : List Declarator}, Declarator.AllProper l →
    Keyword.this.word ∉ Declarator.allNames l
  | [], _ => List.not_mem_nil
  | _ :: _, h => List.not_mem_append h.1.names (Declarator.AllProper.names h.2)

theorem Function.Proper.names : ∀ {f : Function}, f.Proper → Keyword.this.word ∉ f.names
  | ⟨_, _, _⟩, h => by
    refine List.not_mem_append (fun mem => ?_) (Stmt.AllProper.names h.2)
    obtain ⟨t, param, same⟩ := List.mem_map.mp mem
    exact (h.1.2 t param).lexeme_ne .this same

theorem Function.AllProper.names : ∀ {l : List Function}, Function.AllProper l →
    Keyword.this.word ∉ Function.allNames l
  | [], _ => List.not_mem_nil
  | _ :: _, h => List.not_mem_append h.1.2.names (Function.AllProper.names h.2)

end

/-- A program names nothing `this` when the walk is done with it. -/
theorem Stmt.names_resolved {program : List Stmt} (proper : Stmt.AllProper program) :
    Keyword.this.word ∉ Stmt.allNames (Resolution.ofProgram program).1 := by
  have same : Stmt.allNames (Resolution.ofProgram program).1 = Stmt.allNames program :=
    Resolve.names_statements _ program _
  rw [same]
  exact Stmt.AllProper.names proper

/-! Scopes when the walk closes them -/

theorem Resolve.statements_introduces (place : Surroundings) : ∀ (ss : List Stmt),
    Stmt.AllProper ss → ∀ r : Resolution,
      Resolution.Introduces (ss.flatMap Stmt.declares) r (statements place ss r).2
  | [], _, r => (Resolution.Keeps.refl r).introduces
  | s :: ss, proper, r =>
    (statement_introduces place s proper.1 r).trans (statements_introduces place ss proper.2 _)

theorem Stmt.all_declares_ne_this : ∀ {ss : List Stmt}, Stmt.AllProper ss →
    Keyword.this.word ∉ ss.flatMap Stmt.declares
  | [], _ => List.not_mem_nil
  | _ :: _, proper => List.not_mem_append (Stmt.declares_ne_this proper.1)
      (Stmt.all_declares_ne_this proper.2)

/-- A scope without `this` has none either when its statements are behind the walk. -/
theorem Site.innermost_this {place : Surroundings} {body : List Stmt} (proper : Stmt.AllProper body)
    {r : Resolution} {s : Scope} {scopes : List Scope} (mirrors : Mirrors (s :: scopes) r.outline)
    (without : s.declares Keyword.this.word = false) :
    (innermost (Resolve.statements place body) r).binds Keyword.this.word = false := by
  have clean := Stmt.all_declares_ne_this proper
  have after := Resolve.statements_introduces place body proper r _ mirrors
  rw [innermost, ← Locals.binds_outline]
  unfold Resolution.outline at after
  cases scopes : (Resolve.statements place body r).2.scopes with
  | nil => rfl
  | cons c cs =>
    rw [scopes] at after
    cases after with
    | cons same _ =>
      show Bindings.binds Keyword.this.word c.outline = false
      rw [← same, Scope.declares_append]
      simp [without, clean]

/-- A step of a way that opens a scope: only if it is the body of a class it comes to have a `this`. -/
theorem Site.closing_child {p : Site} (proper : p.part.Proper) {scopes : List Scope}
    (mirrors : Mirrors scopes p.before.outline) (i : Nat) :
    match p.part.opens? i with
    | some s => ∃ c, (p.child i).closing = c :: p.closing ∧
        (c.binds Keyword.this.word = true → s.ofClass = true)
    | none => (p.child i).closing = p.closing := by
  obtain ⟨part, place, before, closing⟩ := p
  have inside := mirrors_child proper mirrors i
  dsimp only at proper inside ⊢
  cases opens : part.opens? i with
  | none =>
    unfold child
    dsimp only
    split
    all_goals first
      | rfl
      | cases opens
  | some s =>
    rw [opens] at inside
    have receives := Part.opens?_this proper opens
    -- A block or a function has a list of statements for its body.
    have plain {body : List Stmt} {r : Resolution} (proper : Stmt.AllProper body)
        (inside : Mirrors (s :: Scope.declareIn (part.declaresBefore i) scopes) r.outline) :
        (innermost (Resolve.statements place body) r).binds Keyword.this.word = true →
          s.ofClass = true := by
      intro binds
      by_contra without
      rw [Bool.not_eq_true] at without
      rw [innermost_this proper inside (receives.trans without)] at binds
      cases binds
    unfold Part.opens? at opens
    split at opens
    · exact ⟨_, rfl, plain proper inside⟩
    · cases opens
      exact ⟨_, rfl, fun _ => rfl⟩
    · cases opens
      exact ⟨_, rfl, fun _ => rfl⟩
    · exact ⟨_, rfl, plain proper.2 inside⟩
    · cases opens

/-- Of the scopes around a place, only bodies of classes have a `this` when the walk closes them. -/
theorem ofClass_of_closing {program : List Stmt} (proper : Stmt.AllProper program) :
    ∀ (way : List Nat) {d : Nat} {c : Locals}, (siteAt program way).closing[d]? = some c →
      c.binds Keyword.this.word = true →
        ∃ s, (scopesAt program way)[d]? = some s ∧ s.ofClass = true
  | [], _, _, closing, _ => by cases closing
  | i :: way, d, c, closing, binds => by
    -- A scope around the part that the step leads into was a scope around the part before.
    have around {d : Nat} (closing : (siteAt program way).closing[d]? = some c) :
        ∃ s, (Scope.declareIn ((partAt program way).declaresBefore i) (scopesAt program way))[d]? =
          some s ∧ s.ofClass = true := by
      obtain ⟨s, found, ofClass⟩ := ofClass_of_closing proper way closing binds
      cases scopes : scopesAt program way with
      | nil =>
        rw [scopes] at found
        cases found
      | cons t outer =>
        rw [scopes] at found
        cases d with
        | zero =>
          cases found
          exact ⟨_, rfl, ofClass⟩
        | succ d => exact ⟨s, found, ofClass⟩
    have step := Site.closing_child (proper_siteAt proper way) (mirrors_scopesAt proper way) i
    rw [← partAt_eq] at step
    rw [scopesAt]
    change ((siteAt program way).child i).closing[d]? = some c at closing
    cases opens : (partAt program way).opens? i with
    | none =>
      rw [opens] at step
      rw [step] at closing
      exact around closing
    | some s =>
      rw [opens] at step
      obtain ⟨c', same, receives⟩ := step
      rw [same] at closing
      cases d with
      | zero =>
        cases closing
        exact ⟨s, rfl, receives binds⟩
      | succ d => exact around closing

end LoxLang
