import LoxLang.Proofs.Resolution.Site
/-!
How the walk over the names gets from place to place, and what it knows where it is. From a part to
a part of it the walk stays in the open scopes, or opens one more, or has just bound a variable
whose initializer comes next (`Site.step`).

What is proved: nothing is unfinished except a variable in its own initializer
(`initializing_of_unfinished`); in a program without faults, a name that is read there is read
inside a lambda (`finished_or_initializing`).
-/
namespace LoxLang

namespace Site

/-- How the walk gets from a part to a part of it. -/
inductive Step (p q : Site) : Prop
  /-- It stays in the scopes that are open. -/
  | along (first : Resolution.Grows p.before q.before) (rest : Resolution.Grows q.after p.after)
      (closing : q.closing = p.closing)
  /-- It opens a scope, in which nothing is unfinished. -/
  | opened (r : Resolution) (s : Bindings Bool) (c : Locals) (around : Resolution.Grows p.before r)
      (outline : q.before.outline = s :: r.outline) (finished : ∀ x, s.find? x ≠ some false)
      (closing : q.closing = c :: p.closing)
      (closes : ∀ x, (q.after.top.find? x).isSome → c.binds x)
      (errors : q.after.errors <+: p.after.errors)
  /-- It binds a variable and comes to its initializer. -/
  | declared (name : Token) (initial : Expr) (ds : List Declarator)
      (part : p.part = .declarators (⟨name, some initial⟩ :: ds)) (child : q = p.child 0)
      (outline : q.before.outline = (Resolve.declare name true p.before).2.outline)
      (rest : Resolution.Grows q.after p.after) (closing : q.closing = p.closing)

open Resolve

/-- What happens in a scope that is opened and closed again is what happens in the open scopes. -/
theorem errors_scoped {α : Type} (walk : Resolve α) (r : Resolution) :
    (walk r).2.errors <+: (closeScope (walk r).2).2.errors :=
  (errors_closeScope _).symm ▸ List.prefix_rfl

/-- What is bound when a walk leaves the innermost scope is bound when it is closed. -/
theorem binds_innermost {α : Type} (walk : Resolve α) {r r' : Resolution} {s : Bindings Bool}
    {ss : List (Bindings Bool)} (outline : r.outline = s :: ss) (h : Resolution.Grows r' (walk r).2)
    (h' : Grows walk) (x : String) (found : (r'.top.find? x).isSome) :
    (innermost walk r).binds x := by
  have found := h.names x found
  have length := (h' r).length
  unfold innermost
  rw [Resolution.top, Resolution.outline] at found
  rw [Resolution.length_outline, outline] at length
  cases scopes : (walk r).2.scopes with
  | nil => simp [scopes] at length
  | cons ls rest =>
    rw [scopes] at found
    rw [List.headD_cons, ← Locals.binds_outline]
    exact found

/-- Parameters alone leave nothing unfinished. -/
theorem openBody_outline (params : List Token) (r : Resolution) :
    ∃ s, (openBody params r).2.outline = s :: r.outline ∧ ∀ x, s.find? x ≠ some false := by
  have grows := declareParams_grows params (openScope [] r).2
  have tail : (openBody params r).2.outline.tail = r.outline := grows.tail
  have length : (openBody params r).2.outline.length = r.outline.length + 1 := grows.length
  have unfinished := grows.unfinished
  cases outline : (openBody params r).2.outline with
  | nil => simp [outline] at length
  | cons s ss =>
    rw [outline, List.tail_cons] at tail
    subst tail
    refine ⟨s, rfl, fun x found => ?_⟩
    have here : (declareParams params (openScope [] r).2).2.top = s := by
      show (openBody params r).2.outline.headD [] = s
      rw [outline, List.headD_cons]
    rw [← here] at found
    cases unfinished x found

theorem openClass_outline (name : Token) (r : Resolution) :
    (openClass name r).2.outline = [(Keyword.this.word, true)] ::
      (define name (declare name false r).2).2.outline := rfl

theorem finished_this (x : String) :
    Bindings.find? x [(Keyword.this.word, true)] ≠ some false := by
  simp only [Bindings.find?]
  split <;> simp

/-- One step of the walk from part to part. -/
theorem step (p : Site) (i : Nat) : Step p (p.child i) := by
  obtain ⟨part, place, before, closing⟩ := p
  unfold child
  dsimp only
  split
  -- Expressions and lists of them: the walk goes over the parts in turn, in the same scopes.
  · exact .along (.refl _) (.refl _) rfl
  · exact .along (.refl _) (.refl _) rfl
  · exact .along (.refl _) (expression_keeps _ _ _).grows rfl
  · exact .along (expression_keeps _ _ _).grows (.refl _) rfl
  · exact .along (.refl _) (expression_keeps _ _ _).grows rfl
  · exact .along (expression_keeps _ _ _).grows (.refl _) rfl
  · exact .along (.refl _) ((expression_keeps _ _ _).trans (expression_keeps _ _ _)).grows rfl
  · exact .along (expression_keeps _ _ _).grows (expression_keeps _ _ _).grows rfl
  · exact .along ((expression_keeps _ _ _).trans (expression_keeps _ _ _)).grows (.refl _) rfl
  · exact .along (.refl _) (.refl _) rfl
  · exact .along (.refl _) (expressions_keeps _ _ _).grows rfl
  · exact .along (expression_keeps _ _ _).grows (.refl _) rfl
  · exact .along (.refl _) (.refl _) rfl
  · exact .along (expression_keeps _ _ _).grows (.refl _) rfl
  · exact .along (.refl _) (expression_keeps _ _ _).grows rfl
  · exact .along (.refl _) (.refl _) rfl
  · exact .along (.refl _) (expressions_keeps _ _ _).grows rfl
  · exact .along (expression_keeps _ _ _).grows (.refl _) rfl
  -- Statements.
  · exact .along (.refl _) (.refl _) rfl
  · exact .along (.refl _) (.refl _) rfl
  · exact .along (.refl _) (.refl _) rfl
  · exact .along (.refl _) (.refl _) rfl
  -- The body of a block, in a scope of its own.
  · refine .opened before [] _ (.refl _) rfl (fun _ => nofun) rfl (fun x => ?_) (errors_scoped _ _)
    exact binds_innermost (Resolve.statements place _) rfl (.refl _) (statements_grows _ _) x
  · rename_i whenFalse
    cases whenFalse with
    | none => exact .along (.refl _) (statement_grows _ _ _) rfl
    | some s => exact .along (.refl _) ((statement_grows _ _ _).trans (statement_grows _ _ _)) rfl
  · rename_i whenFalse
    cases whenFalse with
    | none => exact .along (expression_keeps _ _ _).grows (.refl _) rfl
    | some s => exact .along (expression_keeps _ _ _).grows (statement_grows _ _ _) rfl
  · exact .along ((expression_keeps _ _ _).grows.trans (statement_grows _ _ _)) (.refl _) rfl
  · exact .along (.refl _) (statement_grows _ _ _) rfl
  · exact .along (expression_keeps _ _ _).grows (.refl _) rfl
  -- The code of a function, behind its name.
  · exact .along (declared_grows _ _ (Keeps.pure ()) _) (.refl _) rfl
  · exact .along ((checkReturn_keeps _ _ _).trans (checkReturnValue_keeps _ _ _)).grows (.refl _) rfl
  -- The methods of a class and then its static ones, in the scope of `this`.
  · refine .opened _ _ _ (declared_grows _ false (Keeps.pure ()) _) (openClass_outline _ _)
      finished_this rfl (fun x => ?_) ?_
    · exact binds_innermost (methods _ >>= fun _ => statics _) (openClass_outline _ _)
        (statics_keeps _ _).grows ((methods_keeps _).grows.bind fun _ => (statics_keeps _).grows) x
    · exact (statics_keeps _ _).errors.trans (errors_scoped (statics _) _)
  · rename_i name ms ss
    have opened := (methods_keeps ms (openClass name before).2).outline
    refine .opened _ _ _ (declared_grows _ false (Keeps.pure ()) _) opened
      finished_this rfl (fun x => ?_) (errors_scoped (statics _) _)
    exact binds_innermost (statics _) opened (.refl _) (statics_keeps _).grows x
  -- Lists of statements.
  · exact .along (.refl _) (statements_grows _ _ _) rfl
  · exact .along (statement_grows _ _ _) (.refl _) rfl
  -- Variables: the first value stands behind the declaration and in front of the definition.
  · exact .declared _ _ _ rfl rfl rfl ((define_grows _ _).trans (declarators_grows _ _ _)) rfl
  · exact .along (declarator_grows _ _ _) (.refl _) rfl
  -- The body of a function, in the scope of its parameters.
  · rename_i params body
    obtain ⟨s, outline, finished⟩ := openBody_outline params before
    refine .opened before s _ (.refl _) outline finished rfl (fun x => ?_) (errors_scoped _ _)
    exact binds_innermost (Resolve.statements place body) outline (.refl _) (statements_grows _ _) x
  -- Methods and static ones.
  · exact .along (.refl _) (methods_keeps _ _).grows rfl
  · exact .along (function_keeps _ _ _).grows (.refl _) rfl
  · exact .along (.refl _) (statics_keeps _ _).grows rfl
  · exact .along (function_keeps _ _ _).grows (.refl _) rfl
  -- There is no part of that number.
  · exact .along (.refl _) (.refl _) rfl

/-- Faults that are found in a part are found in the program. -/
theorem errors_of_within {program : List Stmt} {p : Site} (h : Within program p) :
    p.after.errors <+: (Resolution.ofProgram program).2.errors := by
  induction h with
  | root => exact List.prefix_rfl
  | @child p i _ ih =>
    have errors : (p.child i).after.errors <+: p.after.errors := by
      cases step p i with
      | along _ rest => exact rest.errors
      | opened _ _ _ _ _ _ _ _ errors => exact errors
      | declared _ _ _ _ _ _ rest => exact rest.errors
    exact errors.trans ih

/-- No fault is found in a part of a program without faults. -/
theorem errors_after {program : List Stmt} (accepted : (Resolution.ofProgram program).2.errors = [])
    {p : Site} (h : Within program p) : p.after.errors = [] :=
  List.prefix_nil.mp (accepted ▸ errors_of_within h)

/-! What is unfinished -/

/-- The site lies in the initializer of a variable of this name that is bound `d` scopes outward. -/
def Initializing (program : List Stmt) (p : Site) (x : String) (d : Nat) : Prop :=
  ∃ q name initial ds, Within program q ∧ q.part = .declarators (⟨name, some initial⟩ :: ds) ∧
    name.lexeme = x ∧ Below (q.child 0) p ∧ q.before.scopes.length + d = p.before.scopes.length

theorem Initializing.child {program : List Stmt} {p : Site} {x : String} {d k : Nat} {i : Nat}
    (h : Initializing program p x d)
    (length : (p.child i).before.outline.length = p.before.outline.length + k) :
    Initializing program (p.child i) x (d + k) := by
  obtain ⟨q, name, initial, ds, within, part, same, below, distance⟩ := h
  refine ⟨q, name, initial, ds, within, part, same, .child i below, ?_⟩
  rw [Resolution.length_outline, Resolution.length_outline] at length
  omega

/-- The walk finds a name unfinished only in the initializer of that name. -/
theorem initializing_of_unfinished {program : List Stmt} {p : Site} (h : Within program p) :
    ∀ {d : Nat} {s : Bindings Bool} {x : String}, p.before.outline[d]? = some s →
      s.find? x = some false → Initializing program p x d := by
  -- By induction on the way to the site: a step opens a scope, declares a variable or leaves both as they were.
  induction h with
  | root => intro d s x open_; cases open_
  | @child p i within ih =>
    intro d s x isOpen unfinished
    cases step p i with
    | along first =>
      obtain ⟨s', isOpen, unfinished⟩ := first.unfinished_at isOpen unfinished
      exact (ih isOpen unfinished).child (k := 0) first.length
    | opened r s' c around outline finished =>
      rw [outline] at isOpen
      cases d with
      | zero =>
        cases isOpen
        -- A scope has only finished names when it is opened.
        exact (finished x unfinished).elim
      | succ d =>
        obtain ⟨s', isOpen, unfinished⟩ := around.unfinished_at isOpen unfinished
        refine (ih isOpen unfinished).child ?_
        rw [outline, List.length_cons, around.length]
    | declared name initial ds part first outline =>
      rw [outline_declare] at outline
      cases around : p.before.outline with
      | nil =>
        rw [outline, around] at isOpen
        cases isOpen
      | cons t ts =>
        rw [around] at outline
        have length : (p.child i).before.outline.length = p.before.outline.length + 0 := by
          rw [outline, around]
          rfl
        rw [outline] at isOpen
        cases d with
        | zero =>
          cases isOpen
          rw [find?_declareIn] at unfinished
          split at unfinished
          -- Either the name is the one just declared, or it was unfinished before.
          · rename_i same
            rw [Resolution.length_outline, Resolution.length_outline] at length
            exact ⟨p, name, initial, ds, within, part, same, first ▸ .refl, length.symm⟩
          · exact (ih (by rw [around]; rfl) unfinished).child (k := 0) length
        | succ d => exact (ih (by rw [around]; exact isOpen) unfinished).child (k := 0) length

/-- Only a lambda leads out of the expressions and out of the open scopes. -/
theorem child_of_expression {p : Site} (h : p.part.IsExpression) (i : Nat) :
    (∃ code, p.part = .expression (.lambda code)) ∨
      (p.child i).part.IsExpression ∧ Resolution.Keeps p.before (p.child i).before := by
  obtain ⟨part, place, before, closing⟩ := p
  unfold child
  dsimp only
  split
  all_goals first
    | exact h.elim
    | exact .inl ⟨_, rfl⟩
    | exact .inr ⟨h, .refl _⟩
    | exact .inr ⟨trivial, .refl _⟩
    | exact .inr ⟨trivial, expression_keeps _ _ _⟩
    | exact .inr ⟨trivial, (expression_keeps _ _ _).trans (expression_keeps _ _ _)⟩

/-- The second site lies in a lambda that belongs to the first one. -/
def InLambda (p q : Site) : Prop :=
  ∃ l code, Below p l ∧ l.part = .expression (.lambda code) ∧ Below l q

/-- What belongs to an expression stands in the same open scopes or in a lambda. -/
theorem inLambda_of_below {p q : Site} (h : p.part.IsExpression) (below : Below p q) :
    (q.part.IsExpression ∧ q.before.outline = p.before.outline) ∨ InLambda p q := by
  induction below with
  | refl => exact .inl ⟨h, rfl⟩
  | @child q i below ih =>
    rcases ih with ⟨expression, same⟩ | ⟨l, code, outside, lambda, inside⟩
    · rcases child_of_expression expression i with ⟨code, lambda⟩ | ⟨expression, keeps⟩
      · exact .inr ⟨q, code, below, lambda, .child i .refl⟩
      · exact .inl ⟨expression, keeps.outline.trans same⟩
    · exact .inr ⟨l, code, outside, lambda, .child i inside⟩

/-! The names that occur -/

/-- A name occurs at the site, with the distance that the walk gives it. -/
def Names (p : Site) (name : Token) (depth : Option Nat) : Prop :=
  p.resolved = .expression (.variable name depth) ∨
    p.resolved = .expression (.this name depth) ∨
      ∃ value, p.resolved = .expression (.assign name value depth)

/-- The name occurs in the initializer of the very variable it stands for, which is bound `d`
scopes outward: as what is assigned, or in a lambda. -/
def InOwnInitializer (program : List Stmt) (p : Site) (x : String) (d : Nat) : Prop :=
  ∃ q name initial ds, Within program q ∧ q.part = .declarators (⟨name, some initial⟩ :: ds) ∧
    name.lexeme = x ∧ Below (q.child 0) p ∧ q.before.scopes.length + d = p.before.scopes.length ∧
      ((∃ target value depth, p.part = .expression (.assign target value depth)) ∨
        InLambda (q.child 0) p)

theorem distance?_eq (x : String) (r : Resolution) :
    distance? x r.scopes = r.outline.findIdx? (Bindings.binds x) := by
  rw [distance?, Resolution.outline, List.findIdx?_map]
  congr 1
  funext ls
  exact (Locals.binds_outline x ls).symm

/-- An expression adds nothing to the open scopes, so that behind it a name has the distance it had. -/
theorem distance?_behind (place : Surroundings) (e : Expr) (r : Resolution) (x : String) :
    distance? x (expression place e r).2.scopes = distance? x r.scopes := by
  rw [distance?_eq, (expression_keeps place e r).outline, ← distance?_eq]

/-- A distance leads to the nearest scope that binds the name. -/
theorem open_of_distance {x : String} {r : Resolution} {d : Nat}
    (h : distance? x r.scopes = some d) :
    ∃ s, r.outline[d]? = some s ∧ s.binds x ∧
      ∀ i s', i < d → r.outline[i]? = some s' → ¬ s'.binds x := by
  rw [distance?_eq, List.findIdx?_eq_some_iff_getElem] at h
  obtain ⟨lt, binds, nearest⟩ := h
  refine ⟨r.outline[d], List.getElem?_eq_getElem lt, binds, fun i s' less isOpen bound => ?_⟩
  obtain ⟨lt', rfl⟩ := List.getElem?_eq_some_iff.mp isOpen
  exact nearest i less bound

theorem locateRead_distance (name : Token) (r : Resolution) :
    (locateRead name r).1 = distance? name.lexeme r.scopes := by
  unfold locateRead locate
  simp only [bind, StateT.bind, get, getThe, MonadStateOf.get, StateT.get, pure]
  cases distance? name.lexeme r.scopes <;> rfl

/-- Reading a name gives it the distance to the nearest scope that binds it. -/
theorem resolved_variable (place : Surroundings) (name : Token) (depth : Option Nat)
    (r : Resolution) : (expression place (.variable name depth) r).1 =
      .variable name (distance? name.lexeme r.scopes) := by
  have scopes : (checkDefined name r).2.scopes = r.scopes := by
    rw [checkDefined_eq]
    split <;> rfl
  show Expr.variable name (locateRead name (checkDefined name r).2).1 = _
  rw [locateRead_distance, scopes]

/-- Assigning a name gives it the distance it has before the value. -/
theorem resolved_assign (place : Surroundings) (name : Token) (value : Expr) (depth : Option Nat)
    (r : Resolution) : (expression place (.assign name value depth) r).1 =
      .assign name (expression place value r).1 (distance? name.lexeme r.scopes) := by
  rw [← distance?_behind place value r]
  rfl

/-- Reading a name that is unfinished in the innermost scope is a fault. -/
theorem errors_of_unfinished {p : Site} {name : Token} {depth : Option Nat}
    (part : p.part = .expression (.variable name depth))
    (unfinished : p.before.top.find? name.lexeme = some false) : p.after.errors ≠ [] := by
  obtain ⟨_, place, before, closing⟩ := p
  cases part
  have reported : (checkDefined name before).2.errors =
      before.errors ++ [⟨.ownInitializer, name⟩] := by
    rw [checkDefined_eq, if_pos unfinished]
    rfl
  have errors : (checkDefined name before).2.errors <+: (locateRead name _).2.errors :=
    (locateRead_keeps name (checkDefined name before).2).errors
  show (locateRead name (checkDefined name before).2).2.errors ≠ []
  intro nothing
  rw [reported, nothing] at errors
  simp at errors

/-- A name occurs in an expression that reads or assigns it. -/
def Uses (p : Site) (name : Token) : Prop :=
  (∃ depth, p.part = .expression (.variable name depth)) ∨
    ∃ value depth, p.part = .expression (.assign name value depth)

/-- What a name stands for has its declaration behind it, or the name occurs in that declaration. -/
theorem finished_or_initializing {program : List Stmt}
    (accepted : (Resolution.ofProgram program).2.errors = []) {p : Site} (h : Within program p)
    {name : Token} {d : Nat} (uses : Uses p name)
    (found : distance? name.lexeme p.before.scopes = some d) :
    ∃ s, p.before.outline[d]? = some s ∧
      (s.find? name.lexeme = some true ∨ InOwnInitializer program p name.lexeme d) := by
  obtain ⟨s, isOpen, binds, _⟩ := open_of_distance found
  refine ⟨s, isOpen, ?_⟩
  obtain ⟨finished, bound⟩ := Option.isSome_iff_exists.mp binds
  cases finished with
  | true => exact .inl bound
  | false =>
    obtain ⟨q, name', initial, ds, within, part, same, below, distance⟩ :=
      initializing_of_unfinished h isOpen bound
    refine .inr ⟨q, name', initial, ds, within, part, same, below, distance, ?_⟩
    have first : (q.child 0).part = .expression initial ∧
        (q.child 0).before.outline.length = q.before.outline.length := by
      obtain ⟨_, place, before, closing⟩ := q
      cases part
      exact ⟨rfl, length_declare name' true before⟩
    rcases inLambda_of_below (by rw [first.1]; trivial) below with ⟨_, outline⟩ | inside
    · -- no scope lies in between, so the name is unfinished in the innermost one
      rcases uses with ⟨depth, read⟩ | assigned
      · have length := first.2
        rw [← outline, Resolution.length_outline, Resolution.length_outline] at length
        obtain rfl : d = 0 := by omega
        have top : p.before.top = s := by
          rw [Resolution.top, List.headD_eq_head?_getD, List.head?_eq_getElem?, isOpen]
          rfl
        rw [← top] at bound
        exact (errors_of_unfinished read bound (errors_after accepted h)).elim
      · exact .inl ⟨name, assigned⟩
    · exact .inr inside

end Site

end LoxLang
