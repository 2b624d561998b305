import LoxLang.Proofs.Resolution.Places
/-!
Faults of scope. What is wrong at a place of a program is read off the way that leads there, by the
scopes, the methods and the functions around it (`faultsAt`): a name that its scope has already, a
variable that is read in its own initializer, a `this` without an instance, a `return` that is out of
place.

What is proved:
  1. the innermost scope of the walk has an unfinished name exactly at places in an initializer of that
     name, with no scope in between (`unfinished_iff`);
  2. the walk reports the faults at all places of a program, in its order, and nothing else
     (`faults_exact`).
-/
namespace LoxLang

/-! What is wrong at a place -/

namespace Part

/-- The function or method whose body lies in the `i`-th part of a part, if there is one. -/
def body? : Part → Nat → Option Body
  | .expression (.lambda _), 0 => some .function
  | .statement (.declareFunction _), 0 => some .function
  | .methods (f :: _), 0 => some (if f.name.lexeme = "init" then .initializer else .method)
  | .statics (_ :: _), 0 => some .static
  | _, _ => none

/-- The variable whose initializer is the `i`-th part of a part. -/
def initializes? : Part → Nat → Option String
  | .declarators (⟨name, some _⟩ :: _), 0 => some name.lexeme
  | _, _ => none

end Part

/-- The innermost function or method around a place. -/
def bodyAt (program : List Stmt) : List Nat → Body
  | [] => .program
  | i :: way => ((partAt program way).body? i).getD (bodyAt program way)

/-- The variables in whose initializers a place lies, if no scope lies in between. -/
def initializingAt (program : List Stmt) : List Nat → List String
  | [] => []
  | i :: way =>
    if ((partAt program way).opens? i).isSome then []
    else ((partAt program way).initializes? i).toList ++ initializingAt program way

/-- What is wrong with the declaration of names, one after the other, in a scope that has others. -/
def redeclarations (names : List String) : List Token → List ScopeError
  | [] => []
  | t :: ts =>
    (if names.contains t.lexeme then [⟨.redeclared, t⟩] else []) ++
      redeclarations (names ++ [t.lexeme]) ts

/-- What is wrong with the declaration of a name in the innermost of some scopes. Outside of all
scopes a name can be declared again. -/
def redeclaration (scopes : List Scope) (name : Token) : List ScopeError :=
  match scopes with
  | [] => []
  | s :: _ => redeclarations s.names [name]

structure Around where
  scopes : List Scope
  receiver : Receiver
  body : Body
  initializing : List String

/-- What there is around the place that a way leads to. -/
def aroundAt (program : List Stmt) (way : List Nat) : Around :=
  ⟨scopesAt program way, receiverAt program way, bodyAt program way, initializingAt program way⟩

/-- What is wrong with a part, without what is wrong with its own parts. -/
def Part.faults (around : Around) : Part → List ScopeError
  | .declarators (d :: _) => redeclaration around.scopes d.name
  | .statement (.declareFunction code) => redeclaration around.scopes code.name
  | .statement (.declareClass name _ _) => redeclaration around.scopes name
  | .function ⟨_, params, _⟩ => redeclarations [] params
  | .expression (.variable name _) =>
    if around.scopes ≠ [] ∧ name.lexeme ∈ around.initializing then [⟨.ownInitializer, name⟩] else []
  | .expression (.this keyword _) =>
    match around.receiver with
    | .none => [⟨.thisOutsideClass, keyword⟩]
    | .static => [⟨.thisInStatic, keyword⟩]
    | .object => []
  | .statement (.returns keyword none) =>
    if around.body = .program then [⟨.returnOutsideFunction, keyword⟩] else []
  | .statement (.returns keyword (some _)) =>
    if around.body = .program then [⟨.returnOutsideFunction, keyword⟩]
    else if around.body = .initializer then [⟨.returnFromInitializer, keyword⟩]
    else []
  | _ => []

/-- What is wrong at a place, without what is wrong with the parts of what stands there. -/
def faultsAt (program : List Stmt) (way : List Nat) : List ScopeError :=
  (partAt program way).faults (aroundAt program way)

/-! Unfinished names -/

namespace Part

def IsInner : Part → Prop
  | .expression _ => True
  | .expressions _ => True
  | .function _ => True
  | _ => False

/-- What belongs to an expression stands in the same open scopes, up to the body of a function. -/
theorem inner_child {p : Site} (h : p.part.IsInner) {i : Nat} (closed : p.part.opens? i = none) :
    (p.child i).part.IsInner ∧ Resolution.Keeps p.before (p.child i).before := by
  obtain ⟨part, place, before, closing⟩ := p
  unfold Site.child
  dsimp only
  split
  all_goals first
    | exact h.elim
    | exact ⟨h, .refl _⟩
    | exact ⟨trivial, .refl _⟩
    | exact ⟨trivial, Resolve.expression_keeps _ _ _⟩
    | exact ⟨trivial, (Resolve.expression_keeps _ _ _).trans (Resolve.expression_keeps _ _ _)⟩
    | cases closed

end Part

namespace Site

open Resolve

/-- What the walk comes to when it opens a scope is finished. -/
theorem finished_of_opens {p : Site} {i : Nat} {s : Scope} (opens : p.part.opens? i = some s)
    (x : String) : (p.child i).before.top.find? x ≠ some false := by
  obtain ⟨part, place, before, closing⟩ := p
  dsimp only at opens
  unfold Part.opens? at opens
  split at opens
  · exact nofun
  · exact finished_this x
  · rename_i name ms ss
    have opened := (methods_keeps ms (openClass name before).2).outline
    show (Resolution.top (methods ms (openClass name before).2).2).find? x ≠ some false
    rw [Resolution.top, opened]
    exact finished_this x
  · rename_i params body
    obtain ⟨s, outline, finished⟩ := openBody_outline params before
    show (Resolution.top (openBody params before).2).find? x ≠ some false
    rw [Resolution.top, outline]
    exact finished x
  · cases opens

/-- Where nothing is unfinished, a variable is what the walk leaves unfinished first. -/
theorem finished_child {p : Site} (finished : ∀ x, p.before.top.find? x ≠ some false) {i : Nat}
    (other : p.part.initializes? i = none) (x : String) :
    (p.child i).before.top.find? x ≠ some false := by
  cases step p i with
  | along first => exact fun unfinished => finished x (first.unfinished x unfinished)
  | opened r s c around outline closed =>
    rw [Resolution.top, outline]
    exact closed x
  | declared name initial ds part child =>
    obtain ⟨_, place, before, closing⟩ := p
    cases part
    rcases i with _ | _ | i
    · cases other
    · cases child
    · cases child

/-- The site has these names for those of variables in whose initializers it lies. -/
structure Unfinished (p : Site) (names : List String) : Prop where
  inner : names ≠ [] → p.part.IsInner
  iff (x : String) : p.before.top.find? x = some false ↔ p.before.outline ≠ [] ∧ x ∈ names

theorem Unfinished.finished {p : Site} (h : p.Unfinished []) (x : String) :
    p.before.top.find? x ≠ some false := fun unfinished =>
  List.not_mem_nil ((h.iff x).mp unfinished).2

theorem unfinished_nil {p : Site} (finished : ∀ x, p.before.top.find? x ≠ some false) :
    p.Unfinished [] where
  inner none := (none rfl).elim
  iff x := ⟨fun unfinished => (finished x unfinished).elim, fun h => (List.not_mem_nil h.2).elim⟩

/-- The initializer of a variable begins where the walk has bound the variable. -/
theorem Unfinished.declared {p : Site} (h : p.Unfinished []) {i : Nat} {name : String}
    (initializes : p.part.initializes? i = some name) : (p.child i).Unfinished [name] := by
  obtain ⟨part, place, before, closing⟩ := p
  dsimp only at initializes
  unfold Part.initializes? at initializes
  split at initializes
  · rename_i token initial ds
    cases initializes
    refine ⟨fun _ => trivial, fun x => ?_⟩
    have outline := outline_declare token true before
    have finished := h.finished x
    show (declare token true before).2.top.find? x = some false ↔
      (declare token true before).2.outline ≠ [] ∧ x ∈ [token.lexeme]
    rw [Resolution.top, outline]
    dsimp only [Resolution.top] at finished
    cases scopes : before.outline with
    | nil => simp [Bindings.find?]
    | cons s outer =>
      rw [scopes] at finished
      show (declareIn token.lexeme s).find? x = some false ↔ _
      rw [find?_declareIn, List.mem_singleton]
      by_cases same : token.lexeme = x
      · simp [same]
      · simpa [same, Ne.symm same] using finished
  · cases initializes

/-- One step of a way: the body of a function is no part of an initializer, other parts are if what
they belong to is. -/
theorem Unfinished.child {p : Site} {names : List String} (h : p.Unfinished names) (i : Nat) :
    (p.child i).Unfinished (if (p.part.opens? i).isSome then []
      else (p.part.initializes? i).toList ++ names) := by
  cases opens : p.part.opens? i with
  | some s => exact unfinished_nil (finished_of_opens opens)
  | none =>
    show (p.child i).Unfinished ((p.part.initializes? i).toList ++ names)
    cases none_or : names with
    | nil =>
      subst none_or
      cases initializes : p.part.initializes? i with
      | some name => exact h.declared initializes
      | none => exact unfinished_nil (finished_child h.finished initializes)
    | cons x xs =>
      -- Within an initializer nothing else is declared in the same scope.
      obtain ⟨inner, keeps⟩ := Part.inner_child (h.inner (none_or ▸ List.cons_ne_nil x xs)) opens
      have none : p.part.initializes? i = none := by
        have inside := h.inner (none_or ▸ List.cons_ne_nil x xs)
        unfold Part.initializes?
        split
        · rename_i part
          rw [part] at inside
          exact inside.elim
        · rfl
      rw [none, ← none_or]
      refine ⟨fun _ => inner, fun y => ?_⟩
      rw [Resolution.top, keeps.outline]
      exact h.iff y

end Site

section

variable {program : List Stmt}

theorem unfinished_siteAt (program : List Stmt) : ∀ way : List Nat,
    (siteAt program way).Unfinished (initializingAt program way)
  | [] => Site.unfinished_nil fun _ => nofun
  | i :: way => by
    rw [initializingAt, partAt_eq]
    exact (unfinished_siteAt program way).child i

/-- The innermost scope of the walk has an unfinished name in the initializer of that name only. -/
theorem unfinished_iff (proper : Stmt.AllProper program) (way : List Nat) (x : String) :
    (siteAt program way).before.top.find? x = some false ↔
      scopesAt program way ≠ [] ∧ x ∈ initializingAt program way := by
  rw [(unfinished_siteAt program way).iff x, ne_eq, ne_eq, ← List.length_eq_zero_iff,
    ← List.length_eq_zero_iff, (mirrors_scopesAt proper way).length_eq]

theorem methodBody_eq (name : Token) : Resolve.methodBody name =
    if name.lexeme = "init" then .initializer else .method := by
  simp only [Resolve.methodBody, beq_iff_eq]

theorem body_child (p : Site) (i : Nat) :
    (p.child i).place.body = (p.part.body? i).getD p.place.body := by
  obtain ⟨part, place, before, closing⟩ := p
  unfold Site.child
  dsimp only
  split
  all_goals first
    | rfl
    | exact methodBody_eq _
    | unfold Part.body?
      split
      all_goals first | rfl | exfalso; solve_by_elim

theorem bodyAt_eq (program : List Stmt) : ∀ way : List Nat,
    bodyAt program way = (siteAt program way).place.body
  | [] => rfl
  | i :: way => by
    show ((partAt program way).body? i).getD _ = _
    rw [partAt_eq program way, bodyAt_eq program way]
    exact (body_child _ i).symm

end

/-! What single steps of the walk report -/

namespace Resolve

theorem errors_declare_eq (name : Token) (tracked : Bool) {r : Resolution} {scopes : List Scope}
    (mirrors : Mirrors scopes r.outline) :
    (declare name tracked r).2.errors = r.errors ++ redeclaration scopes name := by
  obtain ⟨open_, errors, warnings⟩ := r
  cases open_ with
  | nil =>
    cases mirrors
    exact (List.append_nil errors).symm
  | cons ls outer =>
    cases mirrors with
    | @cons s _ _ _ same _ =>
      have bound : s.names.contains name.lexeme = ls.binds name.lexeme :=
        (same name.lexeme).trans (Locals.binds_outline name.lexeme ls)
      simp only [redeclaration, redeclarations, bound, List.append_nil]
      show (if ls.binds name.lexeme then _ else _ : Resolution).errors = _
      split
      · rfl
      · exact (List.append_nil errors).symm

theorem errors_declareParams : ∀ (params : List Token) {r : Resolution} {names : List String}
    {outer : List Scope}, Mirrors (⟨names, false⟩ :: outer) r.outline →
      (declareParams params r).2.errors = r.errors ++ redeclarations names params
  | [], r, _, _, _ => (List.append_nil r.errors).symm
  | p :: ps, r, names, outer, mirrors => by
    have declared := errors_declare_eq p false mirrors
    have bound : Mirrors (⟨names ++ [p.lexeme], false⟩ :: outer)
        (define p (declare p false r).2).2.outline :=
      declared_introduces p false (Keeps.pure ()) r _ mirrors
    have rest := errors_declareParams ps bound
    rw [errors_define, declared, List.append_assoc] at rest
    simp only [redeclaration, redeclarations, List.append_nil] at rest
    exact rest

theorem errors_checkDefined (name : Token) (r : Resolution) : (checkDefined name r).2.errors =
    r.errors ++ if r.top.find? name.lexeme = some false then [⟨.ownInitializer, name⟩] else [] := by
  rw [checkDefined_eq]
  split
  · rfl
  · exact (List.append_nil r.errors).symm

theorem errors_checkReturn (body : Body) (keyword : Token) (r : Resolution) :
    (checkReturn body keyword r).2.errors =
      r.errors ++ if body = .program then [⟨.returnOutsideFunction, keyword⟩] else [] := by
  unfold checkReturn
  split
  · rfl
  · exact (List.append_nil r.errors).symm

theorem errors_checkReturnValue (body : Body) (keyword : Token) (r : Resolution) :
    (checkReturnValue body keyword r).2.errors =
      r.errors ++ if body = .initializer then [⟨.returnFromInitializer, keyword⟩] else [] := by
  unfold checkReturnValue
  split
  · rfl
  · exact (List.append_nil r.errors).symm

end Resolve

/-! What the walk reports -/

/-- Between the two states the walk reported the faults at places in the part that a way leads to. -/
def Reports (program : List Stmt) (way : List Nat) (ways : List (List Nat))
    (r r' : Resolution) : Prop :=
  r'.errors = r.errors ++ ways.flatMap fun w => faultsAt program (w ++ way)

namespace Reports

variable {program : List Stmt} {way : List Nat} {ways ways' : List (List Nat)}
  {r r' r'' : Resolution}

theorem nothing (same : r'.errors = r.errors) : Reports program way [] r r' :=
  same.trans (List.append_nil _).symm

theorem append (h : Reports program way ways r r') (h' : Reports program way ways' r' r'') :
    Reports program way (ways ++ ways') r r'' := by
  rw [Reports, h', h, List.flatMap_append, List.append_assoc]

theorem under {i : Nat} (h : Reports program (i :: way) ways r r') :
    Reports program way (under i ways) r r' := by
  rw [Reports, h, LoxLang.under, List.flatMap_map]
  simp only [List.append_assoc, List.singleton_append]

/-- What is wrong with a part comes before what is wrong with its parts. -/
theorem own {p : Site} (site : siteAt program way = p)
    (h : r'.errors = r.errors ++ p.part.faults (aroundAt program way))
    (h' : Reports program way ways r' r'') : Reports program way ([] :: ways) r r'' := by
  have here : faultsAt program way = p.part.faults (aroundAt program way) := by
    rw [faultsAt, partAt_eq, site]
  rw [Reports, h', h, List.flatMap_cons, List.nil_append, here, List.append_assoc]

theorem silent {p : Site} (site : siteAt program way = p)
    (quiet : ∀ around, p.part.faults around = []) (h : Reports program way ways r r') :
    Reports program way ([] :: ways) r r' :=
  own site (by rw [quiet, List.append_nil]) h

theorem closed (h : Reports program way ways r r') :
    Reports program way ways r (Resolve.closeScope r').2 :=
  (Resolve.errors_closeScope r').trans h

end Reports

namespace Site

theorem at_child {program : List Stmt} {way : List Nat} {p : Site} (site : siteAt program way = p)
    (i : Nat) : siteAt program (i :: way) = p.child i := congrArg (·.child i) site

end Site

section

open Resolve Site

variable {program : List Stmt}

theorem at_declarators {way : List Nat} {d : Declarator} {ds : List Declarator}
    {place : Surroundings} {before : Resolution} {closing : List Locals}
    (site : siteAt program way = ⟨.declarators (d :: ds), place, before, closing⟩) :
    siteAt program (1 :: way) =
      ⟨.declarators ds, place, (declarator place d before).2, closing⟩ := by
  rw [at_child site 1]
  obtain ⟨name, initial⟩ := d
  cases initial <;> rfl

theorem variable_reports (proper : Stmt.AllProper program) {way : List Nat} {name : Token}
    {depth : Option Nat} {place : Surroundings} {before : Resolution} {closing : List Locals}
    (site : siteAt program way = ⟨.expression (.variable name depth), place, before, closing⟩) :
    Reports program way [[]] before (expression place (.variable name depth) before).2 := by
  refine .own site ?_ (.nothing (errors_locateRead name (checkDefined name before).2))
  have unfinished := unfinished_iff proper way name.lexeme
  rw [site] at unfinished
  rw [errors_checkDefined, if_congr unfinished rfl rfl]
  rfl

theorem this_reports {way : List Nat} {keyword : Token} {depth : Option Nat} {place : Surroundings}
    {before : Resolution} {closing : List Locals}
    (site : siteAt program way = ⟨.expression (.this keyword depth), place, before, closing⟩) :
    Reports program way [[]] before (expression place (.this keyword depth) before).2 := by
  refine .own site ?_ (.nothing rfl)
  have receiver := receiverAt_eq program way
  rw [site] at receiver
  obtain ⟨body, receiver'⟩ := place
  show _ = before.errors ++ match receiverAt program way with
    | .none => [⟨.thisOutsideClass, keyword⟩]
    | .static => [⟨.thisInStatic, keyword⟩]
    | .object => []
  rw [receiver]
  cases receiver' with
  | object => exact (List.append_nil before.errors).symm
  | _ => rfl

/-- The name that a declaration begins with is reported if its scope has it. -/
theorem declare_reports (proper : Stmt.AllProper program) {p : Site} {way : List Nat} {name : Token}
    (tracked : Bool) (site : siteAt program way = p)
    (own : p.part.faults (aroundAt program way) = redeclaration (scopesAt program way) name) :
    (declare name tracked p.before).2.errors =
      p.before.errors ++ p.part.faults (aroundAt program way) := by
  have mirrors := mirrors_scopesAt proper way
  rw [site] at mirrors
  rw [own]
  exact errors_declare_eq name tracked mirrors

mutual

/-- The walk over an expression reports the faults at the places in it. -/
theorem expression_reports (proper : Stmt.AllProper program) : ∀ (e : Expr) {way : List Nat}
    {place : Surroundings} {before : Resolution} {closing : List Locals},
    siteAt program way = ⟨.expression e, place, before, closing⟩ →
      Reports program way e.places before (expression place e before).2
  | .literal _, _, _, _, _, site => .silent site (fun _ => rfl) (.nothing rfl)
  | .group inner, _, _, _, _, site =>
    .silent site (fun _ => rfl) (expression_reports proper inner (at_child site 0)).under
  | .unary _ right, _, _, _, _, site =>
    .silent site (fun _ => rfl) (expression_reports proper right (at_child site 0)).under
  | .binary left _ right, _, _, _, _, site =>
    .silent site (fun _ => rfl) ((expression_reports proper left (at_child site 0)).under.append
      (expression_reports proper right (at_child site 1)).under)
  | .logical left _ right, _, _, _, _, site =>
    .silent site (fun _ => rfl) ((expression_reports proper left (at_child site 0)).under.append
      (expression_reports proper right (at_child site 1)).under)
  | .ternary condition whenTrue whenFalse, _, _, _, _, site =>
    .silent site (fun _ => rfl) ((expression_reports proper condition (at_child site 0)).under.append
      ((expression_reports proper whenTrue (at_child site 1)).under.append
        (expression_reports proper whenFalse (at_child site 2)).under))
  | .variable _ _, _, _, _, _, site => variable_reports proper site
  | .this _ _, _, _, _, _, site => this_reports site
  | .assign _ value _, _, _, _, _, site =>
    .silent site (fun _ => rfl) (expression_reports proper value (at_child site 0)).under
  | .call callee _ arguments, _, _, _, _, site =>
    .silent site (fun _ => rfl) ((expression_reports proper callee (at_child site 0)).under.append
      (expressions_reports proper arguments (at_child site 1)).under)
  | .property object _, _, _, _, _, site =>
    .silent site (fun _ => rfl) (expression_reports proper object (at_child site 0)).under
  | .setProperty object _ value, _, _, _, _, site =>
    .silent site (fun _ => rfl) ((expression_reports proper value (at_child site 1)).under.append
      (expression_reports proper object (at_child site 0)).under)
  | .lambda code, _, _, _, _, site =>
    .silent site (fun _ => rfl) (function_reports proper code (at_child site 0)).under

theorem expressions_reports (proper : Stmt.AllProper program) : ∀ (es : List Expr) {way : List Nat}
    {place : Surroundings} {before : Resolution} {closing : List Locals},
    siteAt program way = ⟨.expressions es, place, before, closing⟩ →
      Reports program way (Expr.placesAll es) before (expressions place es before).2
  | [], _, _, _, _, site => .silent site (fun _ => rfl) (.nothing rfl)
  | e :: es, _, _, _, _, site =>
    .silent site (fun _ => rfl) ((expression_reports proper e (at_child site 0)).under.append
      (expressions_reports proper es (at_child site 1)).under)

/-- The walk over a statement reports the faults at the places in it. -/
theorem statement_reports (proper : Stmt.AllProper program) : ∀ (s : Stmt) {way : List Nat}
    {place : Surroundings} {before : Resolution} {closing : List Locals},
    siteAt program way = ⟨.statement s, place, before, closing⟩ →
      Reports program way s.places before (statement place s before).2
  | .expression value, _, _, _, _, site =>
    .silent site (fun _ => rfl) (expression_reports proper value (at_child site 0)).under
  | .print value, _, _, _, _, site =>
    .silent site (fun _ => rfl) (expression_reports proper value (at_child site 0)).under
  | .declare d, way, place, before, closing, site => by
    have inside : siteAt program (0 :: way) = ⟨.declarators [d], place, before, closing⟩ :=
      at_child site 0
    -- A declaration alone is a list of one, behind which there is nothing to report.
    have ends : Reports program (1 :: 0 :: way) [[]] (declarator place d before).2
        (declarator place d before).2 :=
      .silent (at_declarators inside) (fun _ => rfl) (.nothing rfl)
    exact .silent site (fun _ => rfl) (declarator_reports proper d inside ends.under).under
  | .declareAll ds, _, _, _, _, site =>
    .silent site (fun _ => rfl) (declarators_reports proper ds (at_child site 0)).under
  | .block body, _, _, _, _, site =>
    .silent site (fun _ => rfl) (statements_reports proper body (at_child site 0)).closed.under
  | .conditional condition whenTrue none, _, _, _, _, site =>
    .silent site (fun _ => rfl) ((expression_reports proper condition (at_child site 0)).under.append
      (statement_reports proper whenTrue (at_child site 1)).under)
  | .conditional condition whenTrue (some whenFalse), _, _, _, _, site =>
    .silent site (fun _ => rfl) ((expression_reports proper condition (at_child site 0)).under.append
      ((statement_reports proper whenTrue (at_child site 1)).under.append
        (statement_reports proper whenFalse (at_child site 2)).under))
  | .loop condition body, _, _, _, _, site =>
    .silent site (fun _ => rfl) ((expression_reports proper condition (at_child site 0)).under.append
      (statement_reports proper body (at_child site 1)).under)
  | .declareFunction code, way, place, before, _, site => by
    have declared := declare_reports proper false site rfl
    refine .own site ?_ (function_reports proper code (at_child site 0)).under
    exact (errors_define code.name (declare code.name false before).2).trans declared
  | .returns keyword none, way, place, before, _, site => by
    refine .own site ?_ (.nothing rfl)
    have body := bodyAt_eq program way
    rw [site] at body
    show (checkReturn place.body keyword before).2.errors = before.errors ++
      if bodyAt program way = .program then [⟨.returnOutsideFunction, keyword⟩] else []
    rw [body, errors_checkReturn]
  | .returns keyword (some value), way, place, before, _, site => by
    refine .own site ?_ (expression_reports proper value (at_child site 0)).under
    have body := bodyAt_eq program way
    rw [site] at body
    show (checkReturnValue place.body keyword (checkReturn place.body keyword before).2).2.errors =
      before.errors ++
        if bodyAt program way = .program then [⟨.returnOutsideFunction, keyword⟩]
        else if bodyAt program way = .initializer then [⟨.returnFromInitializer, keyword⟩]
        else []
    -- One `return` is no two faults: the body of a program is not that of an initializer.
    rw [body, errors_checkReturnValue, errors_checkReturn, List.append_assoc]
    cases place.body <;> rfl
  | .declareClass name ms ss, way, place, before, _, site => by
    have declared := declare_reports proper false site rfl
    refine .own site ?_ ((methods_reports proper ms (at_child site 0)).under.append
      (statics_reports proper ss (at_child site 1)).closed.under)
    exact (errors_define name (declare name false before).2).trans declared

theorem statements_reports (proper : Stmt.AllProper program) : ∀ (ss : List Stmt) {way : List Nat}
    {place : Surroundings} {before : Resolution} {closing : List Locals},
    siteAt program way = ⟨.statements ss, place, before, closing⟩ →
      Reports program way (Stmt.placesAll ss) before (statements place ss before).2
  | [], _, _, _, _, site => .silent site (fun _ => rfl) (.nothing rfl)
  | s :: ss, _, _, _, _, site =>
    .silent site (fun _ => rfl) ((statement_reports proper s (at_child site 0)).under.append
      (statements_reports proper ss (at_child site 1)).under)

/-- The first of some declarators, and what the walk reports behind it. -/
theorem declarator_reports (proper : Stmt.AllProper program) : ∀ (d : Declarator)
    {ds : List Declarator} {way : List Nat} {place : Surroundings} {before after : Resolution}
    {closing : List Locals} {ways : List (List Nat)},
    siteAt program way = ⟨.declarators (d :: ds), place, before, closing⟩ →
      Reports program way ways (declarator place d before).2 after →
        Reports program way ([] :: (d.places ++ ways)) before after
  | ⟨name, none⟩, _, _, _, before, _, _, _, site, rest => by
    have declared := declare_reports proper true site rfl
    exact .own site ((errors_define name (declare name true before).2).trans declared) rest
  | ⟨name, some initial⟩, _, _, _, _, _, _, _, site, rest => by
    have declared := declare_reports proper true site rfl
    refine .own site declared (.append ?_ rest)
    exact (errors_define name _).trans (expression_reports proper initial (at_child site 0)).under

theorem declarators_reports (proper : Stmt.AllProper program) : ∀ (ds : List Declarator)
    {way : List Nat} {place : Surroundings} {before : Resolution} {closing : List Locals},
    siteAt program way = ⟨.declarators ds, place, before, closing⟩ →
      Reports program way (Declarator.placesAll ds) before (declarators place ds before).2
  | [], _, _, _, _, site => .silent site (fun _ => rfl) (.nothing rfl)
  | d :: ds, _, _, _, _, site =>
    declarator_reports proper d site (declarators_reports proper ds (at_declarators site)).under

/-- The walk over a function reports the faults at the places in it. -/
theorem function_reports (proper : Stmt.AllProper program) : ∀ (f : Function) {way : List Nat}
    {place : Surroundings} {before : Resolution} {closing : List Locals},
    siteAt program way = ⟨.function f, place, before, closing⟩ →
      Reports program way f.places before (function place f before).2
  | ⟨name, params, body⟩, way, _, before, _, site => by
    refine .own site ?_ (statements_reports proper body (at_child site 0)).closed.under
    have mirrors := mirrors_scopesAt proper way
    rw [site] at mirrors
    have opened : Mirrors (⟨[], false⟩ :: scopesAt program way) (openScope [] before).2.outline :=
      .cons (fun _ => rfl) mirrors
    exact errors_declareParams params opened

theorem methods_reports (proper : Stmt.AllProper program) : ∀ (fs : List Function) {way : List Nat}
    {place : Surroundings} {before : Resolution} {closing : List Locals},
    siteAt program way = ⟨.methods fs, place, before, closing⟩ →
      Reports program way (Function.placesAll fs) before (methods fs before).2
  | [], _, _, _, _, site => .silent site (fun _ => rfl) (.nothing rfl)
  | f :: fs, _, _, _, _, site =>
    .silent site (fun _ => rfl) ((function_reports proper f (at_child site 0)).under.append
      (methods_reports proper fs (at_child site 1)).under)

theorem statics_reports (proper : Stmt.AllProper program) : ∀ (fs : List Function) {way : List Nat}
    {place : Surroundings} {before : Resolution} {closing : List Locals},
    siteAt program way = ⟨.statics fs, place, before, closing⟩ →
      Reports program way (Function.placesAll fs) before (statics fs before).2
  | [], _, _, _, _, site => .silent site (fun _ => rfl) (.nothing rfl)
  | f :: fs, _, _, _, _, site =>
    .silent site (fun _ => rfl) ((function_reports proper f (at_child site 0)).under.append
      (statics_reports proper fs (at_child site 1)).under)

end

end

/-- The walk over a program reports the faults at its places. -/
theorem errors_ofProgram {program : List Stmt} (proper : Stmt.AllProper program) :
    (Resolution.ofProgram program).2.errors =
      (Stmt.placesAll program).flatMap (faultsAt program) := by
  have reported : Reports program [] (Stmt.placesAll program) .empty
      (Resolution.ofProgram program).2 := statements_reports proper program rfl
  simp only [Reports, List.append_nil] at reported
  exact reported

namespace Session

/-- The walk reports exactly what is wrong at the places of a program, one place after the other in
its order. It comes by every part of the program, and by none of them twice. -/
theorem faults_exact {input : Input} {program : List Stmt} (parsed : input.parsed = .ok program) :
    (Resolution.ofProgram program).2.errors =
        (Stmt.placesAll program).flatMap (faultsAt program) ∧
      (Stmt.placesAll program).Nodup ∧ [] ∈ Stmt.placesAll program ∧
      ∀ way ∈ Stmt.placesAll program, ∀ i,
        (partAt program way).child i = partAt program way ∨ i :: way ∈ Stmt.placesAll program := by
  refine ⟨errors_ofProgram (Input.proper_of_parsed parsed), Part.nodup_places (.statements program),
    Part.nil_mem_places (.statements program), fun way mem i => ?_⟩
  by_cases more : i ∈ (partAt program way).order
  · exact .inr (@Part.places_closed (.statements program) way mem i more)
  · exact .inl (Part.child_of_not_mem _ more)

/-- Faults of all kinds. What a lambda reads in the initializer of the same variable is no fault, nor is
its `return` inside an initializer of instances, nor the `this` of a class in a static method. -/
theorem faults_exact_mixed :
    let source := "{var a=a;var a=lambda()a;}" ++
      "class C{init(x,x){return lambda(){return x;};}class s(){class D{m(){this;}}this;}}" ++
      "this;return 2;"
    let faults := [.ownInitializer, .redeclared, .redeclared, .returnFromInitializer, .thisInStatic,
      .thisOutsideClass, .returnOutsideFunction]
    ∃ program, (Input.program source).parsed = .ok program ∧
      (Resolution.ofProgram program).2.errors.map (·.fault) = faults := by
  intro source faults
  let input := Input.program source
  have checked : input.parsed.toOption.any (fun program =>
      ((Stmt.placesAll program).flatMap (faultsAt program)).map (·.fault) == faults) = true := by
    decide +kernel
  obtain ⟨program, parsed, checked⟩ := (Option.any_eq_true _ _).mp checked
  have parsed := Input.parsed_of_toOption parsed
  refine ⟨program, parsed, ?_⟩
  rw [(faults_exact parsed).1]
  exact eq_of_beq checked

end Session

end LoxLang
