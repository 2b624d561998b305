import LoxLang.Proofs.Renaming.Invariance
/-!
Lexical addressing. Where a place in a program lies is told by the way that leads to it; which
scopes enclose the place, and what each of them declares no later than the place, is read off that
way alone (`scopesAt`), and so is the kind of method the place belongs to (`receiverAt`).

What is proved: the walk over the names gives every occurrence of a name the position of the nearest
scope that declares it, and no distance where there is none; it gives `this` the position of the
class of the instance method around it, and reports it everywhere else (`lexical_addresses`). This
holds of whatever the parser makes, faults of scope or not.
-/
namespace LoxLang

/-! Scopes of a place -/

/-- A scope that encloses some place. -/
structure Scope where
  /-- The names that are declared in the scope no later than the place. -/
  names : List String
  /-- It is the body of a class. Others are blocks, and functions with parameters and body. -/
  ofClass : Bool

namespace Scope

def declares (x : String) (s : Scope) : Bool := s.names.contains x

/-- Declares names in the innermost scope; outside of all scopes they are not kept track of. -/
def declareIn (xs : List String) : List Scope → List Scope
  | [] => []
  | s :: outer => { s with names := s.names ++ xs } :: outer

end Scope

namespace Part

/-- The `i`-th part of a part, and the part itself if it has none of that number. -/
def child (part : Part) (i : Nat) : Part :=
  (Site.child ⟨part, ⟨.program, .none⟩, .empty, []⟩ i).part

/-- The names that a part declares in the scope it stands in, no later than its `i`-th part: what
stands in front of that part, or the variable, function or class that it belongs to. -/
def declaresBefore : Part → Nat → List String
  | .statements (s :: _), 1 => s.declares
  | .declarators (⟨name, some _⟩ :: _), 0 => [name.lexeme]
  | .declarators (d :: _), 1 => [d.name.lexeme]
  | .statement (.declareFunction code), 0 => [code.name.lexeme]
  | .statement (.declareClass name _ _), 0 => [name.lexeme]
  | .statement (.declareClass name _ _), 1 => [name.lexeme]
  | _, _ => []

/-- The scope that a part opens for its `i`-th part. -/
def opens? : Part → Nat → Option Scope
  | .statement (.block _), 0 => some ⟨[], false⟩
  | .statement (.declareClass ..), 0 => some ⟨[Keyword.this.word], true⟩
  | .statement (.declareClass ..), 1 => some ⟨[Keyword.this.word], true⟩
  | .function ⟨_, params, _⟩, 0 => some ⟨params.map (·.lexeme), false⟩
  | _, _ => none

/-- What `this` is in the `i`-th part of a part, if that is a method. -/
def receiver? : Part → Nat → Option Receiver
  | .methods (_ :: _), 0 => some .object
  | .statics (_ :: _), 0 => some .static
  | _, _ => none

end Part

/-- The part of a program that a way leads to; the last step stands first. -/
def partAt (program : List Stmt) (way : List Nat) : Part :=
  way.foldr (fun i part => part.child i) (.statements program)

/-- The scopes that enclose a place, the innermost first. -/
def scopesAt (program : List Stmt) : List Nat → List Scope
  | [] => []
  | i :: way =>
    ((partAt program way).opens? i).toList ++
      Scope.declareIn ((partAt program way).declaresBefore i) (scopesAt program way)

/-- What `this` is at a place, as the innermost method around it says. -/
def receiverAt (program : List Stmt) : List Nat → Receiver
  | [] => .none
  | i :: way => ((partAt program way).receiver? i).getD (receiverAt program way)

/-! Scopes of a place and open scopes of the walk -/

/-- The open scopes of the walk bind what the scopes of the place declare. -/
def Mirrors (scopes : List Scope) (outline : List (Bindings Bool)) : Prop :=
  List.Forall₂ (fun s bindings => ∀ x, s.declares x = Bindings.binds x bindings) scopes outline

theorem Mirrors.findIdx? {scopes : List Scope} {outline : List (Bindings Bool)}
    (h : Mirrors scopes outline) (x : String) :
    outline.findIdx? (Bindings.binds x) = scopes.findIdx? (Scope.declares x) := by
  induction h with
  | nil => rfl
  | cons same _ ih => rw [List.findIdx?_cons, List.findIdx?_cons, ih, same x]

namespace Scope

theorem declares_append (x : String) (names xs : List String) (ofClass : Bool) :
    declares x ⟨names ++ xs, ofClass⟩ = (declares x ⟨names, ofClass⟩ || xs.contains x) :=
  List.contains_append

theorem declares_this (x : String) : declares x ⟨[Keyword.this.word], true⟩ =
    Bindings.binds x [(Keyword.this.word, true)] := by
  simp only [declares, List.contains_cons, List.contains_nil, Bool.or_false, Bindings.binds,
    Bindings.find?]
  by_cases same : Keyword.this.word = x
  · simp [same]
  · simp [same, Ne.symm same]

theorem declareIn_nil (scopes : List Scope) : declareIn [] scopes = scopes := by
  cases scopes with
  | nil => rfl
  | cons s outer => simp [declareIn]

/-- A scope in which names were declared has the other names it had before. -/
theorem of_mem_declareIn {xs : List String} {scopes : List Scope} {s : Scope}
    (h : s ∈ declareIn xs scopes) :
    ∃ s' ∈ scopes, s.ofClass = s'.ofClass ∧ ∀ x ∉ xs, s.declares x = s'.declares x := by
  cases scopes with
  | nil => cases h
  | cons t outer =>
    rcases List.mem_cons.mp h with rfl | mem
    · refine ⟨t, List.mem_cons_self, rfl, fun x other => ?_⟩
      rw [declares_append, List.contains_eq_mem, decide_eq_false other, Bool.or_false]
    · exact ⟨s, List.mem_cons_of_mem t mem, rfl, fun _ _ => rfl⟩

theorem any_declareIn (xs : List String) (scopes : List Scope) :
    (declareIn xs scopes).any ofClass = scopes.any ofClass := by
  cases scopes <;> rfl

/-- A search asks nothing but the scopes it goes through. -/
theorem findIdx?_congr {p q : Scope → Bool} : ∀ {scopes : List Scope},
    (∀ s ∈ scopes, p s = q s) → scopes.findIdx? p = scopes.findIdx? q
  | [], _ => rfl
  | s :: outer, same => by
    rw [List.findIdx?_cons, List.findIdx?_cons, same s List.mem_cons_self,
      findIdx?_congr fun t mem => same t (List.mem_cons_of_mem s mem)]

theorem declareIn_append (xs ys : List String) (scopes : List Scope) :
    declareIn (xs ++ ys) scopes = declareIn ys (declareIn xs scopes) := by
  cases scopes with
  | nil => rfl
  | cons s outer => simp [declareIn]

end Scope

namespace Resolution

variable {r r' r'' : Resolution} {xs ys : List String}

/-- From one state to the other the innermost scope came to bind these names, some of which it may
have bound before. -/
def Introduces (xs : List String) (r r' : Resolution) : Prop :=
  ∀ scopes, Mirrors scopes r.outline → Mirrors (Scope.declareIn xs scopes) r'.outline

theorem Introduces.trans (h : Introduces xs r r') (h' : Introduces ys r' r'') :
    Introduces (xs ++ ys) r r'' := by
  intro scopes mirrors
  rw [Scope.declareIn_append]
  exact h' _ (h scopes mirrors)

theorem Keeps.introduces (h : Keeps r r') : Introduces [] r r' := by
  intro scopes mirrors
  rw [Scope.declareIn_nil, h.outline]
  exact mirrors

theorem introduces_of_binds {x : String} (tail : r'.outline.tail = r.outline.tail)
    (length : r'.outline.length = r.outline.length)
    (binds : ∀ y, r.outline ≠ [] → r'.top.binds y = (r.top.binds y || (x == y))) :
    Introduces [x] r r' := by
  intro scopes mirrors
  rw [top, top] at binds
  cases before : r.outline with
  | nil =>
    rw [before] at mirrors length
    cases mirrors
    rw [List.eq_nil_of_length_eq_zero length]
    exact .nil
  | cons s outer =>
    rw [before] at mirrors tail length binds
    cases after : r'.outline with
    | nil => simp [after] at length
    | cons s' outer' =>
      rw [after] at tail binds
      obtain rfl : outer' = outer := tail
      cases mirrors with
      | cons same rest =>
        refine .cons (fun y => ?_) rest
        have bound : Bindings.binds y s' = (Bindings.binds y s || (x == y)) := by
          exact binds y (List.cons_ne_nil _ _)
        rw [Scope.declares_append, bound, ← same y, List.contains_cons, List.contains_nil,
          Bool.or_false, BEq.comm]

end Resolution

namespace Resolve

open Resolution

variable {α : Type}

/-- A name is bound as soon as its declaration begins. -/
theorem declare_introduces (name : Token) (tracked : Bool) (r : Resolution) :
    Introduces [name.lexeme] r (declare name tracked r).2 := by
  have outline := outline_declare name tracked r
  refine introduces_of_binds ?_ (length_declare name tracked r) fun y isOpen => ?_
  · rw [outline]
    cases r.outline <;> rfl
  · rw [top, top, outline]
    cases scopes : r.outline with
    | nil => exact (isOpen scopes).elim
    | cons s ss =>
      show (Bindings.find? y (Resolve.declareIn name.lexeme s)).isSome = _
      rw [find?_declareIn]
      by_cases same : name.lexeme = y <;> simp [same, Bindings.binds]

theorem define_introduces (name : Token) (r : Resolution) : Introduces [] r (define name r).2 := by
  intro scopes mirrors
  rw [Scope.declareIn_nil, outline_define]
  cases outline : r.outline with
  | nil => rwa [outline] at mirrors
  | cons s ss =>
    rw [outline] at mirrors
    cases mirrors with
    | cons same rest =>
      refine .cons (fun y => ?_) rest
      rw [same y, Bindings.binds, Bindings.binds, Bindings.find?_mark]
      split
      · rw [Option.isSome_map]
      · rfl

/-- A declaration, with what is between its two ends, binds its name. -/
theorem declared_introduces (name : Token) (tracked : Bool) {walk : Resolve α} (h : Keeps walk)
    (r : Resolution) :
    Introduces [name.lexeme] r (define name (walk (declare name tracked r).2).2).2 :=
  ((declare_introduces name tracked r).trans (h _).introduces).trans (define_introduces name _)

theorem declareParams_introduces : ∀ (params : List Token) (r : Resolution),
    Introduces (params.map (·.lexeme)) r (declareParams params r).2
  | [], r => (Resolution.Keeps.refl r).introduces
  | p :: ps, r =>
    (declared_introduces p false (Keeps.pure ()) r).trans (declareParams_introduces ps _)

theorem declarator_introduces (place : Surroundings) : ∀ (d : Declarator) (r : Resolution),
    Introduces [d.name.lexeme] r (declarator place d r).2
  | ⟨name, none⟩, r => declared_introduces name true (Keeps.pure ()) r
  | ⟨name, some initial⟩, r => declared_introduces name true (expression_keeps place initial) r

theorem declarators_introduces (place : Surroundings) : ∀ (ds : List Declarator) (r : Resolution),
    Introduces (ds.map (·.name.lexeme)) r (declarators place ds r).2
  | [], r => (Resolution.Keeps.refl r).introduces
  | d :: ds, r => (declarator_introduces place d r).trans (declarators_introduces place ds _)

theorem statement_introduces (place : Surroundings) (s : Stmt) (proper : s.Proper)
    (r : Resolution) : Introduces s.declares r (statement place s r).2 := by
  have still (plain : s.isDeclaration = false) : Introduces [] r (statement place s r).2 :=
    (statement_keeps place s plain proper r).introduces
  cases s with
  | declare d => exact declarator_introduces place d r
  | declareAll ds =>
    have names : (Stmt.declareAll ds).declares = ds.map (·.name.lexeme) := by
      simp [Stmt.declares, Stmt.locals, Stmt.callable?]
    rw [names]
    exact declarators_introduces place ds r
  | declareFunction code =>
    exact (declared_introduces code.name false (Keeps.pure ()) r).trans
      (function_keeps ⟨.function, place.receiver⟩ code _).introduces
  | declareClass name ms ss =>
    exact (declared_introduces name false (Keeps.pure ()) r).trans
      (scoped_keeps [⟨"this", name.line, true, false, false⟩]
        ((methods_keeps ms).grows.bind fun _ => (statics_keeps ss).grows) _).introduces
  | _ => exact still rfl

end Resolve

namespace Site

open Resolve

/-- What the walk has bound in the open scopes when it comes to a part. -/
theorem mirrors_child {p : Site} (proper : p.part.Proper) {scopes : List Scope}
    (h : Mirrors scopes p.before.outline) (i : Nat) :
    Mirrors ((p.part.opens? i).toList ++ Scope.declareIn (p.part.declaresBefore i) scopes)
      (p.child i).before.outline := by
  have still {r : Resolution} (keeps : Resolution.Keeps p.before r) :
      Mirrors (Scope.declareIn [] scopes) r.outline := keeps.introduces scopes h
  obtain ⟨part, place, before, closing⟩ := p
  unfold child
  dsimp only
  split
  -- Expressions and lists of them: nothing is declared in front of a part.
  · exact still (.refl _)
  · exact still (.refl _)
  · exact still (.refl _)
  · exact still (expression_keeps _ _ _)
  · exact still (.refl _)
  · exact still (expression_keeps _ _ _)
  · exact still (.refl _)
  · exact still (expression_keeps _ _ _)
  · exact still ((expression_keeps _ _ _).trans (expression_keeps _ _ _))
  · exact still (.refl _)
  · exact still (.refl _)
  · exact still (expression_keeps _ _ _)
  · exact still (.refl _)
  · exact still (expression_keeps _ _ _)
  · exact still (.refl _)
  · exact still (.refl _)
  · exact still (.refl _)
  · exact still (expression_keeps _ _ _)
  -- Statements: what they consist of stands in the same scopes, but for the body of a block.
  · exact still (.refl _)
  · exact still (.refl _)
  · exact still (.refl _)
  · exact still (.refl _)
  · exact .cons (fun _ => rfl) (still (.refl _))
  · exact still (.refl _)
  · exact still (expression_keeps _ _ _)
  · rename_i condition whenTrue whenFalse
    have plain := statement_keeps place whenTrue proper.2.1.1 proper.2.1.2
    exact still ((expression_keeps _ _ _).trans (plain _))
  · exact still (.refl _)
  · exact still (expression_keeps _ _ _)
  -- The name of a function is declared in front of its code.
  · exact declared_introduces _ false (Keeps.pure ()) _ scopes h
  · exact still ((checkReturn_keeps _ _ _).trans (checkReturnValue_keeps _ _ _))
  -- The methods of a class and its static ones stand in the scope of `this`, behind the name.
  · exact .cons Scope.declares_this (declared_introduces _ false (Keeps.pure ()) _ scopes h)
  · rename_i name ms ss
    have opened := (methods_keeps ms (openClass name before).2).outline
    rw [opened]
    exact .cons Scope.declares_this (declared_introduces _ false (Keeps.pure ()) _ scopes h)
  -- Lists of statements and of variables, where those that come first are declared.
  · exact still (.refl _)
  · exact statement_introduces _ _ proper.1 _ scopes h
  · exact declare_introduces _ true _ scopes h
  · rename_i d ds
    have declared := declarator_introduces place d before scopes h
    obtain ⟨name, initial⟩ := d
    cases initial <;> exact declared
  -- The body of a function stands in the scope of its parameters.
  · rename_i params body
    have bound := declareParams_introduces params (openScope [] before).2 (⟨[], false⟩ :: scopes)
      (.cons (fun _ => rfl) h)
    show Mirrors (⟨params.map (·.lexeme), false⟩ :: Scope.declareIn [] scopes) _
    rw [Scope.declareIn_nil]
    exact bound
  -- Lists of methods declare nothing.
  · exact still (.refl _)
  · exact still (function_keeps _ _ _)
  · exact still (.refl _)
  · exact still (function_keeps _ _ _)
  -- A part of that number does not exist: neither is a scope opened for it, nor anything declared.
  · have closed : part.opens? i = none := by
      unfold Part.opens?
      split
      all_goals first | rfl | exfalso; solve_by_elim
    have silent : part.declaresBefore i = [] := by
      unfold Part.declaresBefore
      split
      all_goals first | rfl | exfalso; solve_by_elim
    rw [closed, silent]
    exact still (.refl _)

/-- What the walk makes of a part of a part is a part of what it makes of that. -/
theorem resolved_child (p : Site) (i : Nat) : (p.child i).resolved = p.resolved.child i := by
  obtain ⟨part, place, before, closing⟩ := p
  cases part with
  | expression e =>
    cases e with
    | this keyword depth =>
      obtain ⟨body, receiver⟩ := place
      cases receiver <;> rfl
    | _ => rcases i with _ | _ | _ | i <;> rfl
  | expressions es => cases es <;> rcases i with _ | _ | i <;> rfl
  | statement s =>
    cases s with
    | conditional condition whenTrue whenFalse =>
      cases whenFalse <;> rcases i with _ | _ | _ | i <;> rfl
    | returns keyword value => cases value <;> rcases i with _ | i <;> rfl
    | _ => rcases i with _ | _ | i <;> rfl
  | statements ss => cases ss <;> rcases i with _ | _ | i <;> rfl
  | declarators ds =>
    cases ds with
    | nil => rfl
    | cons d ds =>
      obtain ⟨name, initial⟩ := d
      cases initial <;> rcases i with _ | _ | i <;> rfl
  | function f =>
    obtain ⟨name, params, body⟩ := f
    rcases i with _ | i <;> rfl
  | methods fs => cases fs <;> rcases i with _ | _ | i <;> rfl
  | statics fs => cases fs <;> rcases i with _ | _ | i <;> rfl

theorem receiver_child (p : Site) (i : Nat) :
    (p.child i).place.receiver = (p.part.receiver? i).getD p.place.receiver := by
  obtain ⟨part, place, before, closing⟩ := p
  unfold child
  dsimp only
  split
  all_goals first
    | rfl
    | unfold Part.receiver?
      split
      all_goals first | rfl | exfalso; solve_by_elim

theorem resolved_of_variable {p : Site} {name : Token} {depth : Option Nat}
    (part : p.part = .expression (.variable name depth)) :
    p.resolved = .expression (.variable name (distance? name.lexeme p.before.scopes)) := by
  obtain ⟨_, place, before, closing⟩ := p
  cases part
  exact congrArg Part.expression (resolved_variable place name depth before)

theorem resolved_of_assign {p : Site} {name : Token} {value : Expr} {depth : Option Nat}
    (part : p.part = .expression (.assign name value depth)) :
    ∃ value', p.resolved =
      .expression (.assign name value' (distance? name.lexeme p.before.scopes)) := by
  obtain ⟨_, place, before, closing⟩ := p
  cases part
  exact ⟨_, congrArg Part.expression (resolved_assign place name value depth before)⟩

/-- `this` gets a distance in instance methods only, and is reported everywhere else. -/
theorem resolved_of_this {p : Site} {keyword : Token}
    (part : p.part = .expression (.this keyword none)) :
    match p.place.receiver with
    | .object => p.resolved =
        .expression (.this keyword (distance? keyword.lexeme p.before.scopes))
    | .static => p.resolved = .expression (.this keyword none) ∧
        ⟨.thisInStatic, keyword⟩ ∈ p.after.errors
    | .none => p.resolved = .expression (.this keyword none) ∧
        ⟨.thisOutsideClass, keyword⟩ ∈ p.after.errors := by
  obtain ⟨_, ⟨body, receiver⟩, before, closing⟩ := p
  cases part
  cases receiver with
  | object => rfl
  | static => exact ⟨rfl, List.mem_append_right _ List.mem_cons_self⟩
  | none => exact ⟨rfl, List.mem_append_right _ List.mem_cons_self⟩

end Site

/-! Ways -/

section

variable {program : List Stmt}

theorem partAt_eq (program : List Stmt) : ∀ way : List Nat,
    partAt program way = (siteAt program way).part
  | [] => rfl
  | i :: way => by
    show (partAt program way).child i = _
    rw [partAt_eq program way]
    exact (Site.part_child rfl i).symm

/-- The walk leads what stands at a place to the same place. -/
theorem partAt_resolved (program : List Stmt) : ∀ way : List Nat,
    partAt (Resolution.ofProgram program).1 way = (siteAt program way).resolved
  | [] => rfl
  | i :: way => by
    show (partAt _ way).child i = _
    rw [partAt_resolved program way]
    exact (Site.resolved_child _ i).symm

theorem receiverAt_eq (program : List Stmt) : ∀ way : List Nat,
    receiverAt program way = (siteAt program way).place.receiver
  | [] => rfl
  | i :: way => by
    show ((partAt program way).receiver? i).getD _ = _
    rw [partAt_eq program way, receiverAt_eq program way]
    exact (Site.receiver_child _ i).symm

theorem mirrors_scopesAt (proper : Stmt.AllProper program) : ∀ way : List Nat,
    Mirrors (scopesAt program way) (siteAt program way).before.outline
  | [] => .nil
  | i :: way => by
    rw [scopesAt, partAt_eq program way]
    exact Site.mirrors_child (proper_siteAt proper way) (mirrors_scopesAt proper way) i

/-- What the walk gives a name: the position of the nearest scope that declares it. -/
theorem distance?_siteAt (proper : Stmt.AllProper program) (way : List Nat) (x : String) :
    Resolve.distance? x (siteAt program way).before.scopes =
      (scopesAt program way).findIdx? (Scope.declares x) := by
  rw [Site.distance?_eq, (mirrors_scopesAt proper way).findIdx? x]

/-! The scopes that bind `this` -/

theorem Stmt.declares_ne_this {s : Stmt} (proper : s.Proper) :
    Keyword.this.word ∉ s.declares := by
  intro mem
  obtain ⟨t, mem, same⟩ := List.mem_map.mp mem
  refine Token.IsName.lexeme_ne ?_ .this same
  rcases List.mem_append.mp mem with variable_ | callable
  · refine isName_of_statements (show Stmt.AllProper [s] from ⟨proper, trivial⟩) ?_
    rwa [List.flatMap_cons, List.flatMap_nil, List.append_nil]
  · cases s with
    | declareFunction code =>
      obtain rfl := List.mem_singleton.mp callable
      exact proper.1
    | declareClass name ms ss =>
      obtain rfl := List.mem_singleton.mp callable
      exact proper.1
    | _ => cases callable

theorem Part.declaresBefore_ne_this {part : Part} (proper : part.Proper) (i : Nat) :
    Keyword.this.word ∉ part.declaresBefore i := by
  have single {t : Token} (name : t.IsName) : Keyword.this.word ∉ [t.lexeme] :=
    fun mem => name.lexeme_ne .this (List.mem_singleton.mp mem).symm
  unfold declaresBefore
  split
  · exact Stmt.declares_ne_this proper.1
  · exact single proper.1.1
  · rename_i d ds
    obtain ⟨name, initial⟩ := d
    cases initial with
    | none => exact single proper.1
    | some initial => exact single proper.1.1
  · exact single proper.1
  · exact single proper.1
  · exact single proper.1
  · exact List.not_mem_nil

/-- What is opened binds `this` if it is the body of a class, and only then. -/
theorem Part.opens?_this {part : Part} (proper : part.Proper) {i : Nat} {s : Scope}
    (h : part.opens? i = some s) : s.declares Keyword.this.word = s.ofClass := by
  unfold opens? at h
  split at h
  · cases h
    rfl
  · cases h
    rfl
  · cases h
    rfl
  · cases h
    refine (List.contains_eq_mem _ _).trans (decide_eq_false fun mem => ?_)
    obtain ⟨t, param, same⟩ := List.mem_map.mp mem
    exact (proper.1.2 t param).lexeme_ne .this same
  · cases h

/-- The bodies of classes declare `this`, and no other scopes do. -/
theorem declares_this_iff (proper : Stmt.AllProper program) : ∀ (way : List Nat),
    ∀ s ∈ scopesAt program way, s.declares Keyword.this.word = s.ofClass
  | [] => nofun
  | i :: way => by
    intro s mem
    have properPart := partAt_eq program way ▸ proper_siteAt proper way
    rcases List.mem_append.mp mem with opened | around
    · exact Part.opens?_this properPart (Option.mem_toList.mp opened)
    · obtain ⟨s', mem', kind, same⟩ := Scope.of_mem_declareIn around
      rw [kind, same _ (Part.declaresBefore_ne_this properPart i)]
      exact declares_this_iff proper way s' mem'

def Part.IsMembers : Part → Prop
  | methods _ => True
  | statics _ => True
  | _ => False

theorem Part.members_child {part : Part} {i : Nat} (h : (part.child i).IsMembers) :
    part.IsMembers ∨ ∃ s ∈ part.opens? i, s.ofClass = true := by
  unfold child Site.child at h
  dsimp only at h
  split at h
  all_goals first
    | exact h.elim
    | exact .inl h
    | exact .inl trivial
    | exact .inr ⟨_, rfl, rfl⟩

theorem Part.members_of_receiver? {part : Part} {i : Nat} {receiver : Receiver}
    (h : part.receiver? i = some receiver) : part.IsMembers := by
  unfold receiver? at h
  split at h
  · trivial
  · trivial
  · cases h

/-- The body of a class encloses its methods and what is in them. -/
theorem exists_ofClass (program : List Stmt) : ∀ way : List Nat,
    receiverAt program way ≠ .none ∨ (partAt program way).IsMembers →
      (scopesAt program way).any Scope.ofClass = true
  | [], h => (h.elim (fun outside => outside rfl) id).elim
  | i :: way, h => by
    rw [scopesAt, List.any_append, Scope.any_declareIn, Bool.or_eq_true]
    have around := exists_ofClass program way
    rcases h with inside | members
    · refine .inr (around ?_)
      cases method : (partAt program way).receiver? i with
      | none =>
        rw [receiverAt, method] at inside
        exact .inl inside
      | some receiver => exact .inr (Part.members_of_receiver? method)
    · rcases Part.members_child members with members | ⟨s, opened, ofClass⟩
      · exact .inr (around (.inr members))
      · exact .inl (List.any_eq_true.mpr ⟨s, Option.mem_toList.mpr opened, ofClass⟩)

/-- The nearest scope that declares `this` is the body of the innermost class. -/
theorem findIdx?_this (proper : Stmt.AllProper program) (way : List Nat) :
    (scopesAt program way).findIdx? (Scope.declares Keyword.this.word) =
      (scopesAt program way).findIdx? Scope.ofClass :=
  Scope.findIdx?_congr (declares_this_iff proper way)

end

namespace Session

/-- The walk gives each occurrence of a name in a program the position of the nearest scope around
it that declares the name no later than the occurrence, and no distance if there is none. It gives
`this` the position of the class of the innermost method around it if that is a method of
instances; any other `this` has no distance and is reported. -/
theorem lexical_addresses {input : Input} {program : List Stmt}
    (parsed : input.parsed = .ok program) (way : List Nat) :
    let resolved := (Resolution.ofProgram program).1
    let errors := (Resolution.ofProgram program).2.errors
    let scopes := scopesAt program way
    (∀ name depth, partAt program way = .expression (.variable name depth) →
      partAt resolved way =
        .expression (.variable name (scopes.findIdx? (Scope.declares name.lexeme)))) ∧
    (∀ name value depth, partAt program way = .expression (.assign name value depth) →
      ∃ value', partAt resolved way =
        .expression (.assign name value' (scopes.findIdx? (Scope.declares name.lexeme)))) ∧
    (∀ keyword depth, partAt program way = .expression (.this keyword depth) →
      match receiverAt program way with
      | .object => ∃ d, scopes.findIdx? Scope.ofClass = some d ∧
          partAt resolved way = .expression (.this keyword (some d))
      | .static => partAt resolved way = .expression (.this keyword none) ∧
          ⟨.thisInStatic, keyword⟩ ∈ errors
      | .none => partAt resolved way = .expression (.this keyword none) ∧
          ⟨.thisOutsideClass, keyword⟩ ∈ errors) := by
  intro resolved errors scopes
  have proper := Input.proper_of_parsed parsed
  have distance (x : String) : Resolve.distance? x (siteAt program way).before.scopes =
      scopes.findIdx? (Scope.declares x) := distance?_siteAt proper way x
  have walked : partAt resolved way = (siteAt program way).resolved := partAt_resolved program way
  rw [walked, partAt_eq]
  refine ⟨fun name depth part => ?_, fun name value depth part => ?_, fun keyword depth part => ?_⟩
  · rw [← distance]
    exact Site.resolved_of_variable part
  · rw [← distance]
    exact Site.resolved_of_assign part
  · have occurrence := proper_siteAt proper way
    rw [part] at occurrence
    obtain ⟨⟨_, word⟩, rfl⟩ := occurrence
    have reported {e : ScopeError} : e ∈ (siteAt program way).after.errors → e ∈ errors :=
      fun mem => (Site.errors_of_within (within_siteAt program way)).subset mem
    have this_ := Site.resolved_of_this part
    have receiver := receiverAt_eq program way
    cases kind : (siteAt program way).place.receiver with
    | object =>
      rw [kind] at this_ receiver
      rw [receiver]
      have enclosed : scopes.any Scope.ofClass = true :=
        exists_ofClass program way (.inl (by rw [receiver]; nofun))
      obtain ⟨d, found⟩ := Option.isSome_iff_exists.mp (List.findIdx?_isSome.trans enclosed)
      refine ⟨d, found, ?_⟩
      -- The nearest `this` belongs to the nearest class, since nothing else declares the word.
      rw [this_, word, distance, findIdx?_this proper way, found]
    | static =>
      rw [kind] at this_ receiver
      rw [receiver]
      exact ⟨this_.1, reported this_.2⟩
    | none =>
      rw [kind] at this_ receiver
      rw [receiver]
      exact ⟨this_.1, reported this_.2⟩

/-- A lambda in a method reads a variable of the block around the class; the scopes in between are
those of the lambda, the method and the class. The program has a fault elsewhere. -/
theorem lexical_addresses_captured :
    let way := [0, 0, 0, 0, 0, 0, 0, 0, 0, 0, 1, 0, 0]
    ∃ program name,
      (Input.program "{var a;class C{m(){return lambda()a;}}this;}").parsed = .ok program ∧
      (Resolution.ofProgram program).2.errors ≠ [] ∧
      partAt (Resolution.ofProgram program).1 way = .expression (.variable name (some 3)) := by
  intro way
  let input := Input.program "{var a;class C{m(){return lambda()a;}}this;}"
  have checked : input.parsed.toOption.any (fun program =>
      !(Resolution.ofProgram program).2.errors.isEmpty &&
        match partAt program way with
        | .expression (.variable name _) =>
          (scopesAt program way).findIdx? (Scope.declares name.lexeme) == some 3
        | _ => false) = true := by
    decide +kernel
  obtain ⟨program, parsed, checked⟩ := (Option.any_eq_true _ _).mp checked
  have parsed := Input.parsed_of_toOption parsed
  rw [Bool.and_eq_true, Bool.not_eq_true', List.isEmpty_eq_false_iff] at checked
  obtain ⟨faulty, found⟩ := checked
  split at found
  · rename_i name depth part
    have address := (lexical_addresses parsed way).1 name depth part
    rw [eq_of_beq found] at address
    exact ⟨program, name, parsed, faulty, address⟩
  · cases found

end Session

end LoxLang
