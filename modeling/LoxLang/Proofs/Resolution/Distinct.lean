import LoxLang.Proofs.Resolution.Walk
import LoxLang.Proofs.Syntax.Proper
/-!
The names that are declared in a scope. In a program without faults no scope has one twice.

What is proved: what a statement adds to the scope it stands in are the names it declares
(`statement_adds`), and so the names declared by the parameters and the body of a function, or by
the statements of a block, are different (`nodup_of_function`, `nodup_of_block`).
-/
namespace LoxLang

/-- The variables that a statement declares in the scope it stands in. -/
def Stmt.locals : Stmt → List Token
  | .declare d => [d.name]
  | .declareAll ds => ds.map (·.name)
  | _ => []

/-- The function or class that a statement declares in the scope it stands in. -/
def Stmt.callable? : Stmt → Option Token
  | .declareFunction code => some code.name
  | .declareClass name _ _ => some name
  | _ => none

/-- The names that a statement declares in the scope it stands in. -/
def Stmt.declares (s : Stmt) : List String :=
  (s.locals ++ s.callable?.toList).map (·.lexeme)

theorem Stmt.callable?_eq_none {s : Stmt} {t : Token} (h : t ∈ s.locals) :
    s.callable? = none := by
  cases s with
  | declare => rfl
  | declareAll => rfl
  | _ => cases h

namespace Bindings

theorem names_mark (x : String) (b : Bool) (s : Bindings Bool) : (s.mark x b).names = s.names := by
  simp only [names, mark, List.map_map]
  apply List.map_congr_left
  rintro ⟨z, c⟩ _
  simp only [Function.comp]
  split <;> rfl

theorem mem_names {x : String} : ∀ {s : Bindings Bool}, x ∈ s.names ↔ s.binds x = true
  | [] => by simp [names, binds, find?]
  | (z, b) :: rest => by
    have ih := mem_names (x := x) (s := rest)
    by_cases same : z = x
    · simp [names, binds, find?, same]
    · simpa [names, binds, find?, same, Ne.symm same] using ih

end Bindings

namespace Resolve

open Resolution

/-- To declare a name that the innermost scope binds is the one fault of a declaration. -/
theorem length_errors_declare (name : Token) (tracked : Bool) (r : Resolution) :
    (declare name tracked r).2.errors.length =
      r.errors.length + if r.top.binds name.lexeme then 1 else 0 := by
  obtain ⟨scopes, errors, warnings⟩ := r
  cases scopes with
  | nil => rfl
  | cons ls outer =>
    have top : Resolution.top ⟨ls :: outer, errors, warnings⟩ = ls.outline := rfl
    rw [top, Locals.binds_outline]
    show (if ls.binds name.lexeme then _ else _ : Resolution).errors.length = _
    by_cases bound : ls.binds name.lexeme = true
    · simp [bound]
    · simp [bound]

/-- From one state to the other the innermost scope got these names, all of them new. -/
structure Adds (xs : List String) (r r' : Resolution) : Prop where
  names : r'.top.names = r.top.names ++ xs
  nodup : r.top.names.Nodup → r'.top.names.Nodup
  isOpen : r'.outline ≠ []

variable {xs xs' : List String} {r r' r'' : Resolution} {α : Type}

theorem Adds.trans (h : Adds xs r r') (h' : Adds xs' r' r'') : Adds (xs ++ xs') r r'' :=
  ⟨by rw [h'.names, h.names, List.append_assoc], fun distinct => h'.nodup (h.nodup distinct),
    h'.isOpen⟩

theorem Adds.keep (isOpen : r.outline ≠ []) (h : r'.outline = r.outline) : Adds [] r r' := by
  have top : r'.top = r.top := by rw [top, top, h]
  exact ⟨by rw [top, List.append_nil], fun distinct => top ▸ distinct, h ▸ isOpen⟩

theorem declared_adds (name : Token) (tracked : Bool) {walk : Resolve α} (h : Keeps walk)
    (isOpen : r.outline ≠ [])
    (accepted : (define name (walk (declare name tracked r).2).2).2.errors = []) :
    Adds [name.lexeme] r (define name (walk (declare name tracked r).2).2).2 := by
  have outline := outline_declared name tracked h r
  -- A name that was bound already would be a fault.
  have free : ¬ r.top.binds name.lexeme = true := by
    intro bound
    have length := length_errors_declare name tracked r
    have errors := (h (declare name tracked r).2).errors
    rw [errors_define] at accepted
    rw [accepted, List.prefix_nil] at errors
    rw [errors, if_pos bound, List.length_nil] at length
    omega
  cases scopes : r.outline with
  | nil => exact (isOpen scopes).elim
  | cons s ss =>
    have top : r.top = s := by rw [Resolution.top, scopes, List.headD_cons]
    rw [scopes] at outline
    rw [top] at free
    have names : (define name (walk (declare name tracked r).2).2).2.top.names =
        s.names ++ [name.lexeme] := by
      rw [Resolution.top, outline, introduce, List.headD_cons, Bindings.names_mark, declareIn,
        if_neg free]
      simp [Bindings.names]
    refine ⟨by rw [names, top], fun distinct => ?_, by rw [outline]; exact List.cons_ne_nil _ _⟩
    rw [top] at distinct
    rw [names]
    refine List.nodup_append.mpr ⟨distinct, by simp, ?_⟩
    intro x mem z last same
    rw [List.mem_singleton] at last
    subst last same
    exact free (Bindings.mem_names.mp mem)

theorem accepted_of_grows (h : Resolution.Grows r r') (accepted : r'.errors = []) : r.errors = [] :=
  List.prefix_nil.mp (accepted ▸ h.errors)

theorem declareParams_adds : ∀ (params : List Token) {r : Resolution}, r.outline ≠ [] →
    (declareParams params r).2.errors = [] →
      Adds (params.map (·.lexeme)) r (declareParams params r).2
  | [], _, isOpen, _ => .keep isOpen rfl
  | p :: ps, r, isOpen, accepted => by
    have first := declared_adds p false (Keeps.pure ()) isOpen
      (accepted_of_grows (declareParams_grows ps _) accepted)
    exact first.trans (declareParams_adds ps first.isOpen accepted)

theorem declarator_adds (place : Surroundings) : ∀ (d : Declarator) {r : Resolution},
    r.outline ≠ [] → (declarator place d r).2.errors = [] →
      Adds [d.name.lexeme] r (declarator place d r).2
  | ⟨name, none⟩, _, isOpen, accepted => declared_adds name true (Keeps.pure ()) isOpen accepted
  | ⟨name, some initial⟩, _, isOpen, accepted =>
    declared_adds name true (expression_keeps place initial) isOpen accepted

theorem declarators_adds (place : Surroundings) : ∀ (ds : List Declarator) {r : Resolution},
    r.outline ≠ [] → (declarators place ds r).2.errors = [] →
      Adds (ds.map (·.name.lexeme)) r (declarators place ds r).2
  | [], _, isOpen, _ => .keep isOpen rfl
  | d :: ds, r, isOpen, accepted => by
    have first := declarator_adds place d isOpen
      (accepted_of_grows (declarators_grows place ds _) accepted)
    exact first.trans (declarators_adds place ds first.isOpen accepted)

theorem statement_keeps (place : Surroundings) : ∀ s : Stmt, s.isDeclaration = false → s.Proper →
    Keeps (statement place s)
  | .expression value, _, _ => (expression_keeps place value).bind fun _ => .pure _
  | .print value, _, _ => (expression_keeps place value).bind fun _ => .pure _
  | .block body, _, _ => scoped_keeps [] (statements_grows place body)
  | .conditional condition whenTrue none, _, ⟨_, plain, proper⟩ =>
    (expression_keeps place condition).bind fun _ =>
      (statement_keeps place whenTrue plain proper).bind fun _ => .pure _
  | .conditional condition whenTrue (some whenFalse), _, ⟨_, ⟨plain, proper⟩, plain', proper'⟩ =>
    (expression_keeps place condition).bind fun _ =>
      (statement_keeps place whenTrue plain proper).bind fun _ =>
        (statement_keeps place whenFalse plain' proper').bind fun _ => .pure _
  | .loop condition body, _, ⟨_, plain, proper⟩ =>
    (expression_keeps place condition).bind fun _ =>
      (statement_keeps place body plain proper).bind fun _ => .pure _
  | .returns keyword none, _, _ => (checkReturn_keeps place.body keyword).bind fun _ => .pure _
  | .returns keyword (some value), _, _ =>
    (checkReturn_keeps place.body keyword).bind fun _ =>
      (checkReturnValue_keeps place.body keyword).bind fun _ =>
        (expression_keeps place value).bind fun _ => .pure _

theorem statement_adds (place : Surroundings) (s : Stmt) (proper : s.Proper)
    (isOpen : r.outline ≠ []) (accepted : (statement place s r).2.errors = []) :
    Adds s.declares r (statement place s r).2 := by
  have still (plain : s.isDeclaration = false) : Adds [] r (statement place s r).2 :=
    .keep isOpen (statement_keeps place s plain proper r).outline
  cases s with
  | declare d => exact declarator_adds place d isOpen accepted
  | declareAll ds =>
    have added := declarators_adds place ds isOpen accepted
    have names : (Stmt.declareAll ds).declares = ds.map (·.name.lexeme) := by
      simp [Stmt.declares, Stmt.locals, Stmt.callable?]
    exact names ▸ added
  | declareFunction code =>
    have keeps := function_keeps ⟨.function, place.receiver⟩ code
      (define code.name (declare code.name false r).2).2
    have first := declared_adds code.name false (Keeps.pure ()) isOpen
      (accepted_of_grows keeps.grows accepted)
    exact first.trans (.keep first.isOpen keeps.outline)
  | declareClass name ms ss =>
    have keeps := scoped_keeps [⟨"this", name.line, true, false, false⟩]
      ((methods_keeps ms).grows.bind fun _ => (statics_keeps ss).grows)
      (define name (declare name false r).2).2
    have first := declared_adds name false (Keeps.pure ()) isOpen
      (accepted_of_grows keeps.grows accepted)
    exact first.trans (.keep first.isOpen keeps.outline)
  | _ => exact still rfl

theorem statements_adds (place : Surroundings) : ∀ (ss : List Stmt) {r : Resolution},
    Stmt.AllProper ss → r.outline ≠ [] → (statements place ss r).2.errors = [] →
      Adds (ss.flatMap Stmt.declares) r (statements place ss r).2
  | [], _, _, isOpen, _ => .keep isOpen rfl
  | s :: ss, r, proper, isOpen, accepted => by
    have first := statement_adds place s proper.1 isOpen
      (accepted_of_grows (statements_grows place ss _) accepted)
    exact first.trans (statements_adds place ss proper.2 first.isOpen accepted)

end Resolve

namespace Site

open Resolve

variable {program : List Stmt} {p : Site}

/-- The names that are declared in a block without faults are different. -/
theorem nodup_of_block (accepted : (Resolution.ofProgram program).2.errors = [])
    (h : Within program p) {body : List Stmt} (part : p.part = .statement (.block body))
    (proper : Stmt.AllProper body) : (body.flatMap Stmt.declares).Nodup := by
  have clean := errors_after accepted (.child 0 h)
  obtain ⟨_, place, before, closing⟩ := p
  cases part
  have added := statements_adds place body (r := (openScope [] before).2) proper
    (List.cons_ne_nil _ _) clean
  have nodup := added.nodup List.nodup_nil
  rw [added.names] at nodup
  exact nodup

/-- The names of the parameters of a function without faults and those declared in its body are
different. -/
theorem nodup_of_function (accepted : (Resolution.ofProgram program).2.errors = [])
    (h : Within program p) {code : Function} (part : p.part = .function code)
    (proper : code.Proper) :
    (code.params.map (·.lexeme) ++ code.body.flatMap Stmt.declares).Nodup := by
  have clean := errors_after accepted (.child 0 h)
  obtain ⟨_, place, before, closing⟩ := p
  obtain ⟨name, params, body⟩ := code
  cases part
  have clean' : (declareParams params (openScope [] before).2).2.errors = [] :=
    accepted_of_grows (statements_grows place body _) clean
  have first := declareParams_adds params (r := (openScope [] before).2) (List.cons_ne_nil _ _) clean'
  have added := first.trans (statements_adds place body proper.2 first.isOpen clean)
  have nodup := added.nodup List.nodup_nil
  rw [added.names] at nodup
  exact nodup

end Site

theorem eq_of_mem_flatMap {α : Type} {f : α → List String} {x : String} {a b : α} :
    ∀ {l : List α}, (l.flatMap f).Nodup → a ∈ l → b ∈ l → x ∈ f a → x ∈ f b → a = b
  | c :: l, nodup, memA, memB, inA, inB => by
    rw [List.flatMap_cons, List.nodup_append] at nodup
    obtain ⟨_, rest, apart⟩ := nodup
    rcases List.mem_cons.mp memA with rfl | restA <;> rcases List.mem_cons.mp memB with rfl | restB
    · rfl
    · exact (apart x inA x (List.mem_flatMap.mpr ⟨b, restB, inB⟩) rfl).elim
    · exact (apart x inB x (List.mem_flatMap.mpr ⟨a, restA, inA⟩) rfl).elim
    · exact eq_of_mem_flatMap rest restA restB inA inB

end LoxLang
