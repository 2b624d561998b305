import LoxLang.Proofs.Nesting.Blocks
import LoxLang.Proofs.Resolution.Site
/-!
Walks over a program and over the one with the blocks. The open scopes of the second walk are those
of the first one with marked scopes in between, in which nothing is ever declared (`Padded`). A marked
scope is opened between two declarations, so a name that the scope around it binds is complete: that
the marked scope hides it from the check of unfinished declarations makes no difference.

What is proved: the second walk finds a name where the first one does, the marked scopes counted in
(`Padded.distance?`), and each step finds the same faults and unused names in both
(`Resolution.Pads.read` and its siblings). `Resolve.Nests` says so of whole walks, and is closed under
the ways they are put together.
-/
namespace LoxLang

open Nesting (shift)

/-- Every declaration of a scope is complete. -/
def Locals.Settled (ls : Locals) : Prop := ∀ x, ls.outline.find? x ≠ some false

/-- Open scopes, and the same ones with marked scopes in between. -/
inductive Padded : List Bool → List Locals → List Locals → Prop
  | nil : Padded [] [] []
  | scope {marks ss ss'} (ls : Locals) : Padded marks ss ss' →
    Padded (false :: marks) (ls :: ss) (ls :: ss')
  | empty {marks ss ss'} : Padded marks ss ss' → (ss.headD []).Settled →
    Padded (true :: marks) ss ([] :: ss')

namespace Padded

variable {marks : List Bool} {ss ss' : List Locals}

theorem distance? (h : Padded marks ss ss') (x : String) :
    Resolve.distance? x ss' = (Resolve.distance? x ss).map (shift marks) := by
  unfold Resolve.distance?
  induction h with
  | nil => rfl
  | @scope marks ss ss' ls _ ih =>
    rw [List.findIdx?_cons, List.findIdx?_cons, ih]
    by_cases here : ls.binds x = true
    · rw [if_pos here, if_pos here]
      rfl
    · rw [if_neg here, if_neg here, Option.map_map, Option.map_map]
      rfl
  | @empty marks ss ss' _ _ ih =>
    have none : ¬Locals.binds x [] = true := Bool.false_ne_true
    rw [List.findIdx?_cons, if_neg none, ih, Option.map_map]
    rfl

/-- A change of a scope that leaves its outline as it is. -/
theorem modify (h : Padded marks ss ss') {f : Locals → Locals}
    (outline : ∀ ls, (f ls).outline = ls.outline) (d : Nat) :
    Padded marks (ss.modify d f) (ss'.modify (shift marks d) f) := by
  induction h generalizing d with
  | nil =>
    rw [List.modify_nil, List.modify_nil]
    exact .nil
  | scope ls rest ih =>
    cases d with
    | zero => exact .scope (f ls) rest
    | succ d => exact .scope ls (ih d)
  | @empty marks ss ss' _ settled ih =>
    refine .empty (ih d) fun x => ?_
    have same : ((ss.modify d f).headD []).outline = (ss.headD []).outline := by
      cases ss with
      | nil => rw [List.modify_nil]
      | cons ls ss =>
        cases d with
        | zero => exact outline ls
        | succ d => rfl
    rw [same]
    exact settled x

end Padded

namespace Resolution

/-- The scopes of one walk are those of the other with marked ones in between, and both found the
same. -/
structure Pads (marks : List Bool) (r r' : Resolution) : Prop where
  scopes : Padded marks r.scopes r'.scopes
  errors : r'.errors = r.errors
  warnings : r'.warnings = r.warnings

def Settled (r : Resolution) : Prop := ∀ x, r.top.find? x ≠ some false

theorem Grows.settled {r s : Resolution} (h : Grows r s) (settled : r.Settled) : s.Settled :=
  fun x unfinished => settled x (h.unfinished x unfinished)

/-- Two walks between two declarations of their innermost scope. -/
def Paused (marks : List Bool) (r r' : Resolution) : Prop := Pads marks r r' ∧ r.Settled

theorem Pads.empty : Pads [] Resolution.empty Resolution.empty := ⟨.nil, rfl, rfl⟩

theorem Paused.empty : Paused [] Resolution.empty Resolution.empty :=
  ⟨.empty, fun _ found => nomatch found⟩

namespace Pads

variable {marks : List Bool} {r r' : Resolution}

theorem report (h : Pads marks r r') (fault : ScopeFault) (token : Token) :
    Pads marks (Resolve.report fault token r).2 (Resolve.report fault token r').2 :=
  ⟨h.scopes, congrArg (fun errors => errors ++ [ScopeError.mk fault token]) h.errors, h.warnings⟩

theorem openScope (h : Pads marks r r') (ls : Locals) :
    Pads (false :: marks) (Resolve.openScope ls r).2 (Resolve.openScope ls r').2 :=
  ⟨.scope ls h.scopes, h.errors, h.warnings⟩

theorem closeScope (h : Pads (false :: marks) r r') :
    Pads marks (Resolve.closeScope r).2 (Resolve.closeScope r').2 := by
  obtain ⟨scopes, errors, warnings⟩ := r
  obtain ⟨scopes', errors', warnings'⟩ := r'
  obtain ⟨padded, sameErrors, sameWarnings⟩ := h
  cases padded with
  | scope ls rest => exact ⟨rest, sameErrors, congrArg (· ++ ls.unused) sameWarnings⟩

/-- A marked scope is opened in the second walk only. -/
theorem openMarked (h : Paused marks r r') :
    Pads (true :: marks) r (Resolve.openScope [] r').2 := by
  obtain ⟨⟨scopes, errors, warnings⟩, settled⟩ := h
  refine ⟨.empty scopes fun x => ?_, errors, warnings⟩
  rw [← top_eq]
  exact settled x

/-- A marked scope is closed. Nothing was declared in it, so nothing is unused. -/
theorem closeMarked (h : Pads (true :: marks) r r') :
    Pads marks r (Resolve.closeScope r').2 := by
  obtain ⟨scopes', errors', warnings'⟩ := r'
  obtain ⟨padded, sameErrors, sameWarnings⟩ := h
  cases padded with
  | empty rest settled => exact ⟨rest, sameErrors, (List.append_nil _).trans sameWarnings⟩

theorem declare (h : Pads marks r r') (unmarked : marks.headD false = false) (name : Token)
    (tracked : Bool) :
    Pads marks (Resolve.declare name tracked r).2 (Resolve.declare name tracked r').2 := by
  obtain ⟨scopes, errors, warnings⟩ := r
  obtain ⟨scopes', errors', warnings'⟩ := r'
  obtain ⟨padded, sameErrors, sameWarnings⟩ := h
  cases padded with
  | nil => exact ⟨.nil, sameErrors, sameWarnings⟩
  | @scope marks ss ss' ls rest =>
    show Pads _ (if ls.binds name.lexeme then _ else _ : Resolution)
      (if ls.binds name.lexeme then _ else _ : Resolution)
    by_cases bound : ls.binds name.lexeme = true
    · rw [if_pos bound, if_pos bound]
      exact ⟨.scope _ rest, congrArg (· ++ [⟨.redeclared, name⟩]) sameErrors, sameWarnings⟩
    · rw [if_neg bound, if_neg bound]
      exact ⟨.scope _ rest, sameErrors, sameWarnings⟩
  | empty rest settled => cases unmarked

theorem define (h : Pads marks r r') (unmarked : marks.headD false = false) (name : Token) :
    Pads marks (Resolve.define name r).2 (Resolve.define name r').2 := by
  obtain ⟨scopes, errors, warnings⟩ := r
  obtain ⟨scopes', errors', warnings'⟩ := r'
  obtain ⟨padded, sameErrors, sameWarnings⟩ := h
  cases padded with
  | nil => exact ⟨.nil, sameErrors, sameWarnings⟩
  | scope ls rest => exact ⟨.scope _ rest, sameErrors, sameWarnings⟩
  | empty rest settled => cases unmarked

theorem checkDefined (h : Pads marks r r') (name : Token) :
    Pads marks (Resolve.checkDefined name r).2 (Resolve.checkDefined name r').2 := by
  have same : r.top.find? name.lexeme = some false ↔ r'.top.find? name.lexeme = some false := by
    rw [top_eq, top_eq]
    obtain ⟨padded, _, _⟩ := h
    generalize r.scopes = ss, r'.scopes = ss' at padded
    cases padded with
    | nil => exact .rfl
    | scope ls rest => exact .rfl
    | empty rest settled => exact ⟨fun found => absurd found (settled _), fun found => nomatch found⟩
  rw [Resolve.checkDefined_eq, Resolve.checkDefined_eq]
  by_cases unfinished : r.top.find? name.lexeme = some false
  · rw [if_pos unfinished, if_pos (same.mp unfinished)]
    exact h.report _ _
  · rw [if_neg unfinished, if_neg fun found => unfinished (same.mpr found)]
    exact h

theorem locateRead (h : Pads marks r r') (name : Token) :
    (Resolve.locateRead name r').1 = (Resolve.locateRead name r).1.map (shift marks) ∧
      Pads marks (Resolve.locateRead name r).2 (Resolve.locateRead name r').2 := by
  have found := h.scopes.distance? name.lexeme
  unfold Resolve.locateRead Resolve.locate
  simp only [bind, StateT.bind, get, getThe, MonadStateOf.get, StateT.get, pure, found]
  cases Resolve.distance? name.lexeme r.scopes with
  | none => exact ⟨rfl, h⟩
  | some d =>
    refine ⟨rfl, ?_, h.errors, h.warnings⟩
    exact h.scopes.modify (Resolve.outline_update_used name.lexeme) d

end Pads

theorem Paused.openScope {marks : List Bool} {r r' : Resolution} (h : Pads marks r r') :
    Paused (false :: marks) (Resolve.openScope [] r).2 (Resolve.openScope [] r').2 :=
  ⟨h.openScope [], fun _ found => nomatch found⟩

end Resolution

/-! Walks side by side -/

namespace Resolve

open Resolution

variable {α α' β β' : Type} {marks : List Bool} {R : Resolution → Resolution → Prop}

/-- Two walks keep what holds of their states, and make something of which something is known. -/
def Nests (R : Resolution → Resolution → Prop) (Q : α → α' → Prop) (walk : Resolve α)
    (walk' : Resolve α') : Prop :=
  ∀ r r', R r r' → Q (walk r).1 (walk' r').1 ∧ R (walk r).2 (walk' r').2

namespace Nests

variable {Q : α → α' → Prop} {Q' : β → β' → Prop} {walk : Resolve α} {walk' : Resolve α'}

theorem pure {a : α} {a' : α'} (q : Q a a') : Nests R Q (pure a) (pure a') := fun _ _ h => ⟨q, h⟩

theorem bind {next : α → Resolve β} {next' : α' → Resolve β'} (h : Nests R Q walk walk')
    (h' : ∀ a a', Q a a' → Nests R Q' (next a) (next' a')) :
    Nests R Q' (walk >>= next) (walk' >>= next') := by
  intro r r' related
  obtain ⟨q, after⟩ := h r r' related
  exact h' _ _ q _ _ after

theorem paused (h : Nests (Pads marks) Q walk walk') (grows : Grows walk) :
    Nests (Paused marks) Q walk walk' := by
  intro r r' ⟨pads, settled⟩
  obtain ⟨q, after⟩ := h r r' pads
  exact ⟨q, after, (grows r).settled settled⟩

theorem condition {place : Surroundings} {e : Expr} {Q : Expr → α' → Prop}
    (h : Nests (Pads marks) Q (expression place e) walk') :
    Nests (Paused marks) Q (expression place e) walk' := h.paused (expression_keeps place e).grows

end Nests

theorem report_nests (fault : ScopeFault) (token : Token) :
    Nests (Pads marks) (fun _ _ => True) (report fault token) (report fault token) :=
  fun _ _ h => ⟨trivial, h.report fault token⟩

theorem checkReturn_nests (body : Body) (keyword : Token) :
    Nests (Pads marks) (fun _ _ => True) (checkReturn body keyword) (checkReturn body keyword) := by
  unfold checkReturn
  split
  · exact report_nests _ _
  · exact .pure trivial

theorem checkReturnValue_nests (body : Body) (keyword : Token) :
    Nests (Pads marks) (fun _ _ => True) (checkReturnValue body keyword)
      (checkReturnValue body keyword) := by
  unfold checkReturnValue
  split
  · exact report_nests _ _
  · exact .pure trivial

theorem checkDefined_nests (name : Token) :
    Nests (Pads marks) (fun _ _ => True) (checkDefined name) (checkDefined name) :=
  fun _ _ h => ⟨trivial, h.checkDefined name⟩

theorem locate_nests (name : Token) :
    Nests (Pads marks) (fun d d' => d' = d.map (shift marks)) (locate name) (locate name) :=
  fun _ _ h => ⟨h.scopes.distance? name.lexeme, h⟩

theorem locateRead_nests (name : Token) :
    Nests (Pads marks) (fun d d' => d' = d.map (shift marks)) (locateRead name)
      (locateRead name) :=
  fun _ _ h => h.locateRead name

theorem declareParams_nests (unmarked : marks.headD false = false) : ∀ params : List Token,
    Nests (Pads marks) (fun _ _ => True) (declareParams params) (declareParams params)
  | [] => .pure trivial
  | p :: ps => fun _ _ h =>
    declareParams_nests unmarked ps _ _ ((h.declare unmarked p false).define unmarked p)

end Resolve

end LoxLang
