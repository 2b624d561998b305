import LoxLang.Proofs.Renaming.Rename
import LoxLang.Proofs.Resolution.Walk
import LoxLang.Proofs.Syntax.Proper
/-!
Walks over two programs that differ in the name of a variable. The open scopes are the same but for
the names in those that are marked, and as many faults were found (`Resolution.Relabels`).

What is proved: each step of the walk keeps it so, and an occurrence has one distance in both
programs (`distance?_relabel`).
-/
namespace LoxLang

/-! The steps of a walk, as far as faults go -/

namespace Resolve

theorem errors_locateRead (name : Token) (r : Resolution) :
    (locateRead name r).2.errors = r.errors := by
  unfold locateRead locate
  simp only [bind, StateT.bind, get, getThe, MonadStateOf.get, StateT.get, pure]
  cases distance? name.lexeme r.scopes <;> rfl

end Resolve

namespace Exchange

variable (σ : Exchange)

/-- A scope under the names that a mark gives them. -/
def relabel (mark : Bool) (s : Bindings Bool) : Bindings Bool :=
  s.map fun (x, b) => (σ.swap mark x, b)

variable {σ}

theorem find?_relabel (mark : Bool) (x : String) : ∀ s : Bindings Bool,
    (σ.relabel mark s).find? (σ.swap mark x) = s.find? x
  | [] => rfl
  | (z, b) :: rest => by
    have ih := find?_relabel mark x rest
    simp only [relabel, List.map_cons, Bindings.find?, σ.swap_inj] at ih ⊢
    rw [ih]

theorem binds_relabel (mark : Bool) (x : String) (s : Bindings Bool) :
    (σ.relabel mark s).binds (σ.swap mark x) = s.binds x := by
  rw [Bindings.binds, Bindings.binds, find?_relabel]

theorem mark_relabel (mark b : Bool) (x : String) (s : Bindings Bool) :
    (σ.relabel mark s).mark (σ.swap mark x) b = σ.relabel mark (s.mark x b) := by
  simp only [relabel, Bindings.mark, List.map_map]
  apply List.map_congr_left
  rintro ⟨z, c⟩ _
  by_cases same : z = x
  · simp [same]
  · simp [same, σ.swap_inj]

theorem declareIn_relabel (mark : Bool) (x : String) (s : Bindings Bool) :
    Resolve.declareIn (σ.swap mark x) (σ.relabel mark s) =
      σ.relabel mark (Resolve.declareIn x s) := by
  unfold Resolve.declareIn
  rw [binds_relabel, mark_relabel]
  split
  · rfl
  · simp [relabel]

/-- A name that a scope does not bind is not bound there in the other program either, whichever mark
its own scope has. -/
theorem find?_relabel_of_none {x : String} (mark mark' : Bool) {s : Bindings Bool}
    (free : s.find? x = none) (fresh : s.find? σ.new = none) (notNew : x ≠ σ.new) :
    (σ.relabel mark' s).find? (σ.swap mark x) = none := by
  by_cases same : mark = mark'
  · rw [same, find?_relabel, free]
  · -- The marks differ, so the name is sought under one that only the other mark gives.
    rw [← σ.swap_swap mark' (σ.swap mark x), find?_relabel]
    have once : σ.swap mark' (σ.swap mark x) = σ.swap true x := by
      cases mark <;> cases mark' <;> simp_all
    rw [once]
    by_cases isOld : x = σ.old
    · simp [Exchange.swap, isOld, fresh]
    · rw [σ.swap_of_ne isOld notNew, free]

end Exchange

/-- The open scopes of two walks are the same but for names, and so is the number of faults. -/
structure Resolution.Relabels (σ : Exchange) (marks : List Bool) (r r' : Resolution) : Prop where
  length : marks.length = r.outline.length
  outline : r'.outline = List.zipWith σ.relabel marks r.outline
  fresh : ∀ s ∈ r.outline, s.find? σ.new = none
  errors : r'.errors.length = r.errors.length

namespace Resolution.Relabels

open Resolve

variable {σ : Exchange} {marks : List Bool} {r r' s s' : Resolution}

theorem empty (σ : Exchange) : Relabels σ [] Resolution.empty Resolution.empty :=
  ⟨rfl, rfl, fun _ mem => (List.not_mem_nil mem).elim, rfl⟩

theorem keep (h : Relabels σ marks r r') (outline : s.outline = r.outline)
    (outline' : s'.outline = r'.outline) (errors : s'.errors.length = s.errors.length) :
    Relabels σ marks s s' :=
  ⟨by rw [h.length, outline], by rw [outline', h.outline, outline],
    fun t mem => h.fresh t (outline ▸ mem), errors⟩

theorem top (h : Relabels σ marks r r') : r'.top = σ.relabel (marks.headD false) r.top := by
  rw [Resolution.top, Resolution.top, h.outline]
  have length := h.length
  cases marks with
  | nil =>
    rw [List.length_nil] at length
    rw [List.eq_nil_of_length_eq_zero length.symm]
    rfl
  | cons mark rest =>
    cases outline : r.outline with
    | nil => simp [outline] at length
    | cons t ts => rfl

theorem fresh_top (h : Relabels σ marks r r') : r.top.find? σ.new = none := by
  have fresh := h.fresh
  rw [Resolution.top]
  cases outline : r.outline with
  | nil => rfl
  | cons t ts => exact fresh t (outline ▸ List.mem_cons_self)

theorem report (h : Relabels σ marks r r') (fault : ScopeFault) (token token' : Token) :
    Relabels σ marks (Resolve.report fault token r).2 (Resolve.report fault token' r').2 := by
  refine h.keep rfl rfl ?_
  show (r'.errors ++ _).length = (r.errors ++ _).length
  simp [h.errors]

theorem openScope (h : Relabels σ marks r r') (mark : Bool) (ls ls' : Locals)
    (same : ls'.outline = σ.relabel mark ls.outline) (fresh : ls.outline.find? σ.new = none) :
    Relabels σ (mark :: marks) (Resolve.openScope ls r).2 (Resolve.openScope ls' r').2 where
  length := congrArg Nat.succ h.length
  outline := by
    show ls'.outline :: r'.outline = List.zipWith σ.relabel (mark :: marks)
      (ls.outline :: r.outline)
    rw [List.zipWith_cons_cons, same, h.outline]
  fresh t mem := by
    rcases List.mem_cons.mp mem with rfl | mem
    · exact fresh
    · exact h.fresh t mem
  errors := h.errors

theorem closeScope {mark : Bool} (h : Relabels σ (mark :: marks) r r') :
    Relabels σ marks (Resolve.closeScope r).2 (Resolve.closeScope r').2 where
  length := by
    rw [outline_closeScope, List.length_tail, ← h.length]
    rfl
  outline := by
    rw [outline_closeScope, outline_closeScope, h.outline]
    cases r.outline <;> simp
  fresh t mem := by
    rw [outline_closeScope] at mem
    exact h.fresh t (List.mem_of_mem_tail mem)
  errors := by rw [errors_closeScope, errors_closeScope, h.errors]

/-- A name that is declared in both walks, in the innermost scope. -/
theorem declare (h : Relabels σ marks r r') {name name' : Token} (tracked tracked' : Bool)
    (twin : name.Twin σ (marks.headD false) name') (notNew : name.lexeme ≠ σ.new) :
    Relabels σ marks (Resolve.declare name tracked r).2 (Resolve.declare name' tracked' r').2 := by
  have bound : r'.top.binds name'.lexeme = r.top.binds name.lexeme := by
    rw [h.top, twin, Exchange.binds_relabel]
  have errors : (Resolve.declare name' tracked' r').2.errors.length =
      (Resolve.declare name tracked r).2.errors.length := by
    rw [length_errors_declare, length_errors_declare, h.errors, bound]
  have declared := outline_declare name tracked r
  have declared' := outline_declare name' tracked' r'
  have ⟨length, outline, fresh, _⟩ := h
  cases scopes : r.outline with
  | nil =>
    rw [scopes] at length outline declared
    rw [List.zipWith_nil_right] at outline
    rw [outline] at declared'
    exact h.keep (declared.trans scopes.symm) (declared'.trans outline.symm) errors
  | cons t ts =>
    cases marks with
    | nil => simp [scopes] at length
    | cons mark rest =>
      rw [scopes] at length outline declared
      rw [outline] at declared'
      refine ⟨by rw [declared]; exact length, ?_, fun u mem => ?_, errors⟩
      · rw [declared', declared]
        have twin : name'.lexeme = σ.swap mark name.lexeme := twin
        simp [twin, Exchange.declareIn_relabel]
      · rw [declared] at mem
        rcases List.mem_cons.mp mem with rfl | mem
        · rw [find?_declareIn, if_neg notNew]
          exact fresh t (scopes ▸ List.mem_cons_self)
        · exact fresh u (scopes ▸ List.mem_cons_of_mem t mem)

theorem define (h : Relabels σ marks r r') {name name' : Token}
    (twin : name.Twin σ (marks.headD false) name') :
    Relabels σ marks (Resolve.define name r).2 (Resolve.define name' r').2 := by
  have errors : (Resolve.define name' r').2.errors.length =
      (Resolve.define name r).2.errors.length := by
    rw [errors_define, errors_define, h.errors]
  have defined := outline_define name r
  have defined' := outline_define name' r'
  have ⟨length, outline, fresh, _⟩ := h
  cases scopes : r.outline with
  | nil =>
    rw [scopes] at length outline defined
    rw [List.zipWith_nil_right] at outline
    rw [outline] at defined'
    exact h.keep (defined.trans scopes.symm) (defined'.trans outline.symm) errors
  | cons t ts =>
    cases marks with
    | nil => simp [scopes] at length
    | cons mark rest =>
      rw [scopes] at length outline defined
      rw [outline] at defined'
      refine ⟨by rw [defined]; exact length, ?_, fun u mem => ?_, errors⟩
      · rw [defined', defined]
        have twin : name'.lexeme = σ.swap mark name.lexeme := twin
        simp [twin, Exchange.mark_relabel]
      · rw [defined] at mem
        rcases List.mem_cons.mp mem with rfl | mem
        · rw [Bindings.find?_mark, fresh t (scopes ▸ List.mem_cons_self)]
          split <;> rfl
        · exact fresh u (scopes ▸ List.mem_cons_of_mem t mem)

/-- An occurrence has one distance in both programs. -/
theorem findIdx?_relabel {x : String} (notNew : x ≠ σ.new) : ∀ {marks : List Bool}
    {ss : List (Bindings Bool)}, marks.length = ss.length → (∀ s ∈ ss, s.find? σ.new = none) →
      (List.zipWith σ.relabel marks ss).findIdx?
          (Bindings.binds (σ.swap (Exchange.mark marks (ss.findIdx? (Bindings.binds x))) x)) =
        ss.findIdx? (Bindings.binds x)
  | [], [], _, _ => rfl
  | mark :: marks, s :: ss, length, fresh => by
    rw [List.zipWith_cons_cons, List.findIdx?_cons, List.findIdx?_cons]
    by_cases bound : s.binds x = true
    · have here : Exchange.mark (mark :: marks) (some 0) = mark := rfl
      rw [if_pos bound, here, Exchange.binds_relabel, if_pos bound]
    · rw [if_neg bound]
      have outward : Exchange.mark (mark :: marks)
          ((ss.findIdx? (Bindings.binds x)).map fun d => d + 1) =
            Exchange.mark marks (ss.findIdx? (Bindings.binds x)) := by
        cases ss.findIdx? (Bindings.binds x) <;> rfl
      have free : (σ.relabel mark s).find?
          (σ.swap (Exchange.mark marks (ss.findIdx? (Bindings.binds x))) x) = none :=
        Exchange.find?_relabel_of_none _ _ (Option.not_isSome_iff_eq_none.mp bound)
          (fresh s List.mem_cons_self) notNew
      have ih := findIdx?_relabel notNew (Nat.succ.inj length)
        fun t mem => fresh t (List.mem_cons_of_mem s mem)
      rw [outward, ih, Bindings.binds, free]
      rfl

theorem distance? (h : Relabels σ marks r r') {x : String} (notNew : x ≠ σ.new) :
    Resolve.distance? (σ.swap (Exchange.mark marks (Resolve.distance? x r.scopes)) x) r'.scopes =
      Resolve.distance? x r.scopes := by
  rw [Site.distance?_eq, Site.distance?_eq, h.outline]
  exact findIdx?_relabel notNew h.length h.fresh

/-- What the innermost scope knows of an occurrence is the same in both programs. -/
theorem find?_top (h : Relabels σ marks r r') {x : String} (notNew : x ≠ σ.new) :
    r'.top.find? (σ.swap (Exchange.mark marks (Resolve.distance? x r.scopes)) x) =
      r.top.find? x := by
  rw [h.top]
  cases found : r.top.find? x with
  | none => exact Exchange.find?_relabel_of_none _ _ found h.fresh_top notNew
  | some b =>
    have first : Exchange.mark marks (Resolve.distance? x r.scopes) = marks.headD false := by
      rw [Site.distance?_eq]
      rw [Resolution.top] at found
      cases outline : r.outline with
      | nil => rw [outline] at found; cases found
      | cons s ss =>
        rw [outline] at found
        have bound : s.binds x = true := congrArg Option.isSome found
        rw [List.findIdx?_cons, bound]
        cases marks <;> rfl
    rw [first, Exchange.find?_relabel, found]

theorem read (h : Relabels σ marks r r') {name name' : Token} (notNew : name.lexeme ≠ σ.new)
    (twin : name.Twin σ (Exchange.mark marks (Resolve.distance? name.lexeme r.scopes)) name') :
    Relabels σ marks (locateRead name (checkDefined name r).2).2
      (locateRead name' (checkDefined name' r').2).2 := by
  have known : r'.top.find? name'.lexeme = r.top.find? name.lexeme := by
    rw [twin]
    exact h.find?_top notNew
  have checked : Relabels σ marks (checkDefined name r).2 (checkDefined name' r').2 := by
    rw [checkDefined_eq, checkDefined_eq, known]
    split
    · exact h.report _ _ _
    · exact h
  refine checked.keep (locateRead_keeps name _).outline (locateRead_keeps name' _).outline ?_
  rw [errors_locateRead, errors_locateRead, checked.errors]

end Resolution.Relabels

end LoxLang
