import LoxLang.Proofs.Nesting.Blocks
import LoxLang.Proofs.Resolution.Places
import LoxLang.Proofs.Syntax.Proper
/-!
Where the blocks are. The parts of a program with blocks stand at the places of the program without
them, as long as no block is entered on the way.

What is proved: what stands at such a place are the same parts with their blocks
(`partAt_wrapAll`); so where a single statement gets a block, the block with it stands in its place
(`partAt_encloseAt`).
-/
namespace LoxLang

variable {chosen : List Nat → Bool} {here : List Nat}

/-- The program with the statement at a place in a block of its own. -/
def Stmt.encloseAt (way : List Nat) (program : List Stmt) : List Stmt :=
  Stmt.wrapAll (· == way) [] program

namespace Part

def wrap (chosen : List Nat → Bool) (here : List Nat) : Part → Part
  | expression e => expression (e.wrap chosen here)
  | expressions es => expressions (Expr.wrapAll chosen here es)
  | statement s => statement (s.wrap chosen here)
  | statements ss => statements (Stmt.wrapAll chosen here ss)
  | declarators ds => declarators (Declarator.wrapAll chosen here ds)
  | function f => function (f.wrap chosen here)
  | methods fs => methods (Function.wrapAll chosen here fs)
  | statics fs => statics (Function.wrapAll chosen here fs)

theorem child_wrap (part : Part) (plain : chosen here = false) :
    ∀ i ∈ part.order, (part.wrap chosen here).child i = (part.child i).wrap chosen (i :: here) := by
  have bare (s : Stmt) : s.enclose (chosen here) = s := by
    rw [plain]
    rfl
  have one {P : Nat → Prop} {i : Nat} (first : P i) : ∀ j ∈ [i], P j :=
    List.forall_mem_singleton.mpr first
  have two {P : Nat → Prop} {i j : Nat} (first : P i) (second : P j) : ∀ k ∈ [i, j], P k :=
    List.forall_mem_cons.mpr ⟨first, one second⟩
  cases part with
  | expression e =>
    cases e with
    | literal _ => nofun
    | «variable» _ _ => nofun
    | this _ _ => nofun
    | binary _ _ _ => exact two rfl rfl
    | logical _ _ _ => exact two rfl rfl
    | call _ _ _ => exact two rfl rfl
    | setProperty _ _ _ => exact two rfl rfl
    | ternary _ _ _ => exact List.forall_mem_cons.mpr ⟨rfl, two rfl rfl⟩
    | _ => exact one rfl
  | statement s =>
    cases s with
    | declare _ => exact one rfl
    | declareAll _ => exact one rfl
    | declareFunction _ => exact one rfl
    | declareClass _ _ _ => exact two rfl rfl
    | conditional _ _ whenFalse =>
      cases whenFalse with
      | none =>
        rw [wrap, Stmt.wrap, bare]
        exact two rfl rfl
      | some _ =>
        rw [wrap, Stmt.wrap, bare]
        exact List.forall_mem_cons.mpr ⟨rfl, two rfl rfl⟩
    | loop _ _ =>
      rw [wrap, Stmt.wrap, bare]
      exact two rfl rfl
    | returns _ value =>
      cases value with
      | none => nofun
      | some _ =>
        rw [wrap, Stmt.wrap, bare]
        exact one rfl
    | _ =>
      rw [wrap, Stmt.wrap, bare]
      exact one rfl
  | declarators ds =>
    cases ds with
    | nil => nofun
    | cons d _ =>
      obtain ⟨_, initial⟩ := d
      cases initial with
      | none => exact one rfl
      | some _ => exact two rfl rfl
  | function f =>
    obtain ⟨_, _, _⟩ := f
    exact one rfl
  | expressions es =>
    cases es with
    | nil => nofun
    | cons _ _ => exact two rfl rfl
  | statements ss =>
    cases ss with
    | nil => nofun
    | cons _ _ => exact two rfl rfl
  | methods fs =>
    cases fs with
    | nil => nofun
    | cons f _ =>
      obtain ⟨_, _, _⟩ := f
      exact two rfl rfl
  | statics fs =>
    cases fs with
    | nil => nofun
    | cons _ _ => exact two rfl rfl

theorem mem_places_cons {part : Part} {i : Nat} {way : List Nat} :
    i :: way ∈ part.places ↔
      way ∈ part.places ∧ i ∈ (way.foldr (fun i part => part.child i) part).order := by
  induction way using List.reverseRecOn generalizing part with
  | nil =>
    have single : [] ++ [i] ∈ part.places ↔ i ∈ part.order ∧ [] ∈ (part.child i).places :=
      mem_places_append
    rw [List.nil_append] at single
    rw [single]
    exact ⟨fun ⟨mem, _⟩ => ⟨nil_mem_places _, mem⟩, fun ⟨_, mem⟩ => ⟨mem, nil_mem_places _⟩⟩
  | append_singleton way j ih =>
    rw [← List.cons_append, mem_places_append, mem_places_append, ih, List.foldr_append]
    exact and_assoc.symm

end Part

/-- At a place that no block is entered on the way to stands what stood there, with its blocks. -/
theorem partAt_wrapAll {program : List Stmt} : ∀ {way : List Nat},
    way ∈ (Part.statements program).places →
      (∀ above, above <:+ way → above ≠ way → chosen above = false) →
        partAt (Stmt.wrapAll chosen [] program) way = (partAt program way).wrap chosen way
  | [], _, _ => rfl
  | i :: way, mem, outside => by
    obtain ⟨mem, last⟩ := Part.mem_places_cons.mp mem
    have before : partAt (Stmt.wrapAll chosen [] program) way =
        (partAt program way).wrap chosen way := by
      refine partAt_wrapAll mem fun above suffix_ other => ?_
      refine outside above (suffix_.trans (List.suffix_cons i way)) ?_
      rintro rfl
      exact absurd suffix_.length_le (by simp)
    have entered := outside way (List.suffix_cons i way) (List.cons_ne_self i way).symm
    show (partAt (Stmt.wrapAll chosen [] program) way).child i = _
    rw [before]
    exact Part.child_wrap _ entered i last

/-! Parts without blocks -/

/-- Nothing is chosen at a place or inside what stands there. -/
def Unchosen (chosen : List Nat → Bool) (here : List Nat) : Prop :=
  ∀ way, chosen (way ++ here) = false

theorem Unchosen.child (h : Unchosen chosen here) (i : Nat) : Unchosen chosen (i :: here) := by
  intro way
  have inside := h (way ++ [i])
  rwa [List.append_assoc] at inside

theorem Stmt.bare_of_unchosen {s : Stmt} (h : Unchosen chosen here)
    (above : s.wrap chosen here = s.enclose (chosen here && !s.isDeclaration)) :
    s.wrap chosen here = s := by
  have plain : chosen here = false := h []
  rw [above, plain]
  rfl

mutual

theorem Expr.wrap_unchosen : ∀ (e : Expr) {here : List Nat}, Unchosen chosen here →
    e.wrap chosen here = e
  | .literal _, _, _ => rfl
  | .group inner, _, h => by rw [Expr.wrap, inner.wrap_unchosen (h.child 0)]
  | .unary _ right, _, h => by rw [Expr.wrap, right.wrap_unchosen (h.child 0)]
  | .binary left _ right, _, h => by
    rw [Expr.wrap, left.wrap_unchosen (h.child 0), right.wrap_unchosen (h.child 1)]
  | .logical left _ right, _, h => by
    rw [Expr.wrap, left.wrap_unchosen (h.child 0), right.wrap_unchosen (h.child 1)]
  | .ternary condition whenTrue whenFalse, _, h => by
    rw [Expr.wrap, condition.wrap_unchosen (h.child 0), whenTrue.wrap_unchosen (h.child 1),
      whenFalse.wrap_unchosen (h.child 2)]
  | .variable _ _, _, _ => rfl
  | .this _ _, _, _ => rfl
  | .assign _ value _, _, h => by rw [Expr.wrap, value.wrap_unchosen (h.child 0)]
  | .call callee _ arguments, _, h => by
    rw [Expr.wrap, callee.wrap_unchosen (h.child 0), Expr.wrapAll_unchosen arguments (h.child 1)]
  | .property object _, _, h => by rw [Expr.wrap, object.wrap_unchosen (h.child 0)]
  | .setProperty object _ value, _, h => by
    rw [Expr.wrap, object.wrap_unchosen (h.child 0), value.wrap_unchosen (h.child 1)]
  | .lambda code, _, h => by rw [Expr.wrap, code.wrap_unchosen (h.child 0)]

theorem Expr.wrapAll_unchosen : ∀ (es : List Expr) {here : List Nat}, Unchosen chosen here →
    Expr.wrapAll chosen here es = es
  | [], _, _ => rfl
  | e :: es, _, h => by
    rw [Expr.wrapAll, e.wrap_unchosen (h.child 0), Expr.wrapAll_unchosen es (h.child 1)]

theorem Stmt.wrap_above : ∀ (s : Stmt) {here : List Nat}, (∀ i, Unchosen chosen (i :: here)) →
    s.wrap chosen here = s.enclose (chosen here && !s.isDeclaration)
  | .expression value, here, h => by
    rw [Stmt.wrap, value.wrap_unchosen (h 0)]
    simp [Stmt.isDeclaration]
  | .print value, here, h => by
    rw [Stmt.wrap, value.wrap_unchosen (h 0)]
    simp [Stmt.isDeclaration]
  | .declare d, here, h => by
    rw [Stmt.wrap, d.wrap_unchosen ((h 0).child 0)]
    simp [Stmt.isDeclaration, Stmt.enclose]
  | .declareAll ds, here, h => by
    rw [Stmt.wrap, Declarator.wrapAll_unchosen ds (h 0)]
    simp [Stmt.isDeclaration, Stmt.enclose]
  | .block body, here, h => by
    rw [Stmt.wrap, Stmt.wrapAll_unchosen body (h 0)]
    simp [Stmt.isDeclaration]
  | .conditional condition whenTrue none, here, h => by
    rw [Stmt.wrap, condition.wrap_unchosen (h 0),
      Stmt.bare_of_unchosen (h 1) (whenTrue.wrap_above (h 1).child)]
    simp [Stmt.isDeclaration]
  | .conditional condition whenTrue (some whenFalse), here, h => by
    rw [Stmt.wrap, condition.wrap_unchosen (h 0),
      Stmt.bare_of_unchosen (h 1) (whenTrue.wrap_above (h 1).child),
      Stmt.bare_of_unchosen (h 2) (whenFalse.wrap_above (h 2).child)]
    simp [Stmt.isDeclaration]
  | .loop condition body, here, h => by
    rw [Stmt.wrap, condition.wrap_unchosen (h 0),
      Stmt.bare_of_unchosen (h 1) (body.wrap_above (h 1).child)]
    simp [Stmt.isDeclaration]
  | .declareFunction code, here, h => by
    rw [Stmt.wrap, code.wrap_unchosen (h 0)]
    simp [Stmt.isDeclaration, Stmt.enclose]
  | .returns keyword none, here, h => by
    rw [Stmt.wrap]
    simp [Stmt.isDeclaration]
  | .returns keyword (some value), here, h => by
    rw [Stmt.wrap, value.wrap_unchosen (h 0)]
    simp [Stmt.isDeclaration]
  | .declareClass name methods statics, here, h => by
    rw [Stmt.wrap, Function.wrapAll_unchosen methods (h 0), Function.wrapAll_unchosen statics (h 1)]
    simp [Stmt.isDeclaration, Stmt.enclose]

theorem Stmt.wrapAll_unchosen : ∀ (ss : List Stmt) {here : List Nat}, Unchosen chosen here →
    Stmt.wrapAll chosen here ss = ss
  | [], _, _ => rfl
  | s :: ss, _, h => by
    rw [Stmt.wrapAll, Stmt.bare_of_unchosen (h.child 0) (s.wrap_above (h.child 0).child),
      Stmt.wrapAll_unchosen ss (h.child 1)]

theorem Declarator.wrap_unchosen : ∀ (d : Declarator) {here : List Nat}, Unchosen chosen here →
    d.wrap chosen here = d
  | ⟨_, none⟩, _, _ => rfl
  | ⟨_, some initial⟩, _, h => by rw [Declarator.wrap, initial.wrap_unchosen h]

theorem Declarator.wrapAll_unchosen : ∀ (ds : List Declarator) {here : List Nat},
    Unchosen chosen here → Declarator.wrapAll chosen here ds = ds
  | [], _, _ => rfl
  | d :: ds, _, h => by
    rw [Declarator.wrapAll, d.wrap_unchosen (h.child 0), Declarator.wrapAll_unchosen ds (h.child 1)]

theorem Function.wrap_unchosen : ∀ (f : Function) {here : List Nat}, Unchosen chosen here →
    f.wrap chosen here = f
  | ⟨_, _, body⟩, _, h => by rw [Function.wrap, Stmt.wrapAll_unchosen body (h.child 0)]

theorem Function.wrapAll_unchosen : ∀ (fs : List Function) {here : List Nat},
    Unchosen chosen here → Function.wrapAll chosen here fs = fs
  | [], _, _ => rfl
  | f :: fs, _, h => by
    rw [Function.wrapAll, f.wrap_unchosen (h.child 0), Function.wrapAll_unchosen fs (h.child 1)]

end

/-- Where a statement that is no declaration gets a block, the block with it stands. -/
theorem partAt_encloseAt {program : List Stmt} {way : List Nat} {s : Stmt}
    (place : way ∈ (Part.statements program).places) (there : partAt program way = .statement s)
    (plain : s.isDeclaration = false) :
    partAt (Stmt.encloseAt way program) way = .statement (.block [s]) := by
  have outside : ∀ above, above <:+ way → above ≠ way → (above == way) = false :=
    fun above _ other => beq_eq_false_iff_ne.mpr other
  have inside : ∀ i, Unchosen (· == way) (i :: way) := by
    intro i more
    apply beq_eq_false_iff_ne.mpr
    intro same
    have length := congrArg List.length same
    simp at length
    omega
  rw [Stmt.encloseAt, partAt_wrapAll place outside, there, Part.wrap, s.wrap_above inside, plain]
  simp [Stmt.enclose]

end LoxLang
