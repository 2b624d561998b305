import LoxLang.Proofs.Nesting.Placing
import LoxLang.Proofs.Paring.Trees
/-!
What a program without a variable holds. Only the scope of the variable is another one, and of that
scope only the statements of its own: each that declares the variable gives way to its first value
(`Stmt.without`).

What is proved: on the way to the scope stand the same parts without the variable (`partAt_pareAll`), and
in its place stands the block or function with its statements changed in that way (`partAt_apply`).
-/
namespace LoxLang

variable {v : Surplus} {here : List Nat}

namespace Part

/-- Takes the variable out of a part that does not stand in its scope. -/
def pare (v : Surplus) (here : List Nat) : Part → Part
  | expression e => expression (e.pare v here)
  | expressions es => expressions (Expr.pareAll v here es)
  | statement s => statement (s.pare v here)
  | statements ss => statements (Stmt.pareAll v false here ss)
  | declarators ds => declarators (Declarator.pareAll v here ds)
  | function f => function (f.pare v here)
  | methods fs => methods (Function.pareAll v here fs)
  | statics fs => statics (Function.pareAll v here fs)

/-- The statements of the scope that a block or function opens. -/
def scoped? : Part → Option (List Stmt)
  | statement (.block body) => some body
  | function f => some f.body
  | _ => none

theorem child_pare (part : Part) (above : (here == v.scope) = false) :
    ∀ i ∈ part.order, (part.pare v here).child i = (part.child i).pare v (i :: here) := by
  have one {P : Nat → Prop} {i : Nat} (first : P i) : ∀ j ∈ [i], P j :=
    List.forall_mem_singleton.mpr first
  have two {P : Nat → Prop} {i j : Nat} (first : P i) (second : P j) : ∀ k ∈ [i, j], P k :=
    List.forall_mem_cons.mpr ⟨first, one second⟩
  cases part with
  | expression e =>
    cases e with
    | literal _ => exact fun _ mem => absurd mem List.not_mem_nil
    | «variable» _ _ => exact fun _ mem => absurd mem List.not_mem_nil
    | this _ _ => exact fun _ mem => absurd mem List.not_mem_nil
    | binary _ _ _ => exact two rfl rfl
    | logical _ _ _ => exact two rfl rfl
    | call _ _ _ => exact two rfl rfl
    | setProperty _ _ _ => exact two rfl rfl
    | ternary _ _ _ => exact List.forall_mem_cons.mpr ⟨rfl, two rfl rfl⟩
    | _ => exact one rfl
  | statement s =>
    cases s with
    | block _ =>
      rw [pare, Stmt.pare, above]
      exact one rfl
    | declareClass _ _ _ => exact two rfl rfl
    | conditional _ _ whenFalse =>
      cases whenFalse with
      | none => exact two rfl rfl
      | some _ => exact List.forall_mem_cons.mpr ⟨rfl, two rfl rfl⟩
    | loop _ _ => exact two rfl rfl
    | returns _ value =>
      cases value with
      | none => exact fun _ mem => absurd mem List.not_mem_nil
      | some _ => exact one rfl
    | _ => exact one rfl
  | declarators ds =>
    cases ds with
    | nil => exact fun _ mem => absurd mem List.not_mem_nil
    | cons d _ =>
      obtain ⟨_, initial⟩ := d
      cases initial with
      | none => exact one rfl
      | some _ => exact two rfl rfl
  | function f =>
    obtain ⟨_, _, _⟩ := f
    rw [pare, Function.pare, above]
    exact one rfl
  | expressions es =>
    cases es with
    | nil => exact fun _ mem => absurd mem List.not_mem_nil
    | cons _ _ => exact two rfl rfl
  | statements ss =>
    cases ss with
    | nil => exact fun _ mem => absurd mem List.not_mem_nil
    | cons _ _ => exact two rfl rfl
  | methods fs =>
    cases fs with
    | nil => exact fun _ mem => absurd mem List.not_mem_nil
    | cons f _ =>
      obtain ⟨_, _, _⟩ := f
      exact two rfl rfl
  | statics fs =>
    cases fs with
    | nil => exact fun _ mem => absurd mem List.not_mem_nil
    | cons _ _ => exact two rfl rfl

end Part

/-- At a place on the way to the scope, or beside that way, stands what stood there without the
variable. -/
theorem partAt_pareAll {program : List Stmt} : ∀ {way : List Nat},
    way ∈ (Part.statements program).places →
      (∀ above, above <:+ way → above ≠ way → above ≠ v.scope) →
        partAt (v.apply program) way = (partAt program way).pare v way
  | [], _, _ => rfl
  | i :: way, mem, outside => by
    obtain ⟨mem, last⟩ := Part.mem_places_cons.mp mem
    have before : partAt (v.apply program) way = (partAt program way).pare v way := by
      refine partAt_pareAll mem fun above suffix_ other => ?_
      refine outside above (suffix_.trans (List.suffix_cons i way)) ?_
      rintro rfl
      exact absurd suffix_.length_le (by simp)
    have entered := outside way (List.suffix_cons i way) (List.cons_ne_self i way).symm
    show (partAt (v.apply program) way).child i = _
    rw [before]
    exact Part.child_pare _ (beq_eq_false_iff_ne.mpr entered) i last

/-! Parts without the scope -/

mutual

theorem Expr.pare_unchosen : ∀ (e : Expr) {here : List Nat}, Unchosen (· == v.scope) here →
    e.pare v here = e
  | .literal _, _, _ => rfl
  | .group inner, _, h => by rw [Expr.pare, inner.pare_unchosen (h.child 0)]
  | .unary _ right, _, h => by rw [Expr.pare, right.pare_unchosen (h.child 0)]
  | .binary left _ right, _, h => by
    rw [Expr.pare, left.pare_unchosen (h.child 0), right.pare_unchosen (h.child 1)]
  | .logical left _ right, _, h => by
    rw [Expr.pare, left.pare_unchosen (h.child 0), right.pare_unchosen (h.child 1)]
  | .ternary condition whenTrue whenFalse, _, h => by
    rw [Expr.pare, condition.pare_unchosen (h.child 0), whenTrue.pare_unchosen (h.child 1),
      whenFalse.pare_unchosen (h.child 2)]
  | .variable _ _, _, _ => rfl
  | .this _ _, _, _ => rfl
  | .assign _ value _, _, h => by rw [Expr.pare, value.pare_unchosen (h.child 0)]
  | .call callee _ arguments, _, h => by
    rw [Expr.pare, callee.pare_unchosen (h.child 0), Expr.pareAll_unchosen arguments (h.child 1)]
  | .property object _, _, h => by rw [Expr.pare, object.pare_unchosen (h.child 0)]
  | .setProperty object _ value, _, h => by
    rw [Expr.pare, object.pare_unchosen (h.child 0), value.pare_unchosen (h.child 1)]
  | .lambda code, _, h => by rw [Expr.pare, code.pare_unchosen (h.child 0)]

theorem Expr.pareAll_unchosen : ∀ (es : List Expr) {here : List Nat}, Unchosen (· == v.scope) here →
    Expr.pareAll v here es = es
  | [], _, _ => rfl
  | e :: es, _, h => by
    rw [Expr.pareAll, e.pare_unchosen (h.child 0), Expr.pareAll_unchosen es (h.child 1)]

theorem Stmt.pare_unchosen : ∀ (s : Stmt) {here : List Nat}, Unchosen (· == v.scope) here →
    s.pare v here = s
  | .expression value, _, h => by rw [Stmt.pare, value.pare_unchosen (h.child 0)]
  | .print value, _, h => by rw [Stmt.pare, value.pare_unchosen (h.child 0)]
  | .declare d, _, h => by rw [Stmt.pare, d.pare_unchosen ((h.child 0).child 0)]
  | .declareAll ds, _, h => by rw [Stmt.pare, Declarator.pareAll_unchosen ds (h.child 0)]
  | .block body, here, h => by
    have outside : (here == v.scope) = false := h []
    rw [Stmt.pare, outside, Stmt.pareAll_unchosen false body (h.child 0)]
    rfl
  | .conditional condition whenTrue none, _, h => by
    rw [Stmt.pare, condition.pare_unchosen (h.child 0), whenTrue.pare_unchosen (h.child 1)]
  | .conditional condition whenTrue (some whenFalse), _, h => by
    rw [Stmt.pare, condition.pare_unchosen (h.child 0), whenTrue.pare_unchosen (h.child 1),
      whenFalse.pare_unchosen (h.child 2)]
  | .loop condition body, _, h => by
    rw [Stmt.pare, condition.pare_unchosen (h.child 0), body.pare_unchosen (h.child 1)]
  | .declareFunction code, _, h => by rw [Stmt.pare, code.pare_unchosen (h.child 0)]
  | .returns _ none, _, _ => rfl
  | .returns _ (some value), _, h => by rw [Stmt.pare, value.pare_unchosen (h.child 0)]
  | .declareClass _ methods statics, _, h => by
    rw [Stmt.pare, Function.pareAll_unchosen methods (h.child 0),
      Function.pareAll_unchosen statics (h.child 1)]

/-- Statements inside of which the scope is not may be those of the scope. -/
theorem Stmt.pareAll_unchosen (own : Bool) : ∀ (ss : List Stmt) {here : List Nat},
    Unchosen (· == v.scope) here →
      Stmt.pareAll v own here ss = if own then ss.flatMap (Stmt.without v.name) else ss
  | [], _, _ => by cases own <;> rfl
  | s :: ss, _, h => by
    rw [Stmt.pareAll, s.pare_unchosen (h.child 0), Stmt.pareAll_unchosen own ss (h.child 1)]
    cases own <;> rfl

theorem Declarator.pare_unchosen : ∀ (d : Declarator) {here : List Nat},
    Unchosen (· == v.scope) here → d.pare v here = d
  | ⟨_, none⟩, _, _ => rfl
  | ⟨_, some initial⟩, _, h => by rw [Declarator.pare, initial.pare_unchosen h]

theorem Declarator.pareAll_unchosen : ∀ (ds : List Declarator) {here : List Nat},
    Unchosen (· == v.scope) here → Declarator.pareAll v here ds = ds
  | [], _, _ => rfl
  | d :: ds, _, h => by
    rw [Declarator.pareAll, d.pare_unchosen (h.child 0), Declarator.pareAll_unchosen ds (h.child 1)]

theorem Function.pare_unchosen : ∀ (f : Function) {here : List Nat},
    Unchosen (· == v.scope) here → f.pare v here = f
  | ⟨_, _, body⟩, here, h => by
    have outside : (here == v.scope) = false := h []
    rw [Function.pare, outside, Stmt.pareAll_unchosen false body (h.child 0)]
    rfl

theorem Function.pareAll_unchosen : ∀ (fs : List Function) {here : List Nat},
    Unchosen (· == v.scope) here → Function.pareAll v here fs = fs
  | [], _, _ => rfl
  | f :: fs, _, h => by
    rw [Function.pareAll, f.pare_unchosen (h.child 0), Function.pareAll_unchosen fs (h.child 1)]

end

/-- Where the scope of the variable stands, it stands with its own statements changed. -/
theorem partAt_apply {program ss : List Stmt} (place : v.scope ∈ (Part.statements program).places)
    (there : (partAt program v.scope).scoped? = some ss) :
    (partAt (v.apply program) v.scope).scoped? = some (ss.flatMap (Stmt.without v.name)) := by
  have inside : Unchosen (· == v.scope) (0 :: v.scope) := by
    intro more
    apply beq_eq_false_iff_ne.mpr
    intro same
    have length := congrArg List.length same
    simp at length
    omega
  have own (body : List Stmt) : Stmt.pareAll v (v.scope == v.scope) (0 :: v.scope) body =
      body.flatMap (Stmt.without v.name) := by
    rw [Stmt.pareAll_unchosen _ body inside, beq_self_eq_true, if_pos rfl]
  rw [partAt_pareAll place fun _ _ other => other]
  cases part : partAt program v.scope with
  | statement s =>
    rw [part] at there
    cases s with
    | block body =>
      obtain rfl : body = ss := Option.some.inj there
      rw [Part.pare, Stmt.pare, own]
      rfl
    | _ => cases there
  | function f =>
    rw [part] at there
    obtain ⟨_, _, body⟩ := f
    obtain rfl : body = ss := Option.some.inj there
    rw [Part.pare, Function.pare, own]
    rfl
  | _ =>
    rw [part] at there
    cases there

end LoxLang
