import Mathlib.Data.List.Induction
import Mathlib.Data.List.Nodup
import LoxLang.Proofs.Resolution.Addressing
/-!
The places of a program in the order in which the walk over its names comes by them. A place is told by
the way that leads to it (`partAt`), and a part comes before what it consists of.

What is proved: with a place all parts of what stands there are listed (`Part.places_closed`), and no
place is listed twice (`Part.nodup_places`).
-/
namespace LoxLang

/-- Ways into the `i`-th part of a part. -/
def under (i : Nat) (ways : List (List Nat)) : List (List Nat) := ways.map (· ++ [i])

mutual

/-- The ways to the parts of an expression, in the order of the walk. A value that is given to a
property comes before the object. -/
def Expr.places : Expr → List (List Nat)
  | .literal _ => [[]]
  | .group inner => [] :: under 0 inner.places
  | .unary _ right => [] :: under 0 right.places
  | .binary left _ right => [] :: (under 0 left.places ++ under 1 right.places)
  | .logical left _ right => [] :: (under 0 left.places ++ under 1 right.places)
  | .ternary condition whenTrue whenFalse =>
    [] :: (under 0 condition.places ++ (under 1 whenTrue.places ++ under 2 whenFalse.places))
  | .variable _ _ => [[]]
  | .this _ _ => [[]]
  | .assign _ value _ => [] :: under 0 value.places
  | .call callee _ arguments => [] :: (under 0 callee.places ++ under 1 (Expr.placesAll arguments))
  | .property object _ => [] :: under 0 object.places
  | .setProperty object _ value => [] :: (under 1 value.places ++ under 0 object.places)
  | .lambda code => [] :: under 0 code.places

def Expr.placesAll : List Expr → List (List Nat)
  | [] => [[]]
  | e :: es => [] :: (under 0 e.places ++ under 1 (Expr.placesAll es))

/-- The ways to the parts of a statement, in the order of the walk. -/
def Stmt.places : Stmt → List (List Nat)
  | .expression value => [] :: under 0 value.places
  | .print value => [] :: under 0 value.places
  | .declare d => [] :: under 0 ([] :: (d.places ++ under 1 [[]]))
  | .declareAll ds => [] :: under 0 (Declarator.placesAll ds)
  | .block body => [] :: under 0 (Stmt.placesAll body)
  | .conditional condition whenTrue none =>
    [] :: (under 0 condition.places ++ under 1 whenTrue.places)
  | .conditional condition whenTrue (some whenFalse) =>
    [] :: (under 0 condition.places ++ (under 1 whenTrue.places ++ under 2 whenFalse.places))
  | .loop condition body => [] :: (under 0 condition.places ++ under 1 body.places)
  | .declareFunction code => [] :: under 0 code.places
  | .returns _ none => [[]]
  | .returns _ (some value) => [] :: under 0 value.places
  | .declareClass _ methods statics =>
    [] :: (under 0 (Function.placesAll methods) ++ under 1 (Function.placesAll statics))

def Stmt.placesAll : List Stmt → List (List Nat)
  | [] => [[]]
  | s :: ss => [] :: (under 0 s.places ++ under 1 (Stmt.placesAll ss))

/-- The ways to the parts of the first of some declarators. -/
def Declarator.places : Declarator → List (List Nat)
  | ⟨_, none⟩ => []
  | ⟨_, some initial⟩ => under 0 initial.places

def Declarator.placesAll : List Declarator → List (List Nat)
  | [] => [[]]
  | d :: ds => [] :: (d.places ++ under 1 (Declarator.placesAll ds))

def Function.places : Function → List (List Nat)
  | ⟨_, _, body⟩ => [] :: under 0 (Stmt.placesAll body)

def Function.placesAll : List Function → List (List Nat)
  | [] => [[]]
  | f :: fs => [] :: (under 0 f.places ++ under 1 (Function.placesAll fs))

end

namespace Part

/-- The ways to the parts of a part, in the order of the walk. -/
def places : Part → List (List Nat)
  | .expression e => e.places
  | .expressions es => Expr.placesAll es
  | .statement s => s.places
  | .statements ss => Stmt.placesAll ss
  | .declarators ds => Declarator.placesAll ds
  | .function f => f.places
  | .methods fs => Function.placesAll fs
  | .statics fs => Function.placesAll fs

/-- The numbers of the parts that a part consists of, in the order of the walk. -/
def order : Part → List Nat
  | .expression (.literal _) => []
  | .expression (.variable _ _) => []
  | .expression (.this _ _) => []
  | .expression (.binary _ _ _) => [0, 1]
  | .expression (.logical _ _ _) => [0, 1]
  | .expression (.ternary _ _ _) => [0, 1, 2]
  | .expression (.call _ _ _) => [0, 1]
  | .expression (.setProperty _ _ _) => [1, 0]
  | .expression _ => [0]
  | .statement (.conditional _ _ none) => [0, 1]
  | .statement (.conditional _ _ (some _)) => [0, 1, 2]
  | .statement (.loop _ _) => [0, 1]
  | .statement (.returns _ none) => []
  | .statement (.declareClass _ _ _) => [0, 1]
  | .statement _ => [0]
  | .declarators (⟨_, none⟩ :: _) => [1]
  | .declarators (⟨_, some _⟩ :: _) => [0, 1]
  | .function _ => [0]
  | .expressions (_ :: _) => [0, 1]
  | .statements (_ :: _) => [0, 1]
  | .methods (_ :: _) => [0, 1]
  | .statics (_ :: _) => [0, 1]
  | _ => []

/-- A part comes before what it consists of. -/
theorem places_eq (part : Part) :
    part.places = [] :: part.order.flatMap fun i => under i (part.child i).places := by
  have one (f : Nat → List (List Nat)) (i : Nat) : [] :: f i = [] :: [i].flatMap f := by
    rw [List.flatMap_cons, List.flatMap_nil, List.append_nil]
  have two (f : Nat → List (List Nat)) (i j : Nat) :
      [] :: (f i ++ f j) = [] :: [i, j].flatMap f := by
    rw [List.flatMap_cons, List.flatMap_cons, List.flatMap_nil, List.append_nil]
  have three (f : Nat → List (List Nat)) (i j k : Nat) :
      [] :: (f i ++ (f j ++ f k)) = [] :: [i, j, k].flatMap f := by
    rw [List.flatMap_cons, List.flatMap_cons, List.flatMap_cons, List.flatMap_nil, List.append_nil]
  let parts (i : Nat) := under i (part.child i).places
  cases part with
  | expression e =>
    cases e with
    | literal _ => rfl
    | «variable» _ _ => rfl
    | this _ _ => rfl
    | binary _ _ _ => exact two parts 0 1
    | logical _ _ _ => exact two parts 0 1
    | call _ _ _ => exact two parts 0 1
    | ternary _ _ _ => exact three parts 0 1 2
    | setProperty _ _ _ => exact two parts 1 0
    | _ => exact one parts 0
  | statement s =>
    cases s with
    | conditional _ _ whenFalse =>
      cases whenFalse with
      | none => exact two parts 0 1
      | some _ => exact three parts 0 1 2
    | returns _ value =>
      cases value with
      | none => rfl
      | some _ => exact one parts 0
    | loop _ _ => exact two parts 0 1
    | declareClass _ _ _ => exact two parts 0 1
    | _ => exact one parts 0
  | declarators ds =>
    cases ds with
    | nil => rfl
    | cons d ds =>
      obtain ⟨name, initial⟩ := d
      cases initial with
      | none => exact one parts 1
      | some _ => exact two parts 0 1
  | function f =>
    obtain ⟨_, _, _⟩ := f
    exact one parts 0
  | expressions es =>
    cases es with
    | nil => rfl
    | cons _ _ => exact two parts 0 1
  | statements ss =>
    cases ss with
    | nil => rfl
    | cons _ _ => exact two parts 0 1
  | methods fs =>
    cases fs with
    | nil => rfl
    | cons _ _ => exact two parts 0 1
  | statics fs =>
    cases fs with
    | nil => rfl
    | cons _ _ => exact two parts 0 1

theorem child_of_not_mem (part : Part) {i : Nat} (h : i ∉ part.order) : part.child i = part := by
  unfold child Site.child
  dsimp only
  split
  all_goals first
    | rfl
    | exact absurd (.head _) h
    | exact absurd (.tail _ (.head _)) h
    | exact absurd (.tail _ (.tail _ (.head _))) h
    | rename_i condition whenTrue whenFalse
      cases whenFalse with
      | none => first | exact absurd (.head _) h | exact absurd (.tail _ (.head _)) h
      | some s => first | exact absurd (.head _) h | exact absurd (.tail _ (.head _)) h
    | rename_i d ds
      obtain ⟨name, initial⟩ := d
      cases initial with
      | none => exact absurd (.head _) h
      | some e => exact absurd (.tail _ (.head _)) h

theorem nodup_order (part : Part) : part.order.Nodup := by
  unfold order
  split <;> decide

theorem nil_mem_places (part : Part) : [] ∈ part.places := by
  rw [places_eq]
  exact List.mem_cons_self

theorem mem_places_append {part : Part} {i : Nat} {way : List Nat} :
    way ++ [i] ∈ part.places ↔ i ∈ part.order ∧ way ∈ (part.child i).places := by
  rw [places_eq, List.mem_cons, List.mem_flatMap]
  simp only [under, List.mem_map]
  constructor
  · rintro (none | ⟨j, mem, way', mem', same⟩)
    · simp at none
    · obtain ⟨rfl, last⟩ := List.append_inj' same rfl
      cases last
      exact ⟨mem, mem'⟩
  · exact fun ⟨mem, mem'⟩ => .inr ⟨i, mem, way, mem', rfl⟩

theorem places_closed {part : Part} {way : List Nat} (h : way ∈ part.places) {i : Nat}
    (more : i ∈ (way.foldr (fun i p => p.child i) part).order) : i :: way ∈ part.places := by
  induction way using List.reverseRecOn generalizing part with
  | nil => exact mem_places_append.mpr ⟨more, nil_mem_places _⟩
  | append_singleton way j ih =>
    obtain ⟨mem, inside⟩ := mem_places_append.mp h
    rw [List.foldr_append] at more
    exact mem_places_append.mpr ⟨mem, ih inside more⟩

theorem length_places {part : Part} {i : Nat} (h : i ∈ part.order) :
    (part.child i).places.length < part.places.length := by
  have mem : under i (part.child i).places ∈
      part.order.map fun i => under i (part.child i).places := List.mem_map.mpr ⟨i, h, rfl⟩
  have inside := (List.sublist_flatten_of_mem mem).length_le
  rw [← List.flatMap] at inside
  rw [places_eq part, List.length_cons]
  rw [under, List.length_map] at inside
  omega

theorem nodup_places (part : Part) : part.places.Nodup := by
  rw [places_eq, List.nodup_cons, List.nodup_flatMap]
  refine ⟨?_, fun i mem => ?_, ?_⟩
  · simp [under]
  · have inside := nodup_places (part.child i)
    exact inside.map fun a b same => List.append_cancel_right same
  · refine (nodup_order part).imp fun {i j} other way mem mem' => ?_
    obtain ⟨w, _, rfl⟩ := List.mem_map.mp mem
    obtain ⟨w', _, same⟩ := List.mem_map.mp mem'
    exact other (List.singleton_inj.mp (List.append_inj' same rfl).2).symm
termination_by part.places.length
decreasing_by exact length_places mem

end Part

end LoxLang
