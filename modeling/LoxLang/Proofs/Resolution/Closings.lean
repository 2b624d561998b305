import LoxLang.Proofs.Resolution.Places
/-!
The scopes of a program, each told by the part that opens it: a block, a function or a class.

What is proved:
1. the openers of the scopes around a place are parts it lies in, one for each scope (`openersAt`);
2. the scopes in the order in which the walk closes them (`Part.closings`) are all scopes of the program,
   each after the scopes in it (`Part.mem_closings`, `Part.closings_ordered`).
-/
namespace LoxLang

/-! The parts that open scopes -/

/-- Whether a part opens a scope for what it consists of. -/
def Part.isScope : Part → Bool
  | .statement (.block _) => true
  | .statement (.declareClass _ _ _) => true
  | .function _ => true
  | _ => false

/-- The ways to the parts that open the scopes around a place, the innermost first. -/
def openersAt (program : List Stmt) : List Nat → List (List Nat)
  | [] => []
  | i :: way =>
    (((partAt program way).opens? i).map fun _ => way).toList ++ openersAt program way

section

variable {program : List Stmt} {way : List Nat} {i : Nat}

theorem length_openersAt (program : List Stmt) : ∀ way : List Nat,
    (openersAt program way).length = (scopesAt program way).length
  | [] => rfl
  | i :: way => by
    have rest := length_openersAt program way
    have inside (xs : List String) (scopes : List Scope) :
        (Scope.declareIn xs scopes).length = scopes.length := by
      cases scopes <;> rfl
    simp only [openersAt, scopesAt, List.length_append, inside, rest]
    cases (partAt program way).opens? i <;> rfl

theorem openersAt_same (closed : (partAt program way).opens? i = none) :
    openersAt program (i :: way) = openersAt program way := by
  rw [openersAt, closed]
  rfl

theorem openersAt_opened {s : Scope} (opened : (partAt program way).opens? i = some s) :
    openersAt program (i :: way) = way :: openersAt program way := by
  rw [openersAt, opened]
  rfl

/-- A scope around a place is opened by a part the place lies in. -/
theorem of_mem_openersAt (program : List Stmt) : ∀ {way o : List Nat}, o ∈ openersAt program way →
    ∃ inside i, way = inside ++ i :: o ∧ ((partAt program o).opens? i).isSome = true
  | [], _, mem => by cases mem
  | i :: way, o, mem => by
    rcases List.mem_append.mp mem with opened | around
    · cases scope : (partAt program way).opens? i with
      | none =>
        rw [scope] at opened
        cases opened
      | some s =>
        rw [scope] at opened
        obtain rfl : o = way := List.mem_singleton.mp opened
        exact ⟨[], i, rfl, by rw [scope]; rfl⟩
    · obtain ⟨inside, j, rfl, scope⟩ := of_mem_openersAt program around
      exact ⟨i :: inside, j, rfl, scope⟩

theorem length_of_mem_openersAt {o : List Nat} (mem : o ∈ openersAt program way) :
    o.length < way.length := by
  obtain ⟨inside, i, rfl, _⟩ := of_mem_openersAt program mem
  simp only [List.length_append, List.length_cons]
  omega

theorem nodup_openersAt (program : List Stmt) : ∀ way : List Nat, (openersAt program way).Nodup
  | [] => List.nodup_nil
  | i :: way => by
    have rest := nodup_openersAt program way
    cases scope : (partAt program way).opens? i with
    | none =>
      rw [openersAt_same scope]
      exact rest
    | some s =>
      rw [openersAt_opened scope]
      refine List.nodup_cons.mpr ⟨fun mem => ?_, rest⟩
      exact Nat.lt_irrefl _ (length_of_mem_openersAt mem)

end

/-! The order in which scopes are closed -/

mutual

/-- The ways to the scopes in an expression, in the order in which the walk closes them. -/
def Expr.closings : Expr → List (List Nat)
  | .literal _ => []
  | .group inner => under 0 inner.closings
  | .unary _ right => under 0 right.closings
  | .binary left _ right => under 0 left.closings ++ under 1 right.closings
  | .logical left _ right => under 0 left.closings ++ under 1 right.closings
  | .ternary condition whenTrue whenFalse =>
    under 0 condition.closings ++ (under 1 whenTrue.closings ++ under 2 whenFalse.closings)
  | .variable _ _ => []
  | .this _ _ => []
  | .assign _ value _ => under 0 value.closings
  | .call callee _ arguments => under 0 callee.closings ++ under 1 (Expr.closingsAll arguments)
  | .property object _ => under 0 object.closings
  | .setProperty object _ value => under 1 value.closings ++ under 0 object.closings
  | .lambda code => under 0 code.closings

def Expr.closingsAll : List Expr → List (List Nat)
  | [] => []
  | e :: es => under 0 e.closings ++ under 1 (Expr.closingsAll es)

/-- The ways to the scopes in a statement. A block and a class are closed behind what is in them. -/
def Stmt.closings : Stmt → List (List Nat)
  | .expression value => under 0 value.closings
  | .print value => under 0 value.closings
  | .declare d => under 0 d.closings
  | .declareAll ds => under 0 (Declarator.closingsAll ds)
  | .block body => under 0 (Stmt.closingsAll body) ++ [[]]
  | .conditional condition whenTrue none => under 0 condition.closings ++ under 1 whenTrue.closings
  | .conditional condition whenTrue (some whenFalse) =>
    under 0 condition.closings ++ (under 1 whenTrue.closings ++ under 2 whenFalse.closings)
  | .loop condition body => under 0 condition.closings ++ under 1 body.closings
  | .declareFunction code => under 0 code.closings
  | .returns _ none => []
  | .returns _ (some value) => under 0 value.closings
  | .declareClass _ methods statics =>
    under 0 (Function.closingsAll methods) ++ under 1 (Function.closingsAll statics) ++ [[]]

def Stmt.closingsAll : List Stmt → List (List Nat)
  | [] => []
  | s :: ss => under 0 s.closings ++ under 1 (Stmt.closingsAll ss)

/-- The ways to the scopes in the first of some declarators. -/
def Declarator.closings : Declarator → List (List Nat)
  | ⟨_, none⟩ => []
  | ⟨_, some initial⟩ => under 0 initial.closings

def Declarator.closingsAll : List Declarator → List (List Nat)
  | [] => []
  | d :: ds => d.closings ++ under 1 (Declarator.closingsAll ds)

/-- The ways to the scopes of a function, which is closed behind what is in it. -/
def Function.closings : Function → List (List Nat)
  | ⟨_, _, body⟩ => under 0 (Stmt.closingsAll body) ++ [[]]

def Function.closingsAll : List Function → List (List Nat)
  | [] => []
  | f :: fs => under 0 f.closings ++ under 1 (Function.closingsAll fs)

end

namespace Part

/-- The ways to the scopes in a part, in the order in which the walk closes them. -/
def closings : Part → List (List Nat)
  | .expression e => e.closings
  | .expressions es => Expr.closingsAll es
  | .statement s => s.closings
  | .statements ss => Stmt.closingsAll ss
  | .declarators ds => Declarator.closingsAll ds
  | .function f => f.closings
  | .methods fs => Function.closingsAll fs
  | .statics fs => Function.closingsAll fs

/-- A scope is closed behind what is in it. -/
theorem closings_eq (part : Part) :
    part.closings = part.order.flatMap (fun i => under i (part.child i).closings) ++
      if part.isScope then [[]] else [] := by
  have one (f : Nat → List (List Nat)) (i : Nat) : f i = [i].flatMap f ++ [] := by simp
  have two (f : Nat → List (List Nat)) (i j : Nat) : f i ++ f j = [i, j].flatMap f ++ [] := by simp
  have three (f : Nat → List (List Nat)) (i j k : Nat) :
      f i ++ (f j ++ f k) = [i, j, k].flatMap f ++ [] := by simp
  have within (f : Nat → List (List Nat)) (i : Nat) :
      f i ++ [[]] = [i].flatMap f ++ [[]] := by simp
  have class_ (f : Nat → List (List Nat)) (i j : Nat) :
      f i ++ f j ++ [[]] = [i, j].flatMap f ++ [[]] := by simp
  let parts (i : Nat) := under i (part.child i).closings
  cases part with
  | expression e =>
    cases e with
    | literal _ => rfl
    | «variable» _ _ => rfl
    | this _ _ => rfl
    | binary _ _ _ => exact two parts 0 1
    | logical _ _ _ => exact two parts 0 1
    | call _ _ _ => exact two parts 0 1
    | ternary _ _ _ => exact three parts 0 1 2
    | setProperty _ _ _ => exact two parts 1 0
    | _ => exact one parts 0
  | statement s =>
    cases s with
    | conditional _ _ whenFalse =>
      cases whenFalse with
      | none => exact two parts 0 1
      | some _ => exact three parts 0 1 2
    | returns _ value =>
      cases value with
      | none => rfl
      | some _ => exact one parts 0
    | loop _ _ => exact two parts 0 1
    | declareClass _ _ _ => exact class_ parts 0 1
    | block _ => exact within parts 0
    | declare d =>
      have alone : under 1 (Declarator.closingsAll []) = [] := rfl
      refine Eq.trans ?_ (one parts 0)
      show under 0 d.closings = under 0 (d.closings ++ under 1 (Declarator.closingsAll []))
      rw [alone, List.append_nil]
    | _ => exact one parts 0
  | declarators ds =>
    cases ds with
    | nil => rfl
    | cons d ds =>
      obtain ⟨name, initial⟩ := d
      cases initial with
      | none => exact one parts 1
      | some _ => exact two parts 0 1
  | function f =>
    obtain ⟨_, _, _⟩ := f
    exact within parts 0
  | expressions es =>
    cases es with
    | nil => rfl
    | cons _ _ => exact two parts 0 1
  | statements ss =>
    cases ss with
    | nil => rfl
    | cons _ _ => exact two parts 0 1
  | methods fs =>
    cases fs with
    | nil => rfl
    | cons _ _ => exact two parts 0 1
  | statics fs =>
    cases fs with
    | nil => rfl
    | cons _ _ => exact two parts 0 1

/-- The scopes that are closed are all the scopes there are. -/
theorem mem_closings (part : Part) {way : List Nat} : way ∈ part.closings ↔
    way ∈ part.places ∧ (way.foldr (fun i p => p.child i) part).isScope = true := by
  rw [closings_eq, places_eq, List.mem_append, List.mem_cons, List.mem_flatMap, List.mem_flatMap]
  have step (i : Nat) (h : i ∈ part.order) : way ∈ under i (part.child i).closings ↔
      way ∈ under i (part.child i).places ∧
        (way.foldr (fun i p => p.child i) part).isScope = true := by
    simp only [under, List.mem_map]
    constructor
    · rintro ⟨w, mem, rfl⟩
      obtain ⟨inside, scope⟩ := (mem_closings (part.child i)).mp mem
      rw [List.foldr_append]
      exact ⟨⟨w, inside, rfl⟩, scope⟩
    · rintro ⟨⟨w, inside, rfl⟩, scope⟩
      rw [List.foldr_append] at scope
      exact ⟨w, (mem_closings (part.child i)).mpr ⟨inside, scope⟩, rfl⟩
  constructor
  · rintro (⟨i, mem, inside⟩ | own)
    · obtain ⟨inside, scope⟩ := (step i mem).mp inside
      exact ⟨.inr ⟨i, mem, inside⟩, scope⟩
    · split at own
      · rename_i scope
        rw [List.mem_singleton] at own
        subst own
        exact ⟨.inl rfl, scope⟩
      · cases own
  · rintro ⟨rfl | ⟨i, mem, inside⟩, scope⟩
    · refine .inr ?_
      rw [if_pos (by exact scope)]
      exact List.mem_singleton_self _
    · exact .inl ⟨i, mem, (step i mem).mpr ⟨inside, scope⟩⟩
termination_by part.places.length
decreasing_by all_goals exact length_places h

/-- No scope is closed twice, nor in front of one that lies in it. -/
theorem closings_ordered (part : Part) : part.closings.Pairwise fun a b => ¬ a <:+ b := by
  rw [closings_eq, List.pairwise_append]
  refine ⟨?_, ?_, ?_⟩
  · rw [List.pairwise_flatMap]
    refine ⟨fun i mem => ?_, ?_⟩
    · refine (closings_ordered (part.child i)).map _ fun a b apart inside => apart ?_
      obtain ⟨front, same⟩ := inside
      rw [← List.append_assoc] at same
      exact ⟨front, (List.append_inj' same rfl).1⟩
    · refine (nodup_order part).imp fun {i j} other a mem b mem' inside => ?_
      obtain ⟨w, _, rfl⟩ := List.mem_map.mp mem
      obtain ⟨w', _, rfl⟩ := List.mem_map.mp mem'
      obtain ⟨front, same⟩ := inside
      rw [← List.append_assoc] at same
      exact other (List.singleton_inj.mp (List.append_inj' same rfl).2)
  · split
    · exact List.pairwise_singleton _ _
    · exact .nil
  · intro a mem b own inside
    obtain ⟨i, _, mem⟩ := List.mem_flatMap.mp mem
    obtain ⟨w, _, rfl⟩ := List.mem_map.mp mem
    split at own
    · rw [List.mem_singleton] at own
      subst own
      simp at inside
    · cases own
termination_by part.places.length
decreasing_by exact length_places mem

/-- The places in what a way leads to are those that lie behind that way. -/
theorem append_mem_places {part : Part} {way inside : List Nat} :
    inside ++ way ∈ part.places → inside ∈ (way.foldr (fun i p => p.child i) part).places := by
  induction way using List.reverseRecOn generalizing part with
  | nil =>
    intro mem
    rwa [List.append_nil] at mem
  | append_singleton way i ih =>
    intro mem
    rw [← List.append_assoc] at mem
    rw [List.foldr_append]
    exact ih (mem_places_append.mp mem).2

theorem mem_places_of_inside {part : Part} {way inside : List Nat} (listed : way ∈ part.places)
    (mem : inside ∈ (way.foldr (fun i p => p.child i) part).places) :
    inside ++ way ∈ part.places := by
  induction way using List.reverseRecOn generalizing part with
  | nil => rwa [List.append_nil]
  | append_singleton way i ih =>
    obtain ⟨first, rest⟩ := mem_places_append.mp listed
    rw [List.foldr_append] at mem
    rw [← List.append_assoc]
    exact mem_places_append.mpr ⟨first, ih rest mem⟩

end Part

end LoxLang
