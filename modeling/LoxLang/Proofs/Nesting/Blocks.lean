import LoxLang.Proofs.Renaming.Twins
/-!
Statements in blocks of their own. A block around a single statement is a scope in which nothing is
ever declared: it adds one to the distance of every name that the statement takes from further out,
and changes nothing else about the program. `marks` tells such scopes from all others: it holds one
mark for each open scope of the program with the blocks, the innermost first, and a marked scope is
one that the other program does not have.

What is proved: distances stay as they are where nothing is marked (`Nesting.shift_of_unmarked`), so
that every program stands in this relation to itself (`Stmt.nested_self` and its siblings).
-/
namespace LoxLang

/-! Programs with blocks -/

/-- A statement, in a block of its own if it is chosen. -/
def Stmt.enclose (chosen : Bool) (s : Stmt) : Stmt := if chosen then .block [s] else s

mutual

/-- Puts chosen statements of an expression into blocks; `here` is the way to the expression. -/
def Expr.wrap (chosen : List Nat → Bool) (here : List Nat) : Expr → Expr
  | .literal value => .literal value
  | .group inner => .group (inner.wrap chosen (0 :: here))
  | .unary op right => .unary op (right.wrap chosen (0 :: here))
  | .binary left op right =>
    .binary (left.wrap chosen (0 :: here)) op (right.wrap chosen (1 :: here))
  | .logical left op right =>
    .logical (left.wrap chosen (0 :: here)) op (right.wrap chosen (1 :: here))
  | .ternary condition whenTrue whenFalse =>
    .ternary (condition.wrap chosen (0 :: here)) (whenTrue.wrap chosen (1 :: here))
      (whenFalse.wrap chosen (2 :: here))
  | .variable name depth => .variable name depth
  | .this keyword depth => .this keyword depth
  | .assign name value depth => .assign name (value.wrap chosen (0 :: here)) depth
  | .call callee paren arguments =>
    .call (callee.wrap chosen (0 :: here)) paren (Expr.wrapAll chosen (1 :: here) arguments)
  | .property object name => .property (object.wrap chosen (0 :: here)) name
  | .setProperty object name value =>
    .setProperty (object.wrap chosen (0 :: here)) name (value.wrap chosen (1 :: here))
  | .lambda code => .lambda (code.wrap chosen (0 :: here))

def Expr.wrapAll (chosen : List Nat → Bool) (here : List Nat) : List Expr → List Expr
  | [] => []
  | e :: es => e.wrap chosen (0 :: here) :: Expr.wrapAll chosen (1 :: here) es

/-- Puts chosen statements into blocks, the statement itself among them unless it is a
declaration. -/
def Stmt.wrap (chosen : List Nat → Bool) (here : List Nat) : Stmt → Stmt
  | .expression value => Stmt.enclose (chosen here) (.expression (value.wrap chosen (0 :: here)))
  | .print value => Stmt.enclose (chosen here) (.print (value.wrap chosen (0 :: here)))
  | .declare d => .declare (d.wrap chosen (0 :: 0 :: here))
  | .declareAll ds => .declareAll (Declarator.wrapAll chosen (0 :: here) ds)
  | .block body => Stmt.enclose (chosen here) (.block (Stmt.wrapAll chosen (0 :: here) body))
  | .conditional condition whenTrue none =>
    Stmt.enclose (chosen here) (.conditional (condition.wrap chosen (0 :: here))
      (whenTrue.wrap chosen (1 :: here)) none)
  | .conditional condition whenTrue (some whenFalse) =>
    Stmt.enclose (chosen here) (.conditional (condition.wrap chosen (0 :: here))
      (whenTrue.wrap chosen (1 :: here)) (some (whenFalse.wrap chosen (2 :: here))))
  | .loop condition body =>
    Stmt.enclose (chosen here)
      (.loop (condition.wrap chosen (0 :: here)) (body.wrap chosen (1 :: here)))
  | .declareFunction code => .declareFunction (code.wrap chosen (0 :: here))
  | .returns keyword none => Stmt.enclose (chosen here) (.returns keyword none)
  | .returns keyword (some value) =>
    Stmt.enclose (chosen here) (.returns keyword (some (value.wrap chosen (0 :: here))))
  | .declareClass name methods statics =>
    .declareClass name (Function.wrapAll chosen (0 :: here) methods)
      (Function.wrapAll chosen (1 :: here) statics)

def Stmt.wrapAll (chosen : List Nat → Bool) (here : List Nat) : List Stmt → List Stmt
  | [] => []
  | s :: ss => s.wrap chosen (0 :: here) :: Stmt.wrapAll chosen (1 :: here) ss

/-- Puts chosen statements of a first value into blocks; `here` is the way to the value. -/
def Declarator.wrap (chosen : List Nat → Bool) (here : List Nat) : Declarator → Declarator
  | ⟨name, none⟩ => ⟨name, none⟩
  | ⟨name, some initial⟩ => ⟨name, some (initial.wrap chosen here)⟩

def Declarator.wrapAll (chosen : List Nat → Bool) (here : List Nat) :
    List Declarator → List Declarator
  | [] => []
  | d :: ds => d.wrap chosen (0 :: here) :: Declarator.wrapAll chosen (1 :: here) ds

def Function.wrap (chosen : List Nat → Bool) (here : List Nat) : Function → Function
  | ⟨name, params, body⟩ => ⟨name, params, Stmt.wrapAll chosen (0 :: here) body⟩

def Function.wrapAll (chosen : List Nat → Bool) (here : List Nat) : List Function → List Function
  | [] => []
  | f :: fs => f.wrap chosen (0 :: here) :: Function.wrapAll chosen (1 :: here) fs

end

/-! Programs with distances -/

/-- The distance in the program with the blocks: the marked scopes on the way count as well. -/
def Nesting.shift : List Bool → Nat → Nat
  | [], d => d
  | true :: marks, d => shift marks d + 1
  | false :: _, 0 => 0
  | false :: marks, d + 1 => shift marks d + 1

open Nesting (shift)

mutual

/-- Expressions of which the second one stands in marked scopes and may have blocks inside. -/
inductive Expr.Nested : List Bool → Expr → Expr → Prop
  | literal {marks} (value : Literal) : Expr.Nested marks (.literal value) (.literal value)
  | group {marks inner inner'} : Expr.Nested marks inner inner' →
    Expr.Nested marks (.group inner) (.group inner')
  | unary {marks right right'} (op : Token) : Expr.Nested marks right right' →
    Expr.Nested marks (.unary op right) (.unary op right')
  | binary {marks left left' right right'} (op : Token) : Expr.Nested marks left left' →
    Expr.Nested marks right right' →
    Expr.Nested marks (.binary left op right) (.binary left' op right')
  | logical {marks left left' right right'} (op : Token) : Expr.Nested marks left left' →
    Expr.Nested marks right right' →
    Expr.Nested marks (.logical left op right) (.logical left' op right')
  | ternary {marks a a' b b' c c'} : Expr.Nested marks a a' → Expr.Nested marks b b' →
    Expr.Nested marks c c' → Expr.Nested marks (.ternary a b c) (.ternary a' b' c')
  | variable {marks depth depth'} (name : Token) : depth' = depth.map (shift marks) →
    Expr.Nested marks (.variable name depth) (.variable name depth')
  | this {marks depth depth'} (keyword : Token) : depth' = depth.map (shift marks) →
    Expr.Nested marks (.this keyword depth) (.this keyword depth')
  | assign {marks value value' depth depth'} (name : Token) : Expr.Nested marks value value' →
    depth' = depth.map (shift marks) →
    Expr.Nested marks (.assign name value depth) (.assign name value' depth')
  | call {marks callee callee' arguments arguments'} (paren : Token) :
    Expr.Nested marks callee callee' → Expr.AllNested marks arguments arguments' →
    Expr.Nested marks (.call callee paren arguments) (.call callee' paren arguments')
  | property {marks object object'} (name : Token) : Expr.Nested marks object object' →
    Expr.Nested marks (.property object name) (.property object' name)
  | setProperty {marks object object' value value'} (name : Token) :
    Expr.Nested marks object object' → Expr.Nested marks value value' →
    Expr.Nested marks (.setProperty object name value) (.setProperty object' name value')
  | lambda {marks code code'} : Function.Nested marks code code' →
    Expr.Nested marks (.lambda code) (.lambda code')

inductive Expr.AllNested : List Bool → List Expr → List Expr → Prop
  | nil {marks} : Expr.AllNested marks [] []
  | cons {marks e e' es es'} : Expr.Nested marks e e' → Expr.AllNested marks es es' →
    Expr.AllNested marks (e :: es) (e' :: es')

/-- Statements that are no declarations, without a block around the second one. -/
inductive Stmt.Bare : List Bool → Stmt → Stmt → Prop
  | expression {marks value value'} : Expr.Nested marks value value' →
    Stmt.Bare marks (.expression value) (.expression value')
  | print {marks value value'} : Expr.Nested marks value value' →
    Stmt.Bare marks (.print value) (.print value')
  | block {marks body body'} : Stmt.AllNested (false :: marks) body body' →
    Stmt.Bare marks (.block body) (.block body')
  | onlyIf {marks condition condition' whenTrue whenTrue'} :
    Expr.Nested marks condition condition' → Stmt.Nested marks whenTrue whenTrue' →
    Stmt.Bare marks (.conditional condition whenTrue none) (.conditional condition' whenTrue' none)
  | orElse {marks condition condition' whenTrue whenTrue' whenFalse whenFalse'} :
    Expr.Nested marks condition condition' → Stmt.Nested marks whenTrue whenTrue' →
    Stmt.Nested marks whenFalse whenFalse' → Stmt.Bare marks
      (.conditional condition whenTrue (some whenFalse))
      (.conditional condition' whenTrue' (some whenFalse'))
  | loop {marks condition condition' body body'} : Expr.Nested marks condition condition' →
    Stmt.Nested marks body body' → Stmt.Bare marks (.loop condition body) (.loop condition' body')
  | returns {marks} (keyword : Token) :
    Stmt.Bare marks (.returns keyword none) (.returns keyword none)
  | returnsValue {marks value value'} (keyword : Token) : Expr.Nested marks value value' →
    Stmt.Bare marks (.returns keyword (some value)) (.returns keyword (some value'))

/-- Statements of which the second one may stand in a block of its own. Nothing is declared in a
marked scope. -/
inductive Stmt.Nested : List Bool → Stmt → Stmt → Prop
  | bare {marks s s'} : Stmt.Bare marks s s' → Stmt.Nested marks s s'
  | enclosed {marks s s'} : Stmt.Bare (true :: marks) s s' → Stmt.Nested marks s (.block [s'])
  | declare {marks d d'} : marks.headD false = false → Declarator.Nested marks d d' →
    Stmt.Nested marks (.declare d) (.declare d')
  | declareAll {marks ds ds'} : marks.headD false = false → Declarator.AllNested marks ds ds' →
    Stmt.Nested marks (.declareAll ds) (.declareAll ds')
  | declareFunction {marks code code'} : marks.headD false = false →
    Function.Nested marks code code' →
    Stmt.Nested marks (.declareFunction code) (.declareFunction code')
  | declareClass {marks methods methods' statics statics'} (name : Token) :
    marks.headD false = false → Function.AllNested (false :: marks) methods methods' →
    Function.AllNested (false :: marks) statics statics' →
    Stmt.Nested marks (.declareClass name methods statics) (.declareClass name methods' statics')

inductive Stmt.AllNested : List Bool → List Stmt → List Stmt → Prop
  | nil {marks} : Stmt.AllNested marks [] []
  | cons {marks s s' ss ss'} : Stmt.Nested marks s s' → Stmt.AllNested marks ss ss' →
    Stmt.AllNested marks (s :: ss) (s' :: ss')

/-- Declarators of which the second one may have blocks inside. -/
inductive Declarator.Nested : List Bool → Declarator → Declarator → Prop
  | plain {marks} (name : Token) : Declarator.Nested marks ⟨name, none⟩ ⟨name, none⟩
  | initialized {marks initial initial'} (name : Token) : Expr.Nested marks initial initial' →
    Declarator.Nested marks ⟨name, some initial⟩ ⟨name, some initial'⟩

inductive Declarator.AllNested : List Bool → List Declarator → List Declarator → Prop
  | nil {marks} : Declarator.AllNested marks [] []
  | cons {marks d d' ds ds'} : Declarator.Nested marks d d' → Declarator.AllNested marks ds ds' →
    Declarator.AllNested marks (d :: ds) (d' :: ds')

/-- Functions of which the second one may have blocks inside. -/
inductive Function.Nested : List Bool → Function → Function → Prop
  | code {marks body body'} (name : Token) (params : List Token) :
    Stmt.AllNested (false :: marks) body body' →
    Function.Nested marks ⟨name, params, body⟩ ⟨name, params, body'⟩

inductive Function.AllNested : List Bool → List Function → List Function → Prop
  | nil {marks} : Function.AllNested marks [] []
  | cons {marks f f' fs fs'} : Function.Nested marks f f' → Function.AllNested marks fs fs' →
    Function.AllNested marks (f :: fs) (f' :: fs')

end

/-! Every program stands in this relation to itself -/

theorem Nesting.shift_of_unmarked : ∀ {marks : List Bool}, Unmarked marks → ∀ d,
    shift marks d = d
  | [], _, _ => rfl
  | true :: _, h, _ => nomatch h.head
  | false :: _, _, 0 => rfl
  | false :: _, h, d + 1 =>
    congrArg Nat.succ (shift_of_unmarked (fun b mem => h b (List.mem_cons_of_mem _ mem)) d)

theorem Nesting.map_shift_of_unmarked {marks : List Bool} (h : Unmarked marks) (depth : Option Nat) :
    depth = depth.map (shift marks) := by
  cases depth with
  | none => rfl
  | some d => rw [Option.map_some, shift_of_unmarked h]

section

open Nesting (map_shift_of_unmarked)

mutual

theorem Expr.nested_self : ∀ {marks : List Bool} (e : Expr), Unmarked marks →
    Expr.Nested marks e e
  | _, .literal value, _ => .literal value
  | _, .group inner, h => .group (Expr.nested_self inner h)
  | _, .unary op right, h => .unary op (Expr.nested_self right h)
  | _, .binary left op right, h => .binary op (Expr.nested_self left h) (Expr.nested_self right h)
  | _, .logical left op right, h => .logical op (Expr.nested_self left h) (Expr.nested_self right h)
  | _, .ternary a b c, h =>
    .ternary (Expr.nested_self a h) (Expr.nested_self b h) (Expr.nested_self c h)
  | _, .variable name depth, h => .variable name (map_shift_of_unmarked h depth)
  | _, .this keyword depth, h => .this keyword (map_shift_of_unmarked h depth)
  | _, .assign name value depth, h =>
    .assign name (Expr.nested_self value h) (map_shift_of_unmarked h depth)
  | _, .call callee paren arguments, h =>
    .call paren (Expr.nested_self callee h) (Expr.allNested_self arguments h)
  | _, .property object name, h => .property name (Expr.nested_self object h)
  | _, .setProperty object name value, h =>
    .setProperty name (Expr.nested_self object h) (Expr.nested_self value h)
  | _, .lambda code, h => .lambda (Function.nested_self code h)

theorem Expr.allNested_self : ∀ {marks : List Bool} (es : List Expr), Unmarked marks →
    Expr.AllNested marks es es
  | _, [], _ => .nil
  | _, e :: es, h => .cons (Expr.nested_self e h) (Expr.allNested_self es h)

/-- Where nothing is marked, a statement stands in this relation to itself. -/
theorem Stmt.nested_self : ∀ {marks : List Bool} (s : Stmt), Unmarked marks →
    Stmt.Nested marks s s
  | _, .expression value, h => .bare (.expression (Expr.nested_self value h))
  | _, .print value, h => .bare (.print (Expr.nested_self value h))
  | _, .declare d, h => .declare h.head (Declarator.nested_self d h)
  | _, .declareAll ds, h => .declareAll h.head (Declarator.allNested_self ds h)
  | _, .block body, h => .bare (.block (Stmt.allNested_self body h.cons))
  | _, .conditional condition whenTrue none, h =>
    .bare (.onlyIf (Expr.nested_self condition h) (Stmt.nested_self whenTrue h))
  | _, .conditional condition whenTrue (some whenFalse), h =>
    .bare (.orElse (Expr.nested_self condition h) (Stmt.nested_self whenTrue h)
      (Stmt.nested_self whenFalse h))
  | _, .loop condition body, h =>
    .bare (.loop (Expr.nested_self condition h) (Stmt.nested_self body h))
  | _, .declareFunction code, h => .declareFunction h.head (Function.nested_self code h)
  | _, .returns keyword none, _ => .bare (.returns keyword)
  | _, .returns keyword (some value), h => .bare (.returnsValue keyword (Expr.nested_self value h))
  | _, .declareClass name methods statics, h =>
    .declareClass name h.head (Function.allNested_self methods h.cons)
      (Function.allNested_self statics h.cons)

theorem Stmt.allNested_self : ∀ {marks : List Bool} (ss : List Stmt), Unmarked marks →
    Stmt.AllNested marks ss ss
  | _, [], _ => .nil
  | _, s :: ss, h => .cons (Stmt.nested_self s h) (Stmt.allNested_self ss h)

theorem Declarator.nested_self : ∀ {marks : List Bool} (d : Declarator), Unmarked marks →
    Declarator.Nested marks d d
  | _, ⟨name, none⟩, _ => .plain name
  | _, ⟨name, some initial⟩, h => .initialized name (Expr.nested_self initial h)

theorem Declarator.allNested_self : ∀ {marks : List Bool} (ds : List Declarator),
    Unmarked marks → Declarator.AllNested marks ds ds
  | _, [], _ => .nil
  | _, d :: ds, h => .cons (Declarator.nested_self d h) (Declarator.allNested_self ds h)

/-- Where nothing is marked, a function stands in this relation to itself. -/
theorem Function.nested_self : ∀ {marks : List Bool} (f : Function), Unmarked marks →
    Function.Nested marks f f
  | _, ⟨name, params, body⟩, h => .code name params (Stmt.allNested_self body h.cons)

theorem Function.allNested_self : ∀ {marks : List Bool} (fs : List Function), Unmarked marks →
    Function.AllNested marks fs fs
  | _, [], _ => .nil
  | _, f :: fs, h => .cons (Function.nested_self f h) (Function.allNested_self fs h)

end

end

end LoxLang
