import LoxLang.Proofs.Renaming.Twins
/-!
A local variable that is taken out of a program. Where it is declared its first value stays, as an
expression of its own; a statement with several declarators is split for that.

`Pared` relates what the walk made of the program to what it made of the program without the variable:
nothing that is left reads the variable or gives it a value, and no distance has changed. `marks` holds
one mark for each open scope, the innermost first, and marks the scope of the variable.

What is proved: a program with no marked scope around it stands in this relation to itself
(`Stmt.pared_self` and its siblings).
-/
namespace LoxLang

/-- A local variable. -/
structure Surplus where
  /-- The way to the block or function in which it is declared. -/
  scope : List Nat
  name : String
  deriving DecidableEq, Repr

/-! Programs without the variable -/

/-- A declarator in a statement of its own, or its first value if it declares this name. -/
def Declarator.without (x : String) (d : Declarator) : List Stmt :=
  if d.name.lexeme = x then d.initial.toList.map Stmt.expression else [.declare d]

/-- What is left of a statement in the scope of the variable. A statement with several declarators is
split if one of them declares the variable. -/
def Stmt.without (x : String) : Stmt → List Stmt
  | .declare d => d.without x
  | .declareAll ds =>
    if ds.any (fun d => d.name.lexeme == x) then ds.flatMap (Declarator.without x)
    else [.declareAll ds]
  | s => [s]

mutual

/-- Takes the variable out of an expression; `here` is the way to the expression. -/
def Expr.pare (v : Surplus) (here : List Nat) : Expr → Expr
  | .literal value => .literal value
  | .group inner => .group (inner.pare v (0 :: here))
  | .unary op right => .unary op (right.pare v (0 :: here))
  | .binary left op right => .binary (left.pare v (0 :: here)) op (right.pare v (1 :: here))
  | .logical left op right => .logical (left.pare v (0 :: here)) op (right.pare v (1 :: here))
  | .ternary condition whenTrue whenFalse =>
    .ternary (condition.pare v (0 :: here)) (whenTrue.pare v (1 :: here))
      (whenFalse.pare v (2 :: here))
  | .variable name depth => .variable name depth
  | .this keyword depth => .this keyword depth
  | .assign name value depth => .assign name (value.pare v (0 :: here)) depth
  | .call callee paren arguments =>
    .call (callee.pare v (0 :: here)) paren (Expr.pareAll v (1 :: here) arguments)
  | .property object name => .property (object.pare v (0 :: here)) name
  | .setProperty object name value =>
    .setProperty (object.pare v (0 :: here)) name (value.pare v (1 :: here))
  | .lambda code => .lambda (code.pare v (0 :: here))

def Expr.pareAll (v : Surplus) (here : List Nat) : List Expr → List Expr
  | [] => []
  | e :: es => e.pare v (0 :: here) :: Expr.pareAll v (1 :: here) es

/-- Takes the variable out of the scopes in a statement. -/
def Stmt.pare (v : Surplus) (here : List Nat) : Stmt → Stmt
  | .expression value => .expression (value.pare v (0 :: here))
  | .print value => .print (value.pare v (0 :: here))
  | .declare d => .declare (d.pare v (0 :: 0 :: here))
  | .declareAll ds => .declareAll (Declarator.pareAll v (0 :: here) ds)
  | .block body => .block (Stmt.pareAll v (here == v.scope) (0 :: here) body)
  | .conditional condition whenTrue none =>
    .conditional (condition.pare v (0 :: here)) (whenTrue.pare v (1 :: here)) none
  | .conditional condition whenTrue (some whenFalse) =>
    .conditional (condition.pare v (0 :: here)) (whenTrue.pare v (1 :: here))
      (some (whenFalse.pare v (2 :: here)))
  | .loop condition body => .loop (condition.pare v (0 :: here)) (body.pare v (1 :: here))
  | .declareFunction code => .declareFunction (code.pare v (0 :: here))
  | .returns keyword none => .returns keyword none
  | .returns keyword (some value) => .returns keyword (some (value.pare v (0 :: here)))
  | .declareClass name methods statics =>
    .declareClass name (Function.pareAll v (0 :: here) methods)
      (Function.pareAll v (1 :: here) statics)

/-- Takes the variable out of statements; `own` tells whether they stand in its scope. -/
def Stmt.pareAll (v : Surplus) (own : Bool) (here : List Nat) : List Stmt → List Stmt
  | [] => []
  | s :: ss =>
    let s := s.pare v (0 :: here)
    (if own then s.without v.name else [s]) ++ Stmt.pareAll v own (1 :: here) ss

/-- Takes the variable out of a first value; `here` is the way to the value. -/
def Declarator.pare (v : Surplus) (here : List Nat) : Declarator → Declarator
  | ⟨name, none⟩ => ⟨name, none⟩
  | ⟨name, some initial⟩ => ⟨name, some (initial.pare v here)⟩

def Declarator.pareAll (v : Surplus) (here : List Nat) : List Declarator → List Declarator
  | [] => []
  | d :: ds => d.pare v (0 :: here) :: Declarator.pareAll v (1 :: here) ds

/-- Takes the variable out of a function, which may be its scope. -/
def Function.pare (v : Surplus) (here : List Nat) : Function → Function
  | ⟨name, params, body⟩ => ⟨name, params, Stmt.pareAll v (here == v.scope) (0 :: here) body⟩

def Function.pareAll (v : Surplus) (here : List Nat) : List Function → List Function
  | [] => []
  | f :: fs => f.pare v (0 :: here) :: Function.pareAll v (1 :: here) fs

end

/-- The program without the variable. -/
def Surplus.apply (v : Surplus) (program : List Stmt) : List Stmt := Stmt.pareAll v false [] program

/-! Programs with distances -/

/-- A name that is not the one of the variable, if the mark is set. -/
def Token.Spares (x : String) (mark : Bool) (t : Token) : Prop := mark = true → t.lexeme ≠ x

mutual

/-- Expressions of which the second one may lack the variable in scopes inside. -/
inductive Expr.Pared (x : String) : List Bool → Expr → Expr → Prop
  | literal {marks} (value : Literal) : Expr.Pared x marks (.literal value) (.literal value)
  | group {marks inner inner'} : Expr.Pared x marks inner inner' →
    Expr.Pared x marks (.group inner) (.group inner')
  | unary {marks right right'} (op : Token) : Expr.Pared x marks right right' →
    Expr.Pared x marks (.unary op right) (.unary op right')
  | binary {marks left left' right right'} (op : Token) : Expr.Pared x marks left left' →
    Expr.Pared x marks right right' →
    Expr.Pared x marks (.binary left op right) (.binary left' op right')
  | logical {marks left left' right right'} (op : Token) : Expr.Pared x marks left left' →
    Expr.Pared x marks right right' →
    Expr.Pared x marks (.logical left op right) (.logical left' op right')
  | ternary {marks a a' b b' c c'} : Expr.Pared x marks a a' → Expr.Pared x marks b b' →
    Expr.Pared x marks c c' → Expr.Pared x marks (.ternary a b c) (.ternary a' b' c')
  | variable {marks depth} (name : Token) : name.Spares x (Exchange.mark marks depth) →
    Expr.Pared x marks (.variable name depth) (.variable name depth)
  | this {marks depth} (keyword : Token) : keyword.Spares x (Exchange.mark marks depth) →
    Expr.Pared x marks (.this keyword depth) (.this keyword depth)
  | assign {marks value value' depth} (name : Token) : Expr.Pared x marks value value' →
    name.Spares x (Exchange.mark marks depth) →
    Expr.Pared x marks (.assign name value depth) (.assign name value' depth)
  | call {marks callee callee' arguments arguments'} (paren : Token) :
    Expr.Pared x marks callee callee' → Expr.AllPared x marks arguments arguments' →
    Expr.Pared x marks (.call callee paren arguments) (.call callee' paren arguments')
  | property {marks object object'} (name : Token) : Expr.Pared x marks object object' →
    Expr.Pared x marks (.property object name) (.property object' name)
  | setProperty {marks object object' value value'} (name : Token) :
    Expr.Pared x marks object object' → Expr.Pared x marks value value' →
    Expr.Pared x marks (.setProperty object name value) (.setProperty object' name value')
  | lambda {marks code code'} : Function.Pared x marks code code' →
    Expr.Pared x marks (.lambda code) (.lambda code')

inductive Expr.AllPared (x : String) : List Bool → List Expr → List Expr → Prop
  | nil {marks} : Expr.AllPared x marks [] []
  | cons {marks e e' es es'} : Expr.Pared x marks e e' → Expr.AllPared x marks es es' →
    Expr.AllPared x marks (e :: es) (e' :: es')

/-- Statements that declare the same names. -/
inductive Stmt.Pared (x : String) : List Bool → Stmt → Stmt → Prop
  | expression {marks value value'} : Expr.Pared x marks value value' →
    Stmt.Pared x marks (.expression value) (.expression value')
  | print {marks value value'} : Expr.Pared x marks value value' →
    Stmt.Pared x marks (.print value) (.print value')
  | declare {marks d d'} : Declarator.Pared x marks d d' →
    Stmt.Pared x marks (.declare d) (.declare d')
  | declareAll {marks ds ds'} : Declarator.AllPared x marks ds ds' →
    Stmt.Pared x marks (.declareAll ds) (.declareAll ds')
  | block {marks body body'} (mark : Bool) : Stmt.AllPared x (mark :: marks) true body body' →
    Stmt.Pared x marks (.block body) (.block body')
  | onlyIf {marks condition condition' whenTrue whenTrue'} :
    Expr.Pared x marks condition condition' → Stmt.Pared x marks whenTrue whenTrue' →
    Stmt.Pared x marks (.conditional condition whenTrue none)
      (.conditional condition' whenTrue' none)
  | orElse {marks condition condition' whenTrue whenTrue' whenFalse whenFalse'} :
    Expr.Pared x marks condition condition' → Stmt.Pared x marks whenTrue whenTrue' →
    Stmt.Pared x marks whenFalse whenFalse' →
    Stmt.Pared x marks (.conditional condition whenTrue (some whenFalse))
      (.conditional condition' whenTrue' (some whenFalse'))
  | loop {marks condition condition' body body'} : Expr.Pared x marks condition condition' →
    Stmt.Pared x marks body body' →
    Stmt.Pared x marks (.loop condition body) (.loop condition' body')
  | declareFunction {marks code code'} : Function.Pared x marks code code' →
    Stmt.Pared x marks (.declareFunction code) (.declareFunction code')
  | returns {marks} (keyword : Token) :
    Stmt.Pared x marks (.returns keyword none) (.returns keyword none)
  | returnsValue {marks value value'} (keyword : Token) : Expr.Pared x marks value value' →
    Stmt.Pared x marks (.returns keyword (some value)) (.returns keyword (some value'))
  | declareClass {marks methods methods' statics statics'} (name : Token) :
    Function.AllPared x (false :: marks) methods methods' →
    Function.AllPared x (false :: marks) statics statics' →
    Stmt.Pared x marks (.declareClass name methods statics) (.declareClass name methods' statics')

/-- Statements of one scope; `may` tells whether the variable may be declared in them. It is declared
once at most. -/
inductive Stmt.AllPared (x : String) : List Bool → Bool → List Stmt → List Stmt → Prop
  | nil {marks} (may : Bool) : Stmt.AllPared x marks may [] []
  | cons {marks may s s' ss ss'} : Stmt.Pared x marks s s' → Stmt.AllPared x marks may ss ss' →
    Stmt.AllPared x marks may (s :: ss) (s' :: ss')
  | dropped {marks s left ss ss'} : marks.headD false = true → Stmt.Left x marks s left →
    Stmt.AllPared x marks false ss ss' → Stmt.AllPared x marks true (s :: ss) (left ++ ss')

/-- The statement that declares the variable, and what is left of it. -/
inductive Stmt.Left (x : String) : List Bool → Stmt → List Stmt → Prop
  | declare {marks d left} : Declarator.Left x marks d left → Stmt.Left x marks (.declare d) left
  | declareAll {marks ds left} : Declarator.Divided x marks true ds left →
    Stmt.Left x marks (.declareAll ds) left

inductive Declarator.Pared (x : String) : List Bool → Declarator → Declarator → Prop
  | plain {marks} (name : Token) : Declarator.Pared x marks ⟨name, none⟩ ⟨name, none⟩
  | initialized {marks initial initial'} (name : Token) : Expr.Pared x marks initial initial' →
    Declarator.Pared x marks ⟨name, some initial⟩ ⟨name, some initial'⟩

inductive Declarator.AllPared (x : String) : List Bool → List Declarator → List Declarator → Prop
  | nil {marks} : Declarator.AllPared x marks [] []
  | cons {marks d d' ds ds'} : Declarator.Pared x marks d d' → Declarator.AllPared x marks ds ds' →
    Declarator.AllPared x marks (d :: ds) (d' :: ds')

/-- The declarator of the variable, and what is left of it. -/
inductive Declarator.Left (x : String) : List Bool → Declarator → List Stmt → Prop
  | nothing {marks} {name : Token} : name.lexeme = x → Declarator.Left x marks ⟨name, none⟩ []
  | value {marks initial initial'} {name : Token} : name.lexeme = x →
    Expr.Pared x marks initial initial' →
    Declarator.Left x marks ⟨name, some initial⟩ [.expression initial']

/-- Declarators, and statements that declare all but the variable. -/
inductive Declarator.Divided (x : String) :
    List Bool → Bool → List Declarator → List Stmt → Prop
  | nil {marks} (may : Bool) : Declarator.Divided x marks may [] []
  | kept {marks may d d' ds left} : Declarator.Pared x marks d d' →
    Declarator.Divided x marks may ds left →
    Declarator.Divided x marks may (d :: ds) (.declare d' :: left)
  | dropped {marks d ds left left'} : Declarator.Left x marks d left →
    Declarator.Divided x marks false ds left' →
    Declarator.Divided x marks true (d :: ds) (left ++ left')

/-- Functions of which the second one may lack the variable. -/
inductive Function.Pared (x : String) : List Bool → Function → Function → Prop
  | code {marks body body'} (name : Token) (params : List Token) (mark : Bool) :
    Stmt.AllPared x (mark :: marks) true body body' →
    Function.Pared x marks ⟨name, params, body⟩ ⟨name, params, body'⟩

inductive Function.AllPared (x : String) : List Bool → List Function → List Function → Prop
  | nil {marks} : Function.AllPared x marks [] []
  | cons {marks f f' fs fs'} : Function.Pared x marks f f' → Function.AllPared x marks fs fs' →
    Function.AllPared x marks (f :: fs) (f' :: fs')

end

/-! Every program stands in this relation to itself -/

section

variable {x : String}

theorem Token.spares_at {marks : List Bool} (h : Unmarked marks) (t : Token) (depth : Option Nat) :
    t.Spares x (Exchange.mark marks depth) := by
  rw [Exchange.mark_of_unmarked h]
  exact nofun

mutual

theorem Expr.pared_self : ∀ {marks : List Bool} (e : Expr), Unmarked marks → Expr.Pared x marks e e
  | _, .literal value, _ => .literal value
  | _, .group inner, h => .group (Expr.pared_self inner h)
  | _, .unary op right, h => .unary op (Expr.pared_self right h)
  | _, .binary left op right, h => .binary op (Expr.pared_self left h) (Expr.pared_self right h)
  | _, .logical left op right, h => .logical op (Expr.pared_self left h) (Expr.pared_self right h)
  | _, .ternary a b c, h =>
    .ternary (Expr.pared_self a h) (Expr.pared_self b h) (Expr.pared_self c h)
  | _, .variable name depth, h => .variable name (name.spares_at h depth)
  | _, .this keyword depth, h => .this keyword (keyword.spares_at h depth)
  | _, .assign name value depth, h => .assign name (Expr.pared_self value h) (name.spares_at h depth)
  | _, .call callee paren arguments, h =>
    .call paren (Expr.pared_self callee h) (Expr.allPared_self arguments h)
  | _, .property object name, h => .property name (Expr.pared_self object h)
  | _, .setProperty object name value, h =>
    .setProperty name (Expr.pared_self object h) (Expr.pared_self value h)
  | _, .lambda code, h => .lambda (Function.pared_self code h)

theorem Expr.allPared_self : ∀ {marks : List Bool} (es : List Expr), Unmarked marks →
    Expr.AllPared x marks es es
  | _, [], _ => .nil
  | _, e :: es, h => .cons (Expr.pared_self e h) (Expr.allPared_self es h)

/-- Where nothing is marked, a statement stands in this relation to itself. -/
theorem Stmt.pared_self : ∀ {marks : List Bool} (s : Stmt), Unmarked marks → Stmt.Pared x marks s s
  | _, .expression value, h => .expression (Expr.pared_self value h)
  | _, .print value, h => .print (Expr.pared_self value h)
  | _, .declare d, h => .declare (Declarator.pared_self d h)
  | _, .declareAll ds, h => .declareAll (Declarator.allPared_self ds h)
  | _, .block body, h => .block false (Stmt.allPared_self true body h.cons)
  | _, .conditional condition whenTrue none, h =>
    .onlyIf (Expr.pared_self condition h) (Stmt.pared_self whenTrue h)
  | _, .conditional condition whenTrue (some whenFalse), h =>
    .orElse (Expr.pared_self condition h) (Stmt.pared_self whenTrue h) (Stmt.pared_self whenFalse h)
  | _, .loop condition body, h => .loop (Expr.pared_self condition h) (Stmt.pared_self body h)
  | _, .declareFunction code, h =>
    .declareFunction (Function.pared_self code h)
  | _, .returns keyword none, _ => .returns keyword
  | _, .returns keyword (some value), h => .returnsValue keyword (Expr.pared_self value h)
  | _, .declareClass name methods statics, h =>
    .declareClass name (Function.allPared_self methods h.cons) (Function.allPared_self statics h.cons)

theorem Stmt.allPared_self : ∀ {marks : List Bool} (may : Bool) (ss : List Stmt), Unmarked marks →
    Stmt.AllPared x marks may ss ss
  | _, may, [], _ => .nil may
  | _, may, s :: ss, h => .cons (Stmt.pared_self s h) (Stmt.allPared_self may ss h)

theorem Declarator.pared_self : ∀ {marks : List Bool} (d : Declarator), Unmarked marks →
    Declarator.Pared x marks d d
  | _, ⟨name, none⟩, _ => .plain name
  | _, ⟨name, some initial⟩, h => .initialized name (Expr.pared_self initial h)

theorem Declarator.allPared_self : ∀ {marks : List Bool} (ds : List Declarator), Unmarked marks →
    Declarator.AllPared x marks ds ds
  | _, [], _ => .nil
  | _, d :: ds, h => .cons (Declarator.pared_self d h) (Declarator.allPared_self ds h)

/-- Where nothing is marked, a function stands in this relation to itself. -/
theorem Function.pared_self : ∀ {marks : List Bool} (f : Function), Unmarked marks →
    Function.Pared x marks f f
  | _, ⟨name, params, body⟩, h => .code name params false (Stmt.allPared_self true body h.cons)

theorem Function.allPared_self : ∀ {marks : List Bool} (fs : List Function), Unmarked marks →
    Function.AllPared x marks fs fs
  | _, [], _ => .nil
  | _, f :: fs, h => .cons (Function.pared_self f h) (Function.allPared_self fs h)

end

end

end LoxLang
