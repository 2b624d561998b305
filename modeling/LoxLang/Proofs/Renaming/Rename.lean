import LoxLang.Proofs.Renaming.Twins
import LoxLang.Proofs.Resolution.Distinct
/-!
A program in which one local variable is given another name. The variable is known by the scope it
is declared in and by its name there; the scope is a block or a function, and is known by the way
that leads to it from the program as a whole (`siteAt`). The walk over the names has given every
occurrence the distance to the scope that binds it, so the occurrences of the variable are those
whose distance leads to its scope. They are renamed together with the declaration; the distances
are taken out again, so that the outcome is a program as the parser makes it.
-/
namespace LoxLang

/-- The site that a way leads to; the last step stands first. -/
def siteAt (program : List Stmt) (way : List Nat) : Site :=
  way.foldr (fun i p => p.child i) (Site.root program)

/-- A local variable and another name for it. -/
structure Renaming where
  /-- The way to the block or function in which the variable is declared. -/
  scope : List Nat
  old : String
  new : String
  deriving DecidableEq, Repr

/-- A name in a scope, if the mark is set the scope of the variable. -/
def Renaming.token (ρ : Renaming) (mark : Bool) (t : Token) : Token :=
  if mark && t.lexeme == ρ.old then { t with lexeme := ρ.new } else t

mutual

/-- Renames the variable in an expression with distances, at the place `here`. The marks say which
of the open scopes is that of the variable. -/
def Expr.rename (ρ : Renaming) (marks : List Bool) (here : List Nat) : Expr → Expr
  | .literal value => .literal value
  | .group inner => .group (inner.rename ρ marks (0 :: here))
  | .unary op right => .unary op (right.rename ρ marks (0 :: here))
  | .binary left op right =>
    .binary (left.rename ρ marks (0 :: here)) op (right.rename ρ marks (1 :: here))
  | .logical left op right =>
    .logical (left.rename ρ marks (0 :: here)) op (right.rename ρ marks (1 :: here))
  | .ternary condition whenTrue whenFalse =>
    .ternary (condition.rename ρ marks (0 :: here)) (whenTrue.rename ρ marks (1 :: here))
      (whenFalse.rename ρ marks (2 :: here))
  | .variable name depth => .variable (ρ.token (Exchange.mark marks depth) name) none
  | .this keyword _ => .this keyword none
  | .assign name value depth =>
    .assign (ρ.token (Exchange.mark marks depth) name) (value.rename ρ marks (0 :: here)) none
  | .call callee paren arguments =>
    .call (callee.rename ρ marks (0 :: here)) paren (Expr.renameAll ρ marks (1 :: here) arguments)
  | .property object name => .property (object.rename ρ marks (0 :: here)) name
  | .setProperty object name value =>
    .setProperty (object.rename ρ marks (0 :: here)) name (value.rename ρ marks (1 :: here))
  | .lambda code => .lambda (code.rename ρ marks (0 :: here))

def Expr.renameAll (ρ : Renaming) (marks : List Bool) (here : List Nat) : List Expr → List Expr
  | [] => []
  | e :: es => e.rename ρ marks (0 :: here) :: Expr.renameAll ρ marks (1 :: here) es

def Stmt.rename (ρ : Renaming) (marks : List Bool) (here : List Nat) : Stmt → Stmt
  | .expression value => .expression (value.rename ρ marks (0 :: here))
  | .print value => .print (value.rename ρ marks (0 :: here))
  | .declare d => .declare (d.rename ρ marks (0 :: 0 :: here))
  | .declareAll ds => .declareAll (Declarator.renameAll ρ marks (0 :: here) ds)
  | .block body =>
    .block (Stmt.renameAll ρ ((here == ρ.scope) :: marks) (0 :: here) body)
  | .conditional condition whenTrue none =>
    .conditional (condition.rename ρ marks (0 :: here)) (whenTrue.rename ρ marks (1 :: here)) none
  | .conditional condition whenTrue (some whenFalse) =>
    .conditional (condition.rename ρ marks (0 :: here)) (whenTrue.rename ρ marks (1 :: here))
      (some (whenFalse.rename ρ marks (2 :: here)))
  | .loop condition body =>
    .loop (condition.rename ρ marks (0 :: here)) (body.rename ρ marks (1 :: here))
  | .declareFunction code => .declareFunction (code.rename ρ marks (0 :: here))
  | .returns keyword none => .returns keyword none
  | .returns keyword (some value) => .returns keyword (some (value.rename ρ marks (0 :: here)))
  | .declareClass name methods statics =>
    .declareClass name (Function.renameAll ρ (false :: marks) (0 :: here) methods)
      (Function.renameAll ρ (false :: marks) (1 :: here) statics)

def Stmt.renameAll (ρ : Renaming) (marks : List Bool) (here : List Nat) : List Stmt → List Stmt
  | [] => []
  | s :: ss => s.rename ρ marks (0 :: here) :: Stmt.renameAll ρ marks (1 :: here) ss

/-- Renames the variable where it is declared and in its first value, at the place `here`. -/
def Declarator.rename (ρ : Renaming) (marks : List Bool) (here : List Nat) :
    Declarator → Declarator
  | ⟨name, none⟩ => ⟨ρ.token (marks.headD false) name, none⟩
  | ⟨name, some initial⟩ =>
    ⟨ρ.token (marks.headD false) name, some (initial.rename ρ marks here)⟩

def Declarator.renameAll (ρ : Renaming) (marks : List Bool) (here : List Nat) :
    List Declarator → List Declarator
  | [] => []
  | d :: ds => d.rename ρ marks (0 :: here) :: Declarator.renameAll ρ marks (1 :: here) ds

/-- Renames the variable in a function, which may be its scope. -/
def Function.rename (ρ : Renaming) (marks : List Bool) (here : List Nat) : Function → Function
  | ⟨name, params, body⟩ =>
    ⟨name, params.map (ρ.token (here == ρ.scope)),
      Stmt.renameAll ρ ((here == ρ.scope) :: marks) (0 :: here) body⟩

def Function.renameAll (ρ : Renaming) (marks : List Bool) (here : List Nat) :
    List Function → List Function
  | [] => []
  | f :: fs => f.rename ρ marks (0 :: here) :: Function.renameAll ρ marks (1 :: here) fs

end

/-- The program with the variable renamed. -/
def Renaming.apply (ρ : Renaming) (program : List Stmt) : List Stmt :=
  Stmt.renameAll ρ [] [] (Resolution.ofProgram program).1

/-! Variables and names of a program -/

namespace Part

def params : Part → List Token
  | function code => code.params
  | _ => []

def body : Part → List Stmt
  | statement (.block body) => body
  | function code => code.body
  | _ => []

/-- The variables and parameters that are declared in a scope. -/
def locals (part : Part) : List Token := part.params ++ part.body.flatMap Stmt.locals

end Part

/-- The variable to be renamed is declared in its scope. -/
def Renaming.Declared (ρ : Renaming) (program : List Stmt) : Prop :=
  ∃ t ∈ (siteAt program ρ.scope).part.locals, t.lexeme = ρ.old

instance (ρ : Renaming) (program : List Stmt) : Decidable (ρ.Declared program) :=
  inferInstanceAs
    (Decidable (∃ t ∈ (siteAt program ρ.scope).part.locals, t.lexeme = ρ.old))

mutual

/-- The names of the variables, parameters, functions and classes that occur in an expression. -/
def Expr.names : Expr → List String
  | .literal _ => []
  | .group inner => inner.names
  | .unary _ right => right.names
  | .binary left _ right => left.names ++ right.names
  | .logical left _ right => left.names ++ right.names
  | .ternary condition whenTrue whenFalse =>
    condition.names ++ (whenTrue.names ++ whenFalse.names)
  | .variable name _ => [name.lexeme]
  | .this _ _ => []
  | .assign name value _ => name.lexeme :: value.names
  | .call callee _ arguments => callee.names ++ Expr.allNames arguments
  | .property object _ => object.names
  | .setProperty object _ value => object.names ++ value.names
  | .lambda code => code.names

def Expr.allNames : List Expr → List String
  | [] => []
  | e :: es => e.names ++ Expr.allNames es

def Stmt.names : Stmt → List String
  | .expression value => value.names
  | .print value => value.names
  | .declare d => d.names
  | .declareAll ds => Declarator.allNames ds
  | .block body => Stmt.allNames body
  | .conditional condition whenTrue none => condition.names ++ whenTrue.names
  | .conditional condition whenTrue (some whenFalse) =>
    condition.names ++ (whenTrue.names ++ whenFalse.names)
  | .loop condition body => condition.names ++ body.names
  | .declareFunction code => code.name.lexeme :: code.names
  | .returns _ none => []
  | .returns _ (some value) => value.names
  | .declareClass name methods statics =>
    name.lexeme :: (Function.allNames methods ++ Function.allNames statics)

def Stmt.allNames : List Stmt → List String
  | [] => []
  | s :: ss => s.names ++ Stmt.allNames ss

def Declarator.names : Declarator → List String
  | ⟨name, none⟩ => [name.lexeme]
  | ⟨name, some initial⟩ => name.lexeme :: initial.names

def Declarator.allNames : List Declarator → List String
  | [] => []
  | d :: ds => d.names ++ Declarator.allNames ds

/-- The names of the parameters of a function and those in its body. -/
def Function.names : Function → List String
  | ⟨_, params, body⟩ => params.map (·.lexeme) ++ Stmt.allNames body

def Function.allNames : List Function → List String
  | [] => []
  | f :: fs => f.names ++ Function.allNames fs

end

end LoxLang
