import LoxLang.Token
/-!
Programs as trees. A node that names a variable has room for its distance: how many scopes lie
between the occurrence and the scope that binds the name; no distance means a global. Nodes keep
the tokens that runtime errors point at.
-/
namespace LoxLang

inductive Literal where
  | nil
  | bool (b : Bool)
  | number (x : Float)
  | string (s : String)
  deriving DecidableEq

mutual

inductive Expr where
  | literal (value : Literal)
  | group (inner : Expr)
  | unary (op : Token) (right : Expr)
  | binary (left : Expr) (op : Token) (right : Expr)
  | logical (left : Expr) (op : Token) (right : Expr)
  | ternary (condition whenTrue whenFalse : Expr)
  | variable (name : Token) (depth : Option Nat)
  | this (keyword : Token) (depth : Option Nat)
  | assign (name : Token) (value : Expr) (depth : Option Nat)
  /-- A call; `paren` is its closing parenthesis. -/
  | call (callee : Expr) (paren : Token) (arguments : List Expr)
  | property (object : Expr) (name : Token)
  | setProperty (object : Expr) (name : Token) (value : Expr)
  /-- A function without a name; its `name` is the keyword it begins with. -/
  | lambda (code : Function)

/-- Statements and declarations. A program is a list of them. -/
inductive Stmt where
  | expression (value : Expr)
  | print (value : Expr)
  | declare (declarator : Declarator)
  /-- Several declarators after one `var`. -/
  | declareAll (declarators : List Declarator)
  | block (body : List Stmt)
  | conditional (condition : Expr) (whenTrue : Stmt) (whenFalse : Option Stmt)
  | loop (condition : Expr) (body : Stmt)
  | declareFunction (code : Function)
  | returns (keyword : Token) (value : Option Expr)
  | declareClass (name : Token) (methods : List Function) (statics : List Function)

/-- The name, the parameters and the body of a function or method. -/
structure Function where
  name : Token
  params : List Token
  body : List Stmt

/-- A variable and the expression it begins with, if it has one. -/
structure Declarator where
  name : Token
  initial : Option Expr

end

instance : Inhabited Expr := ⟨.literal .nil⟩

instance : Inhabited Stmt := ⟨.block []⟩

end LoxLang
