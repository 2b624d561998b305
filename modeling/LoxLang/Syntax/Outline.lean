import LoxLang.Decimal.Layout
import LoxLang.Syntax
import LoxLang.Text.Quoted
/-!
Outlines of trees. An outline is one line that shows every node of a tree with its tokens, their
lines and the distances of the names.
-/
namespace LoxLang

def Token.outline (t : Token) : String := t.lexeme ++ "@" ++ toString t.line

def Token.outlines (ts : List Token) : String :=
  "(" ++ String.intercalate " " (ts.map Token.outline) ++ ")"

/-- A distance; a stroke for a global. -/
def depthOutline : Option Nat → String
  | some d => toString d
  | none => "-"

def Literal.outline : Literal → String
  | .nil => "(nil)"
  | .bool true => "(bool true)"
  | .bool false => "(bool false)"
  | .number x => "(num " ++ Decimal.plain.render x ++ ")"
  | .string s => "(str " ++ Text.jsonString s ++ ")"

mutual

def Expr.outline : Expr → String
  | .literal value => value.outline
  | .group inner => "(group " ++ inner.outline ++ ")"
  | .unary op right => "(unary " ++ op.outline ++ " " ++ right.outline ++ ")"
  | .binary left op right =>
    "(binary " ++ op.outline ++ " " ++ left.outline ++ " " ++ right.outline ++ ")"
  | .logical left op right =>
    "(logical " ++ op.outline ++ " " ++ left.outline ++ " " ++ right.outline ++ ")"
  | .ternary condition whenTrue whenFalse =>
    "(ternary " ++ condition.outline ++ " " ++ whenTrue.outline ++ " " ++ whenFalse.outline ++ ")"
  | .variable name depth => "(var " ++ name.outline ++ " " ++ depthOutline depth ++ ")"
  | .this keyword depth => "(self " ++ keyword.outline ++ " " ++ depthOutline depth ++ ")"
  | .assign name value depth =>
    "(assign " ++ name.outline ++ " " ++ depthOutline depth ++ " " ++ value.outline ++ ")"
  | .call callee paren arguments =>
    "(call " ++ paren.outline ++ " " ++ callee.outline ++ Expr.outlines arguments ++ ")"
  | .property object name => "(get " ++ name.outline ++ " " ++ object.outline ++ ")"
  | .setProperty object name value =>
    "(set " ++ name.outline ++ " " ++ object.outline ++ " " ++ value.outline ++ ")"
  | .lambda code => "(lambda " ++ code.outline ++ ")"

def Expr.outlines : List Expr → String
  | [] => ""
  | e :: es => " " ++ e.outline ++ Expr.outlines es

def Stmt.outline : Stmt → String
  | .expression value => "(expr " ++ value.outline ++ ")"
  | .print value => "(print " ++ value.outline ++ ")"
  | .declare declarator => declarator.outline
  | .declareAll declarators => "(vars" ++ Declarator.outlines declarators ++ ")"
  | .block body => "(block" ++ Stmt.outlines body ++ ")"
  | .conditional condition whenTrue none =>
    "(if " ++ condition.outline ++ " " ++ whenTrue.outline ++ ")"
  | .conditional condition whenTrue (some whenFalse) =>
    "(if " ++ condition.outline ++ " " ++ whenTrue.outline ++ " " ++ whenFalse.outline ++ ")"
  | .loop condition body => "(while " ++ condition.outline ++ " " ++ body.outline ++ ")"
  | .declareFunction code => "(fun " ++ code.outline ++ ")"
  | .returns keyword none => "(return " ++ keyword.outline ++ ")"
  | .returns keyword (some value) => "(return " ++ keyword.outline ++ " " ++ value.outline ++ ")"
  | .declareClass name methods statics =>
    "(class " ++ name.outline ++ Function.outlines "method" methods
      ++ Function.outlines "static" statics ++ ")"

def Stmt.outlines : List Stmt → String
  | [] => ""
  | s :: ss => " " ++ s.outline ++ Stmt.outlines ss

def Function.outline : Function → String
  | ⟨name, params, body⟩ => name.outline ++ " " ++ Token.outlines params ++ Stmt.outlines body

def Function.outlines (head : String) : List Function → String
  | [] => ""
  | f :: fs => " (" ++ head ++ " " ++ f.outline ++ ")" ++ Function.outlines head fs

def Declarator.outline : Declarator → String
  | ⟨name, none⟩ => "(decl " ++ name.outline ++ ")"
  | ⟨name, some initial⟩ => "(decl " ++ name.outline ++ " " ++ initial.outline ++ ")"

def Declarator.outlines : List Declarator → String
  | [] => ""
  | d :: ds => " " ++ d.outline ++ Declarator.outlines ds

end

end LoxLang
