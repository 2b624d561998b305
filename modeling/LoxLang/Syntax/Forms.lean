import LoxLang.Decimal.Layout
import LoxLang.Syntax
/-!
Expressions written without precedence: in `prefixForm` every operator stands in parentheses in
front of its operands, in `postfixForm` it stands behind them and nothing is in parentheses.
-/
namespace LoxLang

/-- In both forms a whole number has all its digits and no point. -/
def Literal.numberLayout : Decimal.Layout :=
  ⟨"NaN", "inf", "-inf", true, true, "", .up, none⟩

/-- A constant in both forms; a string has no quotes. -/
def Literal.text : Literal → String
  | .nil => "nil"
  | .bool true => "true"
  | .bool false => "false"
  | .number x => numberLayout.render x
  | .string s => s

namespace Expr

mutual

/-- An expression with every operator in front of its operands. -/
def prefixForm : Expr → String
  | .literal value => value.text
  | .group inner => "(group " ++ inner.prefixForm ++ ")"
  | .unary op right => "(" ++ op.lexeme ++ " " ++ right.prefixForm ++ ")"
  | .binary left op right
  | .logical left op right =>
    "(" ++ op.lexeme ++ " " ++ left.prefixForm ++ " " ++ right.prefixForm ++ ")"
  | .ternary condition whenTrue whenFalse =>
    "(?: " ++ condition.prefixForm ++ " " ++ whenTrue.prefixForm ++ " " ++ whenFalse.prefixForm
      ++ ")"
  | .variable name _ => name.lexeme
  | .this _ _ => "this"
  | .assign name value _ => "(= " ++ name.lexeme ++ " " ++ value.prefixForm ++ ")"
  | .call callee _ arguments => "(call " ++ callee.prefixForm ++ prefixForms arguments ++ ")"
  | .property object name => "(. " ++ object.prefixForm ++ " " ++ name.lexeme ++ ")"
  | .setProperty object name value =>
    "(= (. " ++ object.prefixForm ++ " " ++ name.lexeme ++ ") " ++ value.prefixForm ++ ")"
  | .lambda code =>
    "(lambda (" ++ String.intercalate " " (code.params.map Token.lexeme) ++ "))"

def prefixForms : List Expr → String
  | [] => ""
  | e :: es => " " ++ e.prefixForm ++ prefixForms es

end

/-- The sign of a unary operator in postfix form; that of negation differs from a difference. -/
def unarySign (op : Token) : String := if op.lexeme == "-" then "~" else "!"

/-- An expression with every operator behind its operands. Groups leave no trace, and what is
neither operand nor operator is written in prefix form. -/
def postfixForm : Expr → String
  | .literal value => value.text
  | .group inner => inner.postfixForm
  | .unary op right => right.postfixForm ++ " " ++ unarySign op
  | .binary left op right
  | .logical left op right => left.postfixForm ++ " " ++ right.postfixForm ++ " " ++ op.lexeme
  | .variable name _ => name.lexeme
  | e => e.prefixForm

end Expr

end LoxLang
