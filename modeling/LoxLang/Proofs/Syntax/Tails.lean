import LoxLang.Syntax.Grammar
/-!
Ends of rules. Where a rule goes on in the same way whatever it has found so far, the rest of it is a reader of
its own; and so is an expression that may be missing, wherever there is one. What is shown of a rule is shown
of these readers first.

What is proved: the rules that check a number before they go on are made of them
(`Grammar.moreParams_eq`, `Grammar.moreArguments_eq`), and so is what reads an expression that stands alone
(`Expr.ofTokens_eq`).
-/
namespace LoxLang

namespace Grammar

open Parse

section

variable (last : Token)

/-- One too many of several is noted in front of it. -/
def counted {α : Type} (fault : SyntaxFault) (count : Nat) (rule : Parse α) : Parse α := do
  if maxArity ≤ count then report fault (← peek last)
  rule

def paramsFrom (n count : Nat) : Parse (List Token) := do
  let name ← expect last Token.isIdentifier .paramName
  if ← accept (Token.isSymbol .comma) then
    let names ← moreParams last n (count + 1)
    pure (name :: names)
  else pure [name]

def closeParams (names : List Token) : Parse (List Token) := do
  let _ ← expect last (Token.isSymbol .rightParen) .paramsEnd
  pure names

/-- An expression that is the body of a function without a name. -/
def valueBody (n : Nat) : Parse (List Stmt) := do
  let first ← peek last
  let value ← expression last n
  pure [.returns ⟨.keyword .return, "return", first.line⟩ (some value)]

/-- The parenthesis behind arguments, and the calls and properties that follow. -/
def closeCall (n : Nat) (callee : Expr) (values : List Expr) : Parse Expr := do
  let paren ← expect last (Token.isSymbol .rightParen) .argumentsEnd
  moreCall last n (.call callee paren values)

def argumentsFrom (n count : Nat) : Parse (List Expr) := do
  let value ← expression last n
  if ← accept (Token.isSymbol .comma) then
    let values ← moreArguments last n (count + 1)
    pure (value :: values)
  else pure [value]

/-- An expression in parentheses, where no other one begins. -/
def group (n : Nat) : Parse Expr := do
  if ← accept (Token.isSymbol .leftParen) then
    let inner ← expression last n
    let _ ← expect last (Token.isSymbol .rightParen) .groupEnd
    pure (.group inner)
  else fail last .expression

def declaratorsBehind (n : Nat) (first : Declarator) : Parse (Declarator × List Declarator) := do
  if ← accept (Token.isSymbol .comma) then
    let (second, others) ← declarators last n
    pure (first, second :: others)
  else pure (first, [])

/-- An expression that is missing if such a token comes next, and what follows. -/
def optional (n : Nat) (p : Token → Bool) {α : Type} (cont : Option Expr → Parse α) : Parse α := do
  let value ←
    if ← next p then pure none
    else
      let value ← expression last n
      pure (some value)
  cont value

/-- What is behind an expression that stands alone is noted. -/
def trailing (e : Expr) : Parse Expr := do
  if ← next (fun _ => true) then report .trailing (← peek last)
  pure e

/-- An expression that stands alone, and a semicolon behind it that may be missing. -/
def alone (n : Nat) : Parse Expr := do
  let e ← expression last n
  let _ ← accept (Token.isSymbol .semicolon)
  trailing last e

theorem moreParams_eq (n count : Nat) :
    moreParams last (n + 1) count = counted last .tooManyParams count (paramsFrom last n count) := rfl

theorem moreArguments_eq (n count : Nat) : moreArguments last (n + 1) count =
    counted last .tooManyArguments count (argumentsFrom last n count) := rfl

end

end Grammar

/-- An expression is read if it stands alone, and no fault was noted. -/
theorem Expr.ofTokens_eq (tokens : List Token) : Expr.ofTokens tokens =
    let (front, last) := Token.untilEof tokens
    match Grammar.alone last (Grammar.depthFor front) ⟨front, []⟩ with
    | .ok e c => if c.errors.isEmpty then .ok e else .error c.errors
    | .fail e c => .error (c.errors ++ [e])
    | .starved => .error [] := rfl

end LoxLang
