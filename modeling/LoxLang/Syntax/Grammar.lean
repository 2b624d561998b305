import LoxLang.Syntax.Parse
/-!
The grammar of programs. Declarations are read one after the other; one that is faulty is given
up and reading resumes at the next boundary between statements, so that one pass finds the faults
of all of them. Binary operators are read level by level, from `or` down to `*`.

The rules are read with a depth that shrinks with every rule entered. A rule enters at most
`depthPerToken` others before a token is read, and `depthFor` allows for that.
-/
namespace LoxLang

/-- The levels of binary operators, from the loosest to the tightest. -/
inductive Level where
  | disjunction | conjunction | equality | comparison | term | factor
  deriving DecidableEq, Repr

namespace Level

/-- The level of the operands; none if they are unary expressions. -/
def tighter? : Level → Option Level
  | disjunction => some conjunction
  | conjunction => some equality
  | equality => some comparison
  | comparison => some term
  | term => some factor
  | factor => none

/-- Whether a token is an operator of this level. -/
def isOperator (l : Level) (t : Token) : Bool :=
  match l, t.kind with
  | disjunction, .keyword .or => true
  | conjunction, .keyword .and => true
  | equality, .symbol s => s == .bangEqual || s == .equalEqual
  | comparison, .symbol s =>
    s == .greater || s == .greaterEqual || s == .less || s == .lessEqual
  | term, .symbol s => s == .minus || s == .plus
  | factor, .symbol s => s == .slash || s == .star || s == .percent
  | _, _ => false

/-- Two operands joined by an operator of this level. -/
def join : Level → Expr → Token → Expr → Expr
  | disjunction, left, op, right => .logical left op right
  | conjunction, left, op, right => .logical left op right
  | _, left, op, right => .binary left op right

end Level

/-- A loop with a head of three parts is a loop inside blocks: the first part runs in a scope
around it, the last one after the body in every round. Without a condition it goes on. -/
def Stmt.forLoop (initial : Option Stmt) (condition increment : Option Expr) (body : Stmt) :
    Stmt :=
  let body := match increment with
    | some e => .block [body, .expression e]
    | none => body
  let loop := .loop (condition.getD (.literal (.bool true))) body
  match initial with
  | some s => .block [s, loop]
  | none => loop

namespace Grammar

open Parse

/-- Whether a token is an operator in front of one operand. -/
def isUnaryOperator (t : Token) : Bool := t.isSymbol .bang || t.isSymbol .minus

/-- The expression that a single token is. -/
def atom? (t : Token) : Option Expr :=
  match t.kind with
  | .keyword .false => some (.literal (.bool false))
  | .keyword .true => some (.literal (.bool true))
  | .keyword .nil => some (.literal .nil)
  | .number x => some (.literal (.number x))
  | .string s => some (.literal (.string s))
  | .keyword .this => some (.this t none)
  | .identifier => some (.variable t none)
  | _ => none

/-- Reads an expression of a single token, if there is one under the cursor. -/
def atom : Parse (Option Expr) := fun c =>
  match c.rest with
  | t :: ts =>
    match atom? t with
    | some e => .ok (some e) ⟨ts, c.errors⟩
    | none => .ok none c
  | [] => .ok none c

/-- Whether a declaration or statement begins with this token, for resuming after a fault. -/
def startsStatement (t : Token) : Bool :=
  match t.kind with
  | .keyword k => [.class, .fun, .var, .for, .if, .while, .print, .return].contains k
  | _ => false

/-- The tokens from the next boundary on, after `previous` was given up. -/
def resumeAfter (previous : Token) : List Token → List Token
  | [] => []
  | t :: ts =>
    if previous.isSymbol .semicolon || startsStatement t then t :: ts else resumeAfter t ts

/-- The tokens to go on with after a fault at the first of `ts`: that token is given up, and
those behind it up to a semicolon or in front of a word that begins a statement. -/
def resume : List Token → List Token
  | [] => []
  | t :: ts => resumeAfter t ts

/-- Whether the declarations of a block, or of the program, are over. -/
def declarationsOver (inBlock : Bool) : Parse Bool := fun c =>
  match c.rest with
  | t :: _ => .ok (inBlock && t.isSymbol .rightBrace) c
  | [] => .ok true c

section

variable (last : Token)

def moreParams : Nat → Nat → Parse (List Token)
  | 0, _ => starved
  | n + 1, count => do
    if maxArity ≤ count then report .tooManyParams (← peek last)
    let name ← expect last Token.isIdentifier .paramName
    if ← accept (Token.isSymbol .comma) then
      let names ← moreParams n (count + 1)
      pure (name :: names)
    else pure [name]

def params (n : Nat) : Parse (List Token) := do
  let names ← if ← next (Token.isSymbol .rightParen) then pure [] else moreParams last n 0
  let _ ← expect last (Token.isSymbol .rightParen) .paramsEnd
  pure names

mutual

/-- An assignment, or an expression without one. -/
def expression : Nat → Parse Expr
  | 0 => starved
  | n + 1 => do
    let target ← lambda n
    match ← take? (Token.isSymbol .equal) with
    | none => pure target
    | some equals =>
      let value ← expression n
      match target with
      | .variable name _ => pure (.assign name value none)
      | .property object name => pure (.setProperty object name value)
      | other => do
        report .assignmentTarget equals
        pure other

/-- A function without a name, or a conditional expression. -/
def lambda : Nat → Parse Expr
  | 0 => starved
  | n + 1 => do
    match ← take? (Token.isKeyword .lambda) with
    | none => ternary n
    | some keyword =>
      let _ ← expect last (Token.isSymbol .leftParen) .lambdaParams
      let names ← params last n
      let body ← lambdaBody n
      pure (.lambda ⟨keyword, names, body⟩)

/-- A block, or an expression whose value is returned. -/
def lambdaBody : Nat → Parse (List Stmt)
  | 0 => starved
  | n + 1 => do
    if ← accept (Token.isSymbol .leftBrace) then block n
    else
      if let some keyword ← take? (Token.isKeyword .return) then
        report .lambdaReturn keyword
      let first ← peek last
      let value ← expression n
      pure [.returns ⟨.keyword .return, "return", first.line⟩ (some value)]

/-- A choice between two expressions, or an expression without one. The branches may be choices. -/
def ternary : Nat → Parse Expr
  | 0 => starved
  | n + 1 => do
    let condition ← operation n .disjunction
    if ← accept (Token.isSymbol .question) then
      let whenTrue ← ternary n
      let _ ← expect last (Token.isSymbol .colon) .ternaryColon
      let whenFalse ← ternary n
      pure (.ternary condition whenTrue whenFalse)
    else pure condition

def operation : Nat → Level → Parse Expr
  | 0, _ => starved
  | n + 1, level => do
    let left ← operand n level
    moreOperation n level left

/-- What stands between the operators of a level. -/
def operand : Nat → Level → Parse Expr
  | 0, _ => starved
  | n + 1, level =>
    match level.tighter? with
    | some tighter => operation n tighter
    | none => unary n

/-- The rest of a chain, whose operators take what is on their left first. -/
def moreOperation : Nat → Level → Expr → Parse Expr
  | 0, _, _ => starved
  | n + 1, level, left => do
    match ← take? level.isOperator with
    | none => pure left
    | some op =>
      let right ← operand n level
      moreOperation n level (level.join left op right)

/-- Operators in front of an operand, or a call. -/
def unary : Nat → Parse Expr
  | 0 => starved
  | n + 1 => do
    match ← take? isUnaryOperator with
    | some op =>
      let right ← unary n
      pure (.unary op right)
    | none =>
      let callee ← primary n
      moreCall n callee

def moreCall : Nat → Expr → Parse Expr
  | 0, _ => starved
  | n + 1, callee => do
    if ← accept (Token.isSymbol .leftParen) then
      let values ←
        if ← next (Token.isSymbol .rightParen) then pure [] else moreArguments n 0
      let paren ← expect last (Token.isSymbol .rightParen) .argumentsEnd
      moreCall n (.call callee paren values)
    else if ← accept (Token.isSymbol .dot) then
      let name ← expect last Token.isIdentifier .propertyName
      moreCall n (.property callee name)
    else pure callee

def moreArguments : Nat → Nat → Parse (List Expr)
  | 0, _ => starved
  | n + 1, count => do
    if maxArity ≤ count then report .tooManyArguments (← peek last)
    let value ← expression n
    if ← accept (Token.isSymbol .comma) then
      let values ← moreArguments n (count + 1)
      pure (value :: values)
    else pure [value]

/-- A constant, a name, or an expression in parentheses. -/
def primary : Nat → Parse Expr
  | 0 => starved
  | n + 1 => do
    if let some e ← atom then pure e
    else if ← accept (Token.isSymbol .leftParen) then
      let inner ← expression n
      let _ ← expect last (Token.isSymbol .rightParen) .groupEnd
      pure (.group inner)
    else fail last .expression

/-- A declaration or statement; nothing if it is faulty. -/
def declaration : Nat → Parse (Option Stmt)
  | 0 => starved
  | n + 1 => fun c =>
    match declarationRule n c with
    | .ok stmt c => .ok (some stmt) c
    | .fail error c => .ok none ⟨resume c.rest, c.errors ++ [error]⟩
    | .starved => .starved

def declarationRule : Nat → Parse Stmt
  | 0 => starved
  | n + 1 => do
    if ← accept (Token.isKeyword .class) then classRule n
    else if ← accept (Token.isKeyword .fun) then
      let code ← function n .function
      pure (.declareFunction code)
    else if ← accept (Token.isKeyword .var) then varRule n
    else statement n

def classRule : Nat → Parse Stmt
  | 0 => starved
  | n + 1 => do
    let name ← expect last Token.isIdentifier .className
    let _ ← expect last (Token.isSymbol .leftBrace) .classBody
    let (methods, statics) ← members n
    let _ ← expect last (Token.isSymbol .rightBrace) .classEnd
    pure (.declareClass name methods statics)

/-- The methods of a class, and those that belong to the class itself. -/
def members : Nat → Parse (List Function × List Function)
  | 0 => starved
  | n + 1 => do
    if ← declarationsOver true then pure ([], [])
    else if ← accept (Token.isKeyword .class) then
      let code ← function n .method
      let (methods, statics) ← members n
      pure (methods, code :: statics)
    else
      let code ← function n .method
      let (methods, statics) ← members n
      pure (code :: methods, statics)

def function : Nat → Callee → Parse Function
  | 0, _ => starved
  | n + 1, callee => do
    let name ← expect last Token.isIdentifier (.calleeName callee)
    let _ ← expect last (Token.isSymbol .leftParen) (.calleeParams callee)
    let names ← params last n
    let _ ← expect last (Token.isSymbol .leftBrace) (.calleeBody callee)
    let body ← block n
    pure ⟨name, names, body⟩

def varRule : Nat → Parse Stmt
  | 0 => starved
  | n + 1 => do
    let (first, others) ← declarators n
    let _ ← expect last (Token.isSymbol .semicolon) .declarationEnd
    match others with
    | [] => pure (.declare first)
    | _ :: _ => pure (.declareAll (first :: others))

/-- Declarators divided by commas: the first and the others. -/
def declarators : Nat → Parse (Declarator × List Declarator)
  | 0 => starved
  | n + 1 => do
    let name ← expect last Token.isIdentifier .variableName
    let initial ←
      if ← accept (Token.isSymbol .equal) then
        let value ← expression n
        pure (some value)
      else pure none
    if ← accept (Token.isSymbol .comma) then
      let (second, others) ← declarators n
      pure (⟨name, initial⟩, second :: others)
    else pure (⟨name, initial⟩, [])

/-- A statement that declares nothing. -/
def statement : Nat → Parse Stmt
  | 0 => starved
  | n + 1 => do
    if ← accept (Token.isKeyword .for) then forRule n
    else if ← accept (Token.isKeyword .if) then ifRule n
    else if ← accept (Token.isKeyword .print) then
      let value ← expression n
      let _ ← expect last (Token.isSymbol .semicolon) .printEnd
      pure (.print value)
    else if let some keyword ← take? (Token.isKeyword .return) then returnRule n keyword
    else if ← accept (Token.isKeyword .while) then whileRule n
    else if ← accept (Token.isSymbol .leftBrace) then
      let body ← block n
      pure (.block body)
    else expressionRule n

def forRule : Nat → Parse Stmt
  | 0 => starved
  | n + 1 => do
    let _ ← expect last (Token.isSymbol .leftParen) .forStart
    let initial ← forInitial n
    let condition ←
      if ← next (Token.isSymbol .semicolon) then pure none
      else
        let value ← expression n
        pure (some value)
    let _ ← expect last (Token.isSymbol .semicolon) .forCondition
    let increment ←
      if ← next (Token.isSymbol .rightParen) then pure none
      else
        let value ← expression n
        pure (some value)
    let _ ← expect last (Token.isSymbol .rightParen) .forEnd
    let body ← statement n
    pure (.forLoop initial condition increment body)

/-- The first part of the head of a `for`, with its semicolon. -/
def forInitial : Nat → Parse (Option Stmt)
  | 0 => starved
  | n + 1 => do
    if ← accept (Token.isSymbol .semicolon) then pure none
    else if ← accept (Token.isKeyword .var) then
      let s ← varRule n
      pure (some s)
    else
      let s ← expressionRule n
      pure (some s)

/-- What follows `if`. An `else` belongs to the nearest `if`. -/
def ifRule : Nat → Parse Stmt
  | 0 => starved
  | n + 1 => do
    let _ ← expect last (Token.isSymbol .leftParen) .ifStart
    let condition ← expression n
    let _ ← expect last (Token.isSymbol .rightParen) .ifEnd
    let whenTrue ← statement n
    if ← accept (Token.isKeyword .else) then
      let whenFalse ← statement n
      pure (.conditional condition whenTrue (some whenFalse))
    else pure (.conditional condition whenTrue none)

def returnRule : Nat → Token → Parse Stmt
  | 0, _ => starved
  | n + 1, keyword => do
    let value ←
      if ← next (Token.isSymbol .semicolon) then pure none
      else
        let value ← expression n
        pure (some value)
    let _ ← expect last (Token.isSymbol .semicolon) .returnEnd
    pure (.returns keyword value)

def whileRule : Nat → Parse Stmt
  | 0 => starved
  | n + 1 => do
    let _ ← expect last (Token.isSymbol .leftParen) .whileStart
    let condition ← expression n
    let _ ← expect last (Token.isSymbol .rightParen) .whileEnd
    let body ← statement n
    pure (.loop condition body)

def expressionRule : Nat → Parse Stmt
  | 0 => starved
  | n + 1 => do
    let value ← expression n
    let _ ← expect last (Token.isSymbol .semicolon) .expressionEnd
    pure (.expression value)

def block : Nat → Parse (List Stmt)
  | 0 => starved
  | n + 1 => do
    let body ← declarations n true
    let _ ← expect last (Token.isSymbol .rightBrace) .blockEnd
    pure body

/-- The declarations of a block, or of the program; the faulty ones are left out. -/
def declarations : Nat → Bool → Parse (List Stmt)
  | 0, _ => starved
  | n + 1, inBlock => do
    if ← declarationsOver inBlock then pure []
    else
      let first ← declaration n
      let others ← declarations n inBlock
      pure (first.toList ++ others)

end

end

/-- More rules than are ever entered between two tokens. -/
def depthPerToken : Nat := 32

/-- A depth that suffices for the tokens in front of the end. -/
def depthFor (front : List Token) : Nat := depthPerToken * (front.length + 1)

end Grammar

namespace Stmt

/-- The program that tokens are, or the faults in it. -/
def programOfTokens (tokens : List Token) : Except (List SyntaxError) (List Stmt) :=
  let (front, last) := Token.untilEof tokens
  match Grammar.declarations last (Grammar.depthFor front) false ⟨front, []⟩ with
  | .ok program c => if c.errors.isEmpty then .ok program else .error c.errors
  | .fail e c => .error (c.errors ++ [e])
  | .starved => .error []

end Stmt

namespace Expr

/-- The expression that tokens are, a semicolon after it left out, or the faults in it. -/
def ofTokens (tokens : List Token) : Except (List SyntaxError) Expr :=
  let (front, last) := Token.untilEof tokens
  let reading : Parse Expr := do
    let e ← Grammar.expression last (Grammar.depthFor front)
    let _ ← Parse.accept (Token.isSymbol .semicolon)
    if ← Parse.next (fun _ => true) then Parse.report .trailing (← Parse.peek last)
    pure e
  match reading ⟨front, []⟩ with
  | .ok e c => if c.errors.isEmpty then .ok e else .error c.errors
  | .fail e c => .error (c.errors ++ [e])
  | .starved => .error []

end Expr

end LoxLang
