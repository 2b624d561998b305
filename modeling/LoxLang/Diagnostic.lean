import LoxLang.Token
/-!
What can be wrong with a program, in its text, its syntax, its names and its run. Each kind of
error records the cause and the place; `message` words the cause and `text` the whole error as it
is reported.
-/
namespace LoxLang

/-- What is wrong with a piece of text that is no token. -/
inductive LexFault where
  | unexpected (c : Char)
  | openString
  | openComment
  deriving DecidableEq, Repr

/-- A fault in the text of a program and the line it is noticed on. -/
structure LexError where
  fault : LexFault
  line : Nat
  deriving DecidableEq, Repr

/-- What a declaration with a name, parameters and a body declares. -/
inductive Callee where
  | function
  | method
  deriving DecidableEq, Repr

/-- What is wrong with the order of the tokens. -/
inductive SyntaxFault where
  | className
  | classBody
  | classEnd
  | calleeName (callee : Callee)
  | calleeParams (callee : Callee)
  | calleeBody (callee : Callee)
  | paramName
  | paramsEnd
  | tooManyParams
  | variableName
  | declarationEnd
  | forStart
  | forCondition
  | forEnd
  | ifStart
  | ifEnd
  | whileStart
  | whileEnd
  | printEnd
  | returnEnd
  | expressionEnd
  | blockEnd
  | assignmentTarget
  | lambdaParams
  | lambdaReturn
  | ternaryColon
  | propertyName
  | tooManyArguments
  | argumentsEnd
  | groupEnd
  | expression
  | trailing
  deriving DecidableEq, Repr

/-- A fault in the syntax and the token it is noticed at. -/
structure SyntaxError where
  fault : SyntaxFault
  token : Token
  deriving DecidableEq

/-- What is wrong with the use of a name or of a statement that needs a surrounding one. -/
inductive ScopeFault where
  | redeclared
  | ownInitializer
  | thisOutsideClass
  | thisInStatic
  | returnOutsideFunction
  | returnFromInitializer
  deriving DecidableEq, Repr

/-- A fault of scope and the token it is noticed at. -/
structure ScopeError where
  fault : ScopeFault
  token : Token
  deriving DecidableEq

/-- A variable that is declared inside a scope and never read. -/
structure Warning where
  name : String
  line : Nat
  deriving DecidableEq, Repr

/-- What can go wrong when an expression is evaluated. -/
inductive RuntimeFault where
  | operandNotNumber
  | operandsNotNumbers
  | operandsNotAddable
  | divisionByZero
  | invalidOperator
  | undefinedVariable
  | undefinedProperty
  | noProperties
  | noFields
  | notCallable
  | arity (expected given : Nat)
  | stackOverflow
  deriving DecidableEq, Repr

/-- A fault of a run and the token whose evaluation raised it. -/
structure RuntimeError where
  fault : RuntimeFault
  token : Token
  deriving DecidableEq

inductive OutputFault where
  | closed
  | flush
  deriving DecidableEq, Repr

/-- Why a run stops early. -/
inductive Failure where
  | runtime (e : RuntimeError)
  | output (f : OutputFault)
  deriving DecidableEq

/-- The most parameters of a function and the most arguments of a call. -/
def maxArity : Nat := 8

namespace LexFault

def message : LexFault → String
  | unexpected c => "Unexpected character: " ++ String.singleton c
  | openString => "Unterminated string."
  | openComment => "Unterminated block comment."

end LexFault

namespace Callee

def word : Callee → String
  | function => "function"
  | method => "method"

end Callee

namespace SyntaxFault

def message : SyntaxFault → String
  | className => "Expect class name."
  | classBody => "Expect '\x7b' before class body."
  | classEnd => "Expect '\x7d' after class body."
  | calleeName c => "Expect " ++ c.word ++ " name."
  | calleeParams c => "Expect '(' after " ++ c.word ++ " name."
  | calleeBody c => "Expect '\x7b' before " ++ c.word ++ " body."
  | paramName => "Expect parameter name."
  | paramsEnd => "Expect ')' after parameters."
  | tooManyParams => "Can't have more than " ++ toString maxArity ++ " parameters."
  | variableName => "Expect variable name."
  | declarationEnd => "Expect ';' after variable declaration."
  | forStart => "Expect '(' after 'for'."
  | forCondition => "Expect ';' after loop condition."
  | forEnd => "Expect ')' after for clauses."
  | ifStart => "Expect '(' after 'if'."
  | ifEnd => "Expect ')' after if condition."
  | whileStart => "Expect '(' after 'while'."
  | whileEnd => "Expect ')' after while condition."
  | printEnd => "Expect ';' after value."
  | returnEnd => "Expect ';' after return value."
  | expressionEnd => "Expect ';' after expression."
  | blockEnd => "Expect '\x7d' after block."
  | assignmentTarget => "Invalid assignment target."
  | lambdaParams => "Expect '(' after lambda."
  | lambdaReturn => "Expect lambda expression, not return statement."
  | ternaryColon => "Expect ':' after then branch of ternary expression."
  | propertyName => "Expect property name after '.'."
  | tooManyArguments => "Can't have more than " ++ toString maxArity ++ " arguments."
  | argumentsEnd => "Expect ')' after arguments."
  | groupEnd => "Expect ')' after expression."
  | expression => "Expect expression."
  | trailing => "Expect end of expression."

end SyntaxFault

namespace ScopeFault

def message : ScopeFault → String
  | redeclared => "Variable with this name already declared in this scope."
  | ownInitializer => "Cannot read local variable in its own initializer."
  | thisOutsideClass => "Cannot use 'this' outside of class."
  | thisInStatic => "Cannot use 'this' in a static context."
  | returnOutsideFunction => "Cannot return from top-level code."
  | returnFromInitializer => "Cannot return a value from an initializer."

end ScopeFault

namespace RuntimeFault

/-- The cause in words; `lexeme` is the text of the token that raised it. -/
def message (lexeme : String) : RuntimeFault → String
  | operandNotNumber => "Operand of '" ++ lexeme ++ "' must be a number."
  | operandsNotNumbers => "Operands of '" ++ lexeme ++ "' must be numbers."
  | operandsNotAddable =>
    "Operands of '+' must be two numbers or the first operand must be a string."
  | divisionByZero => "Division by zero."
  | invalidOperator => "Invalid operator '" ++ lexeme ++ "'."
  | undefinedVariable => "Undefined variable '" ++ lexeme ++ "'."
  | undefinedProperty => "Undefined property '" ++ lexeme ++ "'."
  | noProperties => "Only instances have properties."
  | noFields => "Only instances have fields."
  | notCallable => "Can only call functions and classes."
  | arity expected given =>
    "Expected " ++ toString expected ++ " arguments but got " ++ toString given ++ "."
  | stackOverflow => "Stack overflow."

end RuntimeFault

namespace OutputFault

def message : OutputFault → String
  | closed => "output closed"
  | flush => "flush failed"

end OutputFault

/-- Where a token stands, for errors that are noticed at it. -/
def Token.location (t : Token) : String :=
  if t.isEof then " at end" else " at '" ++ t.lexeme ++ "'"

def linePart (line : Nat) : String := "[line " ++ toString line ++ "]"

namespace LexError

/-- The error as it is reported: line and cause. -/
def text (e : LexError) : String := linePart e.line ++ " Error: " ++ e.fault.message

end LexError

namespace SyntaxError

/-- The error as it is reported: line, place and cause. -/
def text (e : SyntaxError) : String :=
  linePart e.token.line ++ " Error" ++ e.token.location ++ ": " ++ e.fault.message

end SyntaxError

namespace ScopeError

/-- The error as it is reported: line, place and cause. -/
def text (e : ScopeError) : String :=
  linePart e.token.line ++ " Error" ++ e.token.location ++ ": " ++ e.fault.message

end ScopeError

namespace Warning

def message (w : Warning) : String := "Local variable '" ++ w.name ++ "' is never used."

/-- The warning as it is reported: line and words. -/
def text (w : Warning) : String := linePart w.line ++ " Warning: " ++ w.message

end Warning

namespace RuntimeError

def message (e : RuntimeError) : String := e.fault.message e.token.lexeme

/-- The error as it is reported: the cause, and the line on a line of its own. -/
def text (e : RuntimeError) : String := e.message ++ "\n" ++ linePart e.token.line

end RuntimeError

namespace Failure

def text : Failure → String
  | runtime e => e.text
  | output f => f.message

end Failure

end LoxLang
