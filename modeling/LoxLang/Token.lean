/-!
Tokens: the words of a program with the line they stand on. The kind of a string or a number
carries its value; two tokens are compared by kind without that value, lexeme and line.
-/
namespace LoxLang

inductive Symbol where
  | leftParen | rightParen | leftBrace | rightBrace | comma | dot | minus | plus | semicolon
  | slash | star | percent | question | colon
  | bang | bangEqual | equal | equalEqual | greater | greaterEqual | less | lessEqual
  deriving DecidableEq, Repr

/-- Words that cannot be names. -/
inductive Keyword where
  | and | else | false | fun | for | if | lambda | nil | or | print | return | super | this
  | true | var | while
  | class : Keyword
  deriving DecidableEq, Repr

inductive Kind where
  | symbol (s : Symbol)
  | keyword (k : Keyword)
  | identifier
  | string (text : String)
  | number (value : Float)
  | eof
  deriving DecidableEq

/-- A word of the program: its kind, its own text and its line, counted from one. -/
structure Token where
  kind : Kind
  lexeme : String
  line : Nat
  deriving DecidableEq

namespace Symbol

def all : List Symbol :=
  [leftParen, rightParen, leftBrace, rightBrace, comma, dot, minus, plus, semicolon, slash, star,
    percent, question, colon, bang, bangEqual, equal, equalEqual, greater, greaterEqual, less,
    lessEqual]

def name : Symbol → String
  | leftParen => "LEFT_PAREN"
  | rightParen => "RIGHT_PAREN"
  | leftBrace => "LEFT_BRACE"
  | rightBrace => "RIGHT_BRACE"
  | comma => "COMMA"
  | dot => "DOT"
  | minus => "MINUS"
  | plus => "PLUS"
  | semicolon => "SEMICOLON"
  | slash => "SLASH"
  | star => "STAR"
  | percent => "PERCENT"
  | question => "QUESTION"
  | colon => "COLON"
  | bang => "BANG"
  | bangEqual => "BANG_EQUAL"
  | equal => "EQUAL"
  | equalEqual => "EQUAL_EQUAL"
  | greater => "GREATER"
  | greaterEqual => "GREATER_EQUAL"
  | less => "LESS"
  | lessEqual => "LESS_EQUAL"

def ofChar? : Char → Option Symbol
  | '(' => some leftParen
  | ')' => some rightParen
  | '{' => some leftBrace
  | '}' => some rightBrace
  | ',' => some comma
  | '.' => some dot
  | '-' => some minus
  | '+' => some plus
  | ';' => some semicolon
  | '/' => some slash
  | '*' => some star
  | '%' => some percent
  | '?' => some question
  | ':' => some colon
  | '!' => some bang
  | '=' => some equal
  | '>' => some greater
  | '<' => some less
  | _ => none

/-- The symbol that this one becomes when `=` follows it. -/
def withEqual? : Symbol → Option Symbol
  | bang => some bangEqual
  | equal => some equalEqual
  | greater => some greaterEqual
  | less => some lessEqual
  | _ => none

end Symbol

namespace Keyword

def all : List Keyword :=
  [.and, .class, .else, .false, .fun, .for, .if, .lambda, .nil, .or, .print, .return, .super,
    .this, .true, .var, .while]

/-- The keyword as it is written in programs. -/
def word : Keyword → String
  | .and => "and"
  | .class => "class"
  | .else => "else"
  | .false => "false"
  | .fun => "fun"
  | .for => "for"
  | .if => "if"
  | .lambda => "lambda"
  | .nil => "nil"
  | .or => "or"
  | .print => "print"
  | .return => "return"
  | .super => "super"
  | .this => "this"
  | .true => "true"
  | .var => "var"
  | .while => "while"

def name : Keyword → String
  | .and => "AND"
  | .class => "CLASS"
  | .else => "ELSE"
  | .false => "FALSE"
  | .fun => "FUN"
  | .for => "FOR"
  | .if => "IF"
  | .lambda => "LAMBDA"
  | .nil => "NIL"
  | .or => "OR"
  | .print => "PRINT"
  | .return => "RETURN"
  | .super => "SUPER"
  | .this => "THIS"
  | .true => "TRUE"
  | .var => "VAR"
  | .while => "WHILE"

def ofWord? (s : String) : Option Keyword := all.find? fun k => k.word == s

end Keyword

namespace Kind

def name : Kind → String
  | .symbol s => s.name
  | .keyword k => k.name
  | .identifier => "IDENTIFIER"
  | .string _ => "STRING"
  | .number _ => "NUMBER"
  | .eof => "EOF"

/-- The kinds without a value. -/
def plain : List Kind :=
  Symbol.all.map .symbol ++ Keyword.all.map .keyword ++ [.identifier, .eof]

/-- The kind without a value that has this name. -/
def ofName? (s : String) : Option Kind := plain.find? fun k => k.name == s

/-- Two kinds are alike if they differ at most in the value they carry. -/
def same : Kind → Kind → Bool
  | .symbol s, .symbol t => s == t
  | .keyword k, .keyword l => k == l
  | .identifier, .identifier => true
  | .string _, .string _ => true
  | .number _, .number _ => true
  | .eof, .eof => true
  | _, _ => false

end Kind

namespace Token

/-- Two tokens are alike if kind, lexeme and line are; the value of a literal does not count. -/
def same (a b : Token) : Bool := a.kind.same b.kind && a.lexeme == b.lexeme && a.line == b.line

/-- Whether a token is of this kind, whatever value it carries. -/
def is (k : Kind) (t : Token) : Bool := t.kind.same k

def isSymbol (s : Symbol) (t : Token) : Bool := t.is (.symbol s)

def isKeyword (k : Keyword) (t : Token) : Bool := t.is (.keyword k)

def isIdentifier (t : Token) : Bool := t.is .identifier

def isEof (t : Token) : Bool := t.is .eof

/-- The token behind the last word. -/
def eof (line : Nat) : Token := ⟨.eof, "", line⟩

/-- The tokens in front of the first end token, and that token. -/
def untilEof : List Token → List Token × Token
  | [] => ([], eof 1)
  | t :: ts => if t.isEof then ([], t) else let (front, last) := untilEof ts; (t :: front, last)

end Token

end LoxLang
