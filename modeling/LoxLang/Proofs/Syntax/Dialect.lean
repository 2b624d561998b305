import LoxLang.Proofs.Syntax.Ebnf
import LoxLang.Syntax.Grammar
/-!
The grammar of programs as a table of rules, in two dialects. The documented one is the grammar that
programs have to follow. The relaxed one lets anything up to a function without a name stand left of
`=`, allows `return` in front of the expression that is a body, and does not bound the number of
parameters and arguments: a program that only derives there can be read to its end, with faults.
-/
namespace LoxLang

inductive Nonterminal where
  | program | declaration | classDecl | funDecl | function | varDecl | varItem
  | statement | exprStmt | forStmt | ifStmt | printStmt | returnStmt | whileStmt | block
  | expression | assignment | lambda | ternary | operation (level : Level) | unary | call
  | primary | parameters | arguments

/-- The grammar that programs follow, and the one in which they are still read to the end. -/
inductive Dialect where
  | documented | relaxed
  deriving DecidableEq

def Token.isNumber (t : Token) : Bool := match t.kind with
  | .number _ => true
  | _ => false

def Token.isString (t : Token) : Bool := match t.kind with
  | .string _ => true
  | _ => false

open Ebnf

namespace Level

def operators : Level → Ebnf Nonterminal
  | disjunction => keyword .or
  | conjunction => keyword .and
  | equality => .alt (symbol .bangEqual) (symbol .equalEqual)
  | comparison => oneOf [symbol .greater, symbol .greaterEqual, symbol .less] (symbol .lessEqual)
  | term => .alt (symbol .minus) (symbol .plus)
  | factor => oneOf [symbol .slash, symbol .star] (symbol .percent)

def operands : Level → Nonterminal
  | disjunction => .operation .conjunction
  | conjunction => .operation .equality
  | equality => .operation .comparison
  | comparison => .operation .term
  | term => .operation .factor
  | factor => .unary

end Level

namespace Dialect

def name : Ebnf Nonterminal := .token Token.isIdentifier

/-- What may stand left of `=`, and `=`. -/
def target : Dialect → Ebnf Nonterminal
  | documented => inOrder [.opt (.seq (.rule .call) (symbol .dot)), name] (symbol .equal)
  | relaxed => .seq (.rule .lambda) (symbol .equal)

/-- The expression that is the body of a function without a name. -/
def bodyExpression : Dialect → Ebnf Nonterminal
  | documented => .rule .expression
  | relaxed => .seq (.opt (keyword .return)) (.rule .expression)

/-- What stands between parentheses, divided by commas. -/
def divided (d : Dialect) (e : Ebnf Nonterminal) : Ebnf Nonterminal :=
  .seq e (match d with
    | documented => .atMost (maxArity - 1) (.seq (symbol .comma) e)
    | relaxed => .many (.seq (symbol .comma) e))

def rules (d : Dialect) : Nonterminal → Ebnf Nonterminal
  | .program => .seq (.many (.rule .declaration)) (.token Token.isEof)
  | .declaration =>
    oneOf [.rule .classDecl, .rule .funDecl, .rule .varDecl] (.rule .statement)
  | .classDecl =>
    inOrder [keyword .class, name, symbol .leftBrace,
      .many (.seq (.opt (keyword .class)) (.rule .function))] (symbol .rightBrace)
  | .funDecl => .seq (keyword .fun) (.rule .function)
  | .function =>
    inOrder [name, symbol .leftParen, .opt (.rule .parameters), symbol .rightParen] (.rule .block)
  | .varDecl =>
    inOrder [keyword .var, .rule .varItem, .many (.seq (symbol .comma) (.rule .varItem))]
      (symbol .semicolon)
  | .varItem => .seq name (.opt (.seq (symbol .equal) (.rule .expression)))
  | .statement =>
    oneOf [.rule .exprStmt, .rule .forStmt, .rule .ifStmt, .rule .printStmt, .rule .returnStmt,
      .rule .whileStmt] (.rule .block)
  | .exprStmt => .seq (.rule .expression) (symbol .semicolon)
  | .forStmt =>
    inOrder [keyword .for, symbol .leftParen,
      oneOf [.rule .varDecl, .rule .exprStmt] (symbol .semicolon),
      .opt (.rule .expression), symbol .semicolon, .opt (.rule .expression), symbol .rightParen]
      (.rule .statement)
  | .ifStmt =>
    inOrder [keyword .if, symbol .leftParen, .rule .expression, symbol .rightParen,
      .rule .statement] (.opt (.seq (keyword .else) (.rule .statement)))
  | .printStmt => inOrder [keyword .print, .rule .expression] (symbol .semicolon)
  | .returnStmt => inOrder [keyword .return, .opt (.rule .expression)] (symbol .semicolon)
  | .whileStmt =>
    inOrder [keyword .while, symbol .leftParen, .rule .expression, symbol .rightParen]
      (.rule .statement)
  | .block => inOrder [symbol .leftBrace, .many (.rule .declaration)] (symbol .rightBrace)
  | .expression => .rule .assignment
  | .assignment => .alt (.seq d.target (.rule .assignment)) (.rule .lambda)
  | .lambda =>
    .alt
      (inOrder [keyword .lambda, symbol .leftParen, .opt (.rule .parameters), symbol .rightParen]
        (.alt (.rule .block) d.bodyExpression))
      (.rule .ternary)
  | .ternary =>
    .seq (.rule (.operation .disjunction))
      (.opt (inOrder [symbol .question, .rule .ternary, symbol .colon] (.rule .ternary)))
  | .operation level =>
    .seq (.rule level.operands) (.many (.seq level.operators (.rule level.operands)))
  | .unary =>
    .alt (.seq (.alt (symbol .bang) (symbol .minus)) (.rule .unary)) (.rule .call)
  | .call =>
    .seq (.rule .primary)
      (.many (.alt
        (inOrder [symbol .leftParen, .opt (.rule .arguments)] (symbol .rightParen))
        (.seq (symbol .dot) name)))
  | .primary =>
    oneOf [.token Token.isNumber, .token Token.isString, keyword .true, keyword .false,
      keyword .nil, keyword .this, name]
      (inOrder [symbol .leftParen, .rule .expression] (symbol .rightParen))
  | .parameters => d.divided name
  | .arguments => d.divided (.rule .expression)

/-- The tokens derive from a rule of the dialect. -/
def Derives (d : Dialect) (n : Nonterminal) (u : List Token) : Prop :=
  Ebnf.Derives d.rules (.rule n) u

/-- What may be found where tokens are read: in the documented dialect nothing. -/
def Clean (d : Dialect) (vs : List SyntaxError) : Prop := d = documented → vs = []

variable {d : Dialect} {vs ws : List SyntaxError}

theorem clean_nil : d.Clean [] := fun _ => rfl

theorem clean_append : d.Clean (vs ++ ws) ↔ d.Clean vs ∧ d.Clean ws := by
  simp only [Clean, List.append_eq_nil_iff]
  exact ⟨fun h => ⟨fun eq => (h eq).1, fun eq => (h eq).2⟩, fun h eq => ⟨h.1 eq, h.2 eq⟩⟩

theorem Clean.append (h : d.Clean vs) (h' : d.Clean ws) : d.Clean (vs ++ ws) :=
  clean_append.mpr ⟨h, h'⟩

theorem Clean.of_cons {v : SyntaxError} (h : d.Clean (v :: vs)) : d.Clean vs :=
  fun eq => by cases h eq

theorem clean_relaxed : relaxed.Clean vs := fun eq => by cases eq

theorem clean_documented : documented.Clean vs ↔ vs = [] := ⟨fun h => h rfl, fun h _ => h⟩

end Dialect

end LoxLang
