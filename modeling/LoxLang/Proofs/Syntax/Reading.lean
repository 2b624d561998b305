import LoxLang.Proofs.Syntax.Dialect
/-!
Readings: what the front of a token list is, rule by rule. A reading goes from the tokens it begins
at to those it leaves, has a tree, and lists the faults found on the way:

* each `=` behind what cannot be assigned to,
* each `return` in front of the expression that is the body of a function without a name,
* each parameter and each argument behind the first `maxArity`.

Every part goes as far as it can: the expression that is a body takes all that continues an
expression, and an `else` goes to the nearest `if`.
-/
namespace LoxLang

/-- No token that satisfies `p` comes next. -/
def Stops (p : Token → Bool) (rest : List Token) : Prop := ∀ t ∈ rest.head?, p t = false

@[simp]
theorem stops_nil {p : Token → Bool} : Stops p [] := fun _ h => by cases h

@[simp]
theorem stops_cons {p : Token → Bool} {t : Token} {ts : List Token} :
    Stops p (t :: ts) ↔ p t = false := by
  simp [Stops]

theorem Stops.imp {p q : Token → Bool} {rest : List Token} (h : Stops p rest)
    (imp : ∀ t, q t = true → p t = true) : Stops q rest := by
  intro t first
  cases hq : q t with
  | false => rfl
  | true =>
    have := h t first
    rw [imp t hq] at this
    cases this

/-- The fault of a token at which one too many begins, if `count` were before it. -/
def excess (fault : SyntaxFault) (count : Nat) (t : Token) : List SyntaxError :=
  if maxArity ≤ count then [⟨fault, t⟩] else []

/-- The tree of an assignment; what cannot be assigned to stands for itself. -/
def Expr.assigned (target value : Expr) : Expr := match target with
  | .variable name _ => .assign name value none
  | .property object name => .setProperty object name value
  | other => other

/-- The fault of an `=` behind what cannot be assigned to. -/
def Expr.targetFaults (target : Expr) (equals : Token) : List SyntaxError := match target with
  | .variable _ _ => []
  | .property _ _ => []
  | _ => [⟨.assignmentTarget, equals⟩]

/-- The tree of the declarators after one `var`. -/
def Stmt.declaring (first : Declarator) : List Declarator → Stmt
  | [] => .declare first
  | second :: others => .declareAll (first :: second :: others)

namespace Reading

open Grammar

/-- Names divided by commas, behind `count` others. -/
inductive Names : Nat → List Token → List Token → List Token → List SyntaxError → Prop where
  | last {count : Nat} {name : Token} {b : List Token} (h : name.isIdentifier = true)
    (stops : Stops (Token.isSymbol .comma) b) :
    Names count (name :: b) b [name] (excess .tooManyParams count name)
  | more {count : Nat} {name comma : Token} {b c names : List Token} {vs : List SyntaxError}
    (h : name.isIdentifier = true) (hc : comma.isSymbol .comma = true)
    (others : Names (count + 1) b c names vs) :
    Names count (name :: comma :: b) c (name :: names)
      (excess .tooManyParams count name ++ vs)

inductive Params : List Token → List Token → List Token → List SyntaxError → Prop where
  | none {b : List Token} : Params b b [] []
  | some {a b names : List Token} {vs : List SyntaxError} (h : Names 0 a b names vs) :
    Params a b names vs

mutual

/-- An assignment, or an expression without one. -/
inductive Expression : List Token → List Token → Expr → List SyntaxError → Prop where
  | plain {a b : List Token} {e : Expr} {vs : List SyntaxError} (h : Lambda a b e vs)
    (stops : Stops (Token.isSymbol .equal) b) : Expression a b e vs
  | assign {a b c : List Token} {equals : Token} {target value : Expr}
    {vs ws : List SyntaxError} (h : Lambda a (equals :: b) target vs)
    (he : equals.isSymbol .equal = true) (hv : Expression b c value ws) :
    Expression a c (target.assigned value) (vs ++ (ws ++ target.targetFaults equals))

/-- A function without a name, or a conditional expression. -/
inductive Lambda : List Token → List Token → Expr → List SyntaxError → Prop where
  | function {a b c names : List Token} {keyword opened closed : Token} {body : List Stmt}
    {vs ws : List SyntaxError} (hk : keyword.isKeyword .lambda = true)
    (ho : opened.isSymbol .leftParen = true) (hp : Params a (closed :: b) names vs)
    (hc : closed.isSymbol .rightParen = true) (hb : LambdaBody b c body ws) :
    Lambda (keyword :: opened :: a) c (.lambda ⟨keyword, names, body⟩) (vs ++ ws)
  | ternary {a b : List Token} {e : Expr} {vs : List SyntaxError} (h : Ternary a b e vs) :
    Lambda a b e vs

/-- A block, or an expression whose value is returned. -/
inductive LambdaBody : List Token → List Token → List Stmt → List SyntaxError → Prop where
  | block {a b : List Token} {opened : Token} {body : List Stmt} {vs : List SyntaxError}
    (ho : opened.isSymbol .leftBrace = true) (h : Block a b body vs) :
    LambdaBody (opened :: a) b body vs
  | expression {a b : List Token} {first : Token} {e : Expr} {vs : List SyntaxError}
    (h : Expression (first :: a) b e vs) :
    LambdaBody (first :: a) b [.returns ⟨.keyword .return, "return", first.line⟩ (some e)] vs
  | returning {a b : List Token} {keyword first : Token} {e : Expr} {vs : List SyntaxError}
    (hk : keyword.isKeyword .return = true) (h : Expression (first :: a) b e vs) :
    LambdaBody (keyword :: first :: a) b
      [.returns ⟨.keyword .return, "return", first.line⟩ (some e)]
      (⟨.lambdaReturn, keyword⟩ :: vs)

/-- A choice between two expressions, or an expression without one. -/
inductive Ternary : List Token → List Token → Expr → List SyntaxError → Prop where
  | plain {a b : List Token} {e : Expr} {vs : List SyntaxError}
    (h : Operation .disjunction a b e vs) (stops : Stops (Token.isSymbol .question) b) :
    Ternary a b e vs
  | choice {a b c d : List Token} {question colon : Token} {e e' e'' : Expr}
    {vs ws xs : List SyntaxError} (h : Operation .disjunction a (question :: b) e vs)
    (hq : question.isSymbol .question = true) (ht : Ternary b (colon :: c) e' ws)
    (hc : colon.isSymbol .colon = true) (hf : Ternary c d e'' xs) :
    Ternary a d (.ternary e e' e'') (vs ++ (ws ++ xs))

/-- A chain of operators of one level. -/
inductive Operation : Level → List Token → List Token → Expr → List SyntaxError → Prop where
  | chain {level : Level} {a b c : List Token} {left e : Expr} {vs ws : List SyntaxError}
    (h : Operand level a b left vs) (hr : Operators level left b c e ws) :
    Operation level a c e (vs ++ ws)

/-- What stands between the operators of a level. -/
inductive Operand : Level → List Token → List Token → Expr → List SyntaxError → Prop where
  | tighter {level tighter : Level} {a b : List Token} {e : Expr} {vs : List SyntaxError}
    (hl : level.tighter? = some tighter) (h : Operation tighter a b e vs) : Operand level a b e vs
  | unary {level : Level} {a b : List Token} {e : Expr} {vs : List SyntaxError}
    (hl : level.tighter? = none) (h : Unary a b e vs) : Operand level a b e vs

/-- The rest of a chain behind what is on its left. -/
inductive Operators :
    Level → Expr → List Token → List Token → Expr → List SyntaxError → Prop where
  | done {level : Level} {left : Expr} {b : List Token} (stops : Stops level.isOperator b) :
    Operators level left b b left []
  | more {level : Level} {left right e : Expr} {op : Token} {a b c : List Token}
    {vs ws : List SyntaxError} (ho : level.isOperator op = true) (h : Operand level a b right vs)
    (hr : Operators level (level.join left op right) b c e ws) :
    Operators level left (op :: a) c e (vs ++ ws)

/-- Operators in front of an operand, or a call. -/
inductive Unary : List Token → List Token → Expr → List SyntaxError → Prop where
  | operator {op : Token} {a b : List Token} {e : Expr} {vs : List SyntaxError}
    (ho : isUnaryOperator op = true) (h : Unary a b e vs) : Unary (op :: a) b (.unary op e) vs
  | call {a b c : List Token} {callee e : Expr} {vs ws : List SyntaxError}
    (h : Primary a b callee vs) (hr : Calls callee b c e ws) : Unary a c e (vs ++ ws)

/-- The calls and properties that follow an expression. -/
inductive Calls : Expr → List Token → List Token → Expr → List SyntaxError → Prop where
  | done {callee : Expr} {b : List Token} (call : Stops (Token.isSymbol .leftParen) b)
    (property : Stops (Token.isSymbol .dot) b) : Calls callee b b callee []
  | call {callee e : Expr} {opened closed : Token} {a b c : List Token} {es : List Expr}
    {vs ws : List SyntaxError} (ho : opened.isSymbol .leftParen = true)
    (ha : Passed a (closed :: b) es vs) (hc : closed.isSymbol .rightParen = true)
    (hr : Calls (.call callee closed es) b c e ws) : Calls callee (opened :: a) c e (vs ++ ws)
  | property {callee e : Expr} {dot name : Token} {b c : List Token} {ws : List SyntaxError}
    (hd : dot.isSymbol .dot = true) (hn : name.isIdentifier = true)
    (hr : Calls (.property callee name) b c e ws) : Calls callee (dot :: name :: b) c e ws

inductive Passed : List Token → List Token → List Expr → List SyntaxError → Prop where
  | none {b : List Token} : Passed b b [] []
  | some {a b : List Token} {es : List Expr} {vs : List SyntaxError}
    (h : Arguments 0 a b es vs) : Passed a b es vs

inductive Arguments :
    Nat → List Token → List Token → List Expr → List SyntaxError → Prop where
  | last {count : Nat} {first : Token} {a b : List Token} {e : Expr} {vs : List SyntaxError}
    (h : Expression (first :: a) b e vs) (stops : Stops (Token.isSymbol .comma) b) :
    Arguments count (first :: a) b [e] (excess .tooManyArguments count first ++ vs)
  | more {count : Nat} {first comma : Token} {a b c : List Token} {e : Expr} {es : List Expr}
    {vs ws : List SyntaxError} (h : Expression (first :: a) (comma :: b) e vs)
    (hc : comma.isSymbol .comma = true) (others : Arguments (count + 1) b c es ws) :
    Arguments count (first :: a) c (e :: es)
      (excess .tooManyArguments count first ++ (vs ++ ws))

/-- A constant, a name, or an expression in parentheses. -/
inductive Primary : List Token → List Token → Expr → List SyntaxError → Prop where
  | atom {t : Token} {b : List Token} {e : Expr} (h : atom? t = some e) : Primary (t :: b) b e []
  | group {opened closed : Token} {a b : List Token} {e : Expr} {vs : List SyntaxError}
    (ho : opened.isSymbol .leftParen = true) (h : Expression a (closed :: b) e vs)
    (hc : closed.isSymbol .rightParen = true) : Primary (opened :: a) b (.group e) vs

/-- A class, a function, variables, or a statement. -/
inductive Declaration : List Token → List Token → Stmt → List SyntaxError → Prop where
  | ofClass {word name opened closed : Token} {a b : List Token} {methods statics : List Function}
    {vs : List SyntaxError} (hw : word.isKeyword .class = true) (hn : name.isIdentifier = true)
    (ho : opened.isSymbol .leftBrace = true) (h : Members a (closed :: b) (methods, statics) vs)
    (hc : closed.isSymbol .rightBrace = true) :
    Declaration (word :: name :: opened :: a) b (.declareClass name methods statics) vs
  | ofFunction {word : Token} {a b : List Token} {code : Function} {vs : List SyntaxError}
    (hw : word.isKeyword .fun = true) (h : Code a b code vs) :
    Declaration (word :: a) b (.declareFunction code) vs
  | ofVariables {word : Token} {a b : List Token} {s : Stmt} {vs : List SyntaxError}
    (hw : word.isKeyword .var = true) (h : Variables a b s vs) : Declaration (word :: a) b s vs
  | statement {a b : List Token} {s : Stmt} {vs : List SyntaxError} (h : Statement a b s vs) :
    Declaration a b s vs

/-- The methods of a class, and those that belong to the class itself. -/
inductive Members :
    List Token → List Token → List Function × List Function → List SyntaxError → Prop where
  | ended : Members [] [] ([], []) []
  | closed {closed : Token} {b : List Token} (hc : closed.isSymbol .rightBrace = true) :
    Members (closed :: b) (closed :: b) ([], []) []
  | ofClass {word : Token} {a b c : List Token} {code : Function} {methods statics : List Function}
    {vs ws : List SyntaxError} (hw : word.isKeyword .class = true) (h : Code a b code vs)
    (others : Members b c (methods, statics) ws) :
    Members (word :: a) c (methods, code :: statics) (vs ++ ws)
  | ofInstances {a b c : List Token} {code : Function} {methods statics : List Function}
    {vs ws : List SyntaxError} (h : Code a b code vs)
    (others : Members b c (methods, statics) ws) :
    Members a c (code :: methods, statics) (vs ++ ws)

inductive Code : List Token → List Token → Function → List SyntaxError → Prop where
  | mk {name opened closed brace : Token} {a b c names : List Token} {body : List Stmt}
    {vs ws : List SyntaxError} (hn : name.isIdentifier = true)
    (ho : opened.isSymbol .leftParen = true) (hp : Params a (closed :: brace :: b) names vs)
    (hc : closed.isSymbol .rightParen = true) (hb : brace.isSymbol .leftBrace = true)
    (h : Block b c body ws) : Code (name :: opened :: a) c ⟨name, names, body⟩ (vs ++ ws)

inductive Variables : List Token → List Token → Stmt → List SyntaxError → Prop where
  | mk {semicolon : Token} {a b : List Token} {first : Declarator} {others : List Declarator}
    {vs : List SyntaxError} (h : Declarators a (semicolon :: b) (first, others) vs)
    (hs : semicolon.isSymbol .semicolon = true) : Variables a b (.declaring first others) vs

inductive Declarators :
    List Token → List Token → Declarator × List Declarator → List SyntaxError → Prop where
  | last {a b : List Token} {first : Declarator} {vs : List SyntaxError} (h : Item a b first vs)
    (stops : Stops (Token.isSymbol .comma) b) : Declarators a b (first, []) vs
  | more {comma : Token} {a b c : List Token} {first second : Declarator}
    {others : List Declarator} {vs ws : List SyntaxError} (h : Item a (comma :: b) first vs)
    (hc : comma.isSymbol .comma = true) (ho : Declarators b c (second, others) ws) :
    Declarators a c (first, second :: others) (vs ++ ws)

inductive Item : List Token → List Token → Declarator → List SyntaxError → Prop where
  | bare {name : Token} {b : List Token} (hn : name.isIdentifier = true)
    (stops : Stops (Token.isSymbol .equal) b) : Item (name :: b) b ⟨name, none⟩ []
  | initial {name equals : Token} {a b : List Token} {e : Expr} {vs : List SyntaxError}
    (hn : name.isIdentifier = true) (he : equals.isSymbol .equal = true)
    (h : Expression a b e vs) : Item (name :: equals :: a) b ⟨name, some e⟩ vs

/-- A statement that declares nothing. -/
inductive Statement : List Token → List Token → Stmt → List SyntaxError → Prop where
  | ofFor {word opened semicolon closed : Token} {a b c d e : List Token}
    {initial : Option Stmt} {condition increment : Option Expr} {body : Stmt}
    {vs ws xs ys : List SyntaxError} (hw : word.isKeyword .for = true)
    (ho : opened.isSymbol .leftParen = true) (hi : Initial a b initial vs)
    (hn : Maybe b (semicolon :: c) condition ws) (hs : semicolon.isSymbol .semicolon = true)
    (hx : Maybe c (closed :: d) increment xs) (hc : closed.isSymbol .rightParen = true)
    (hb : Statement d e body ys) :
    Statement (word :: opened :: a) e (.forLoop initial condition increment body)
      (vs ++ (ws ++ (xs ++ ys)))
  | ofIf {word opened closed : Token} {a b c : List Token} {e : Expr} {s : Stmt}
    {vs ws : List SyntaxError} (hw : word.isKeyword .if = true)
    (ho : opened.isSymbol .leftParen = true) (h : Expression a (closed :: b) e vs)
    (hc : closed.isSymbol .rightParen = true) (ht : Statement b c s ws)
    (stops : Stops (Token.isKeyword .else) c) :
    Statement (word :: opened :: a) c (.conditional e s none) (vs ++ ws)
  | ofIfElse {word opened closed other : Token} {a b c d : List Token} {e : Expr} {s s' : Stmt}
    {vs ws xs : List SyntaxError} (hw : word.isKeyword .if = true)
    (ho : opened.isSymbol .leftParen = true) (h : Expression a (closed :: b) e vs)
    (hc : closed.isSymbol .rightParen = true) (ht : Statement b (other :: c) s ws)
    (he : other.isKeyword .else = true) (hf : Statement c d s' xs) :
    Statement (word :: opened :: a) d (.conditional e s (some s')) (vs ++ (ws ++ xs))
  | ofPrint {word semicolon : Token} {a b : List Token} {e : Expr} {vs : List SyntaxError}
    (hw : word.isKeyword .print = true) (h : Expression a (semicolon :: b) e vs)
    (hs : semicolon.isSymbol .semicolon = true) : Statement (word :: a) b (.print e) vs
  | ofReturn {word semicolon : Token} {a b : List Token} {o : Option Expr} {vs : List SyntaxError}
    (hw : word.isKeyword .return = true) (h : Maybe a (semicolon :: b) o vs)
    (hs : semicolon.isSymbol .semicolon = true) : Statement (word :: a) b (.returns word o) vs
  | ofWhile {word opened closed : Token} {a b c : List Token} {e : Expr} {s : Stmt}
    {vs ws : List SyntaxError} (hw : word.isKeyword .while = true)
    (ho : opened.isSymbol .leftParen = true) (h : Expression a (closed :: b) e vs)
    (hc : closed.isSymbol .rightParen = true) (hb : Statement b c s ws) :
    Statement (word :: opened :: a) c (.loop e s) (vs ++ ws)
  | ofBlock {opened : Token} {a b : List Token} {body : List Stmt} {vs : List SyntaxError}
    (ho : opened.isSymbol .leftBrace = true) (h : Block a b body vs) :
    Statement (opened :: a) b (.block body) vs
  | ofExpression {semicolon : Token} {a b : List Token} {e : Expr} {vs : List SyntaxError}
    (h : Expression a (semicolon :: b) e vs) (hs : semicolon.isSymbol .semicolon = true) :
    Statement a b (.expression e) vs

/-- The first part of the head of a `for`, with its semicolon. -/
inductive Initial : List Token → List Token → Option Stmt → List SyntaxError → Prop where
  | none {semicolon : Token} {b : List Token} (hs : semicolon.isSymbol .semicolon = true) :
    Initial (semicolon :: b) b none []
  | ofVariables {word : Token} {a b : List Token} {s : Stmt} {vs : List SyntaxError}
    (hw : word.isKeyword .var = true) (h : Variables a b s vs) :
    Initial (word :: a) b (some s) vs
  | ofExpression {semicolon : Token} {a b : List Token} {e : Expr} {vs : List SyntaxError}
    (h : Expression a (semicolon :: b) e vs) (hs : semicolon.isSymbol .semicolon = true) :
    Initial a b (some (.expression e)) vs

inductive Maybe : List Token → List Token → Option Expr → List SyntaxError → Prop where
  | missing {b : List Token} : Maybe b b none []
  | given {a b : List Token} {e : Expr} {vs : List SyntaxError} (h : Expression a b e vs) :
    Maybe a b (some e) vs

inductive Block : List Token → List Token → List Stmt → List SyntaxError → Prop where
  | mk {closed : Token} {a b : List Token} {body : List Stmt} {vs : List SyntaxError}
    (h : Declarations true a (closed :: b) body vs) (hc : closed.isSymbol .rightBrace = true) :
    Block a b body vs

/-- The declarations of a block, or of the program. -/
inductive Declarations :
    Bool → List Token → List Token → List Stmt → List SyntaxError → Prop where
  | ended {inBlock : Bool} : Declarations inBlock [] [] [] []
  | closed {closed : Token} {b : List Token} (hc : closed.isSymbol .rightBrace = true) :
    Declarations true (closed :: b) (closed :: b) [] []
  | more {inBlock : Bool} {a b c : List Token} {s : Stmt} {ss : List Stmt}
    {vs ws : List SyntaxError} (h : Declaration a b s vs)
    (others : Declarations inBlock b c ss ws) : Declarations inBlock a c (s :: ss) (vs ++ ws)

end

def Program (front : List Token) (program : List Stmt) (vs : List SyntaxError) : Prop :=
  Declarations false front [] program vs

end Reading

end LoxLang
