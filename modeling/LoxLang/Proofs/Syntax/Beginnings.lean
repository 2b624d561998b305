import LoxLang.Proofs.Syntax.Reading
import LoxLang.Proofs.Syntax.Tails
/-!
The tokens that readings begin with. No expression begins with a word that begins another statement,
and nothing begins with what closes the part around it, so that the next token always decides how to
go on.
-/
namespace LoxLang

namespace Token

variable {p : Token → Bool} {t : Token} {s : Symbol} {k : Keyword} {b : Bool}

theorem kind_of_is {kind : Kind} (h : t.is kind = true)
    (novalue : ∀ k, k.same kind = true → k = kind) : t.kind = kind :=
  novalue _ h

theorem isSymbol_elim (h : t.isSymbol s = true) (hp : ∀ lexeme line, p ⟨.symbol s, lexeme, line⟩ = b) :
    p t = b := by
  obtain ⟨kind, lexeme, line⟩ := t
  have same : kind = .symbol s := by
    refine kind_of_is h fun k hk => ?_
    cases k <;> simp_all [Kind.same]
  subst same
  exact hp lexeme line

theorem isKeyword_elim (h : t.isKeyword k = true)
    (hp : ∀ lexeme line, p ⟨.keyword k, lexeme, line⟩ = b) : p t = b := by
  obtain ⟨kind, lexeme, line⟩ := t
  have same : kind = .keyword k := by
    refine kind_of_is h fun k hk => ?_
    cases k <;> simp_all [Kind.same]
  subst same
  exact hp lexeme line

theorem isIdentifier_elim (h : t.isIdentifier = true)
    (hp : ∀ lexeme line, p ⟨.identifier, lexeme, line⟩ = b) : p t = b := by
  obtain ⟨kind, lexeme, line⟩ := t
  have same : kind = .identifier := by
    refine kind_of_is h fun k hk => ?_
    cases k <;> simp_all [Kind.same]
  subst same
  exact hp lexeme line

theorem not_isSymbol (h : p t = true) (hp : ∀ lexeme line, p ⟨.symbol s, lexeme, line⟩ = false) :
    t.isSymbol s = false := by
  cases hs : t.isSymbol s with
  | false => rfl
  | true => simp [isSymbol_elim hs hp] at h

theorem not_isKeyword (h : p t = true)
    (hp : ∀ lexeme line, p ⟨.keyword k, lexeme, line⟩ = false) : t.isKeyword k = false := by
  cases hk : t.isKeyword k with
  | false => rfl
  | true => simp [isKeyword_elim hk hp] at h

end Token

/-- The first token satisfies `p`. -/
def Begins (p : Token → Bool) (a : List Token) : Prop := ∃ t ts, a = t :: ts ∧ p t = true

theorem Begins.of_cons {p : Token → Bool} {t : Token} {ts : List Token} (h : p t = true) :
    Begins p (t :: ts) :=
  ⟨t, ts, rfl, h⟩

theorem Begins.imp {p q : Token → Bool} {a : List Token} (h : Begins p a)
    (imp : ∀ t, p t = true → q t = true) : Begins q a := by
  obtain ⟨t, ts, rfl, h⟩ := h
  exact ⟨t, ts, rfl, imp t h⟩

theorem Begins.stops_symbol {p : Token → Bool} {s : Symbol} {a : List Token} (h : Begins p a)
    (hp : ∀ lexeme line, p ⟨.symbol s, lexeme, line⟩ = false) : Stops (Token.isSymbol s) a := by
  obtain ⟨t, ts, rfl, h⟩ := h
  exact stops_cons.mpr (Token.not_isSymbol h hp)

theorem Begins.stops_keyword {p : Token → Bool} {k : Keyword} {a : List Token} (h : Begins p a)
    (hp : ∀ lexeme line, p ⟨.keyword k, lexeme, line⟩ = false) : Stops (Token.isKeyword k) a := by
  obtain ⟨t, ts, rfl, h⟩ := h
  exact stops_cons.mpr (Token.not_isKeyword h hp)

namespace Reading

open Grammar

def beginsPrimary (t : Token) : Bool := (atom? t).isSome || t.isSymbol .leftParen

def beginsOperand (t : Token) : Bool := isUnaryOperator t || beginsPrimary t

def beginsExpression (t : Token) : Bool := t.isKeyword .lambda || beginsOperand t

/-- Whether a statement that declares nothing begins with this token. -/
def beginsStatement (t : Token) : Bool :=
  t.isKeyword .for || t.isKeyword .if || t.isKeyword .print || t.isKeyword .return ||
    t.isKeyword .while || t.isSymbol .leftBrace || beginsExpression t

def beginsDeclaration (t : Token) : Bool :=
  t.isKeyword .class || t.isKeyword .fun || t.isKeyword .var || beginsStatement t

theorem Primary.begins : ∀ {a b e vs}, Primary a b e vs → Begins beginsPrimary a
  | _, _, _, _, .atom h => .of_cons (by simp [beginsPrimary, h])
  | _, _, _, _, .group ho _ _ => .of_cons (by simp [beginsPrimary, ho])

theorem Unary.begins : ∀ {a b e vs}, Unary a b e vs → Begins beginsOperand a
  | _, _, _, _, .operator ho _ => .of_cons (by simp [beginsOperand, ho])
  | _, _, _, _, .call h _ => h.begins.imp fun t ht => by simp [beginsOperand, ht]

mutual

theorem Operation.begins : ∀ {level a b e vs}, Operation level a b e vs → Begins beginsOperand a
  | _, _, _, _, _, .chain h _ => h.begins

theorem Operand.begins : ∀ {level a b e vs}, Operand level a b e vs → Begins beginsOperand a
  | _, _, _, _, _, .tighter _ h => h.begins
  | _, _, _, _, _, .unary _ h => h.begins

end

theorem Ternary.begins : ∀ {a b e vs}, Ternary a b e vs → Begins beginsOperand a
  | _, _, _, _, .plain h _ => h.begins
  | _, _, _, _, .choice h _ _ _ _ => h.begins

theorem Lambda.begins : ∀ {a b e vs}, Lambda a b e vs → Begins beginsExpression a
  | _, _, _, _, .function hk _ _ _ _ => .of_cons (by simp [beginsExpression, hk])
  | _, _, _, _, .ternary h => h.begins.imp fun t ht => by simp [beginsExpression, ht]

theorem Expression.begins : ∀ {a b e vs}, Expression a b e vs → Begins beginsExpression a
  | _, _, _, _, .plain h _ => h.begins
  | _, _, _, _, .assign h _ _ => h.begins

theorem Statement.begins : ∀ {a b s vs}, Statement a b s vs → Begins beginsStatement a
  | _, _, _, _, .ofFor hw _ _ _ _ _ _ _ => .of_cons (by simp [beginsStatement, hw])
  | _, _, _, _, .ofIf hw _ _ _ _ _ => .of_cons (by simp [beginsStatement, hw])
  | _, _, _, _, .ofIfElse hw _ _ _ _ _ _ => .of_cons (by simp [beginsStatement, hw])
  | _, _, _, _, .ofPrint hw _ _ => .of_cons (by simp [beginsStatement, hw])
  | _, _, _, _, .ofReturn hw _ _ => .of_cons (by simp [beginsStatement, hw])
  | _, _, _, _, .ofWhile hw _ _ _ _ => .of_cons (by simp [beginsStatement, hw])
  | _, _, _, _, .ofBlock ho _ => .of_cons (by simp [beginsStatement, ho])
  | _, _, _, _, .ofExpression h _ => h.begins.imp fun t ht => by simp [beginsStatement, ht]

theorem Declaration.begins : ∀ {a b s vs}, Declaration a b s vs → Begins beginsDeclaration a
  | _, _, _, _, .ofClass hw _ _ _ _ => .of_cons (by simp [beginsDeclaration, hw])
  | _, _, _, _, .ofFunction hw _ => .of_cons (by simp [beginsDeclaration, hw])
  | _, _, _, _, .ofVariables hw _ => .of_cons (by simp [beginsDeclaration, hw])
  | _, _, _, _, .statement h => h.begins.imp fun t ht => by simp [beginsDeclaration, ht]

theorem Names.begins : ∀ {count a b names vs},
    Names count a b names vs → Begins Token.isIdentifier a
  | _, _, _, _, _, .last h _ => .of_cons h
  | _, _, _, _, _, .more h _ _ => .of_cons h

theorem Code.begins : ∀ {a b code vs}, Code a b code vs → Begins Token.isIdentifier a
  | _, _, _, _, .mk hn _ _ _ _ _ => .of_cons hn

theorem Arguments.begins : ∀ {count a b es vs},
    Arguments count a b es vs → Begins beginsExpression a
  | _, _, _, _, _, .last h _ => h.begins
  | _, _, _, _, _, .more h _ _ => h.begins

end Reading

end LoxLang
