import LoxLang.Proofs.Syntax.Beginnings
/-!
How tight the parts of an expression bind, as numbers: 0 for assignments, 1 for choices, 2 to 7 for the
levels of binary operators from `or` to `*`, 8 for operators in front of an operand, 9 for calls and
properties, 10 for what stands for itself.

`Token.continues n` are the tokens that make an expression longer that was read up to there by the rule
of strength `n`. What is proved: a rule of a greater strength is continued by fewer tokens
(`continues_mono`), the operators of a level continue nothing tighter (`continues_operator`), and what
closes the part around an expression continues none (`continues_symbol`). `Reading.At n` are the
readings of the rule of strength `n`; in front of what does not continue it, what a tighter rule reads a
looser one reads too (`Reading.At.loosen`).
-/
namespace LoxLang

namespace Level

/-- The strength of the operators of a level. -/
def strength : Level → Nat
  | disjunction => 2
  | conjunction => 3
  | equality => 4
  | comparison => 5
  | term => 6
  | factor => 7

def all : List Level := [disjunction, conjunction, equality, comparison, term, factor]

theorem mem_all (l : Level) : l ∈ all := by
  cases l <;> decide

theorem strength_tighter {level tighter : Level} (h : level.tighter? = some tighter) :
    tighter.strength = level.strength + 1 := by
  cases level <;> cases h <;> rfl

theorem strength_tightest {level : Level} (h : level.tighter? = none) : level.strength = 7 := by
  cases level with
  | factor => rfl
  | _ => cases h

theorem strength_le (level : Level) : level.strength ≤ 7 := by
  cases level <;> decide

end Level

namespace Token

variable {m n : Nat} {t : Token}

/-- Whether a token makes an expression longer that was read up to it with strength `n`. -/
def continues (n : Nat) (t : Token) : Bool :=
  t.isSymbol .leftParen || t.isSymbol .dot ||
    Level.all.any (fun level => n ≤ level.strength && level.isOperator t) ||
      (n ≤ 1 && t.isSymbol .question) || (n = 0 && t.isSymbol .equal)

theorem continues_mono (le : m ≤ n) (h : t.continues n = true) : t.continues m = true := by
  simp only [continues, Bool.or_eq_true, Bool.and_eq_true, List.any_eq_true,
    decide_eq_true_eq] at h ⊢
  rcases h with (((call | property) | ⟨level, mem, loose, op⟩) | ⟨loose, question⟩) | ⟨loose, equal⟩
  · exact .inl (.inl (.inl (.inl call)))
  · exact .inl (.inl (.inl (.inr property)))
  · exact .inl (.inl (.inr ⟨level, mem, by omega, op⟩))
  · exact .inl (.inr ⟨by omega, question⟩)
  · exact .inr ⟨by omega, equal⟩

theorem continues_call (h : t.isSymbol .leftParen = true) : t.continues n = true := by
  simp [continues, h]

theorem continues_property (h : t.isSymbol .dot = true) : t.continues n = true := by
  simp [continues, h]

theorem continues_of_operator {level : Level} (le : n ≤ level.strength)
    (h : level.isOperator t = true) : t.continues n = true := by
  have found : Level.all.any (fun level => n ≤ level.strength && level.isOperator t) = true := by
    refine List.any_eq_true.mpr ⟨level, level.mem_all, ?_⟩
    simp [le, h]
  simp [continues, found]

theorem continues_question (le : n ≤ 1) (h : t.isSymbol .question = true) :
    t.continues n = true := by
  simp [continues, le, h]

theorem continues_equal (h : t.isSymbol .equal = true) : t.continues 0 = true := by
  simp [continues, h]

/-- A symbol that continues no expression at all continues none of any strength. -/
theorem continues_symbol {s : Symbol} (h : t.isSymbol s = true)
    (none : ∀ lexeme line, continues 0 ⟨.symbol s, lexeme, line⟩ = false) :
    t.continues n = false := by
  have loosest : t.continues 0 = false := isSymbol_elim h none
  rw [← Bool.not_eq_true] at loosest ⊢
  intro tighter
  exact loosest (continues_mono (Nat.zero_le n) tighter)

theorem continues_operator {level : Level} (h : level.isOperator t = true) :
    t.continues (level.strength + 1) = false := by
  obtain ⟨kind, lexeme, line⟩ := t
  cases kind with
  | symbol s => cases level <;> cases s <;> first | rfl | cases h
  | keyword k => cases level <;> cases k <;> first | rfl | cases h
  | _ => cases level <;> cases h

end Token

namespace Stops

variable {m n : Nat} {a : List Token} {t : Token}

theorem tighter (h : Stops (Token.continues m) a) (le : m ≤ n) : Stops (Token.continues n) a :=
  h.imp fun _ => Token.continues_mono le

theorem call (h : Stops (Token.continues n) a) : Stops (Token.isSymbol .leftParen) a :=
  h.imp fun _ => Token.continues_call

theorem property (h : Stops (Token.continues n) a) : Stops (Token.isSymbol .dot) a :=
  h.imp fun _ => Token.continues_property

theorem operator {level : Level} (h : Stops (Token.continues n) a) (le : n ≤ level.strength) :
    Stops level.isOperator a :=
  h.imp fun _ => Token.continues_of_operator le

theorem question (h : Stops (Token.continues n) a) (le : n ≤ 1) :
    Stops (Token.isSymbol .question) a :=
  h.imp fun _ => Token.continues_question le

theorem equal (h : Stops (Token.continues 0) a) : Stops (Token.isSymbol .equal) a :=
  h.imp fun _ => Token.continues_equal

/-- Symbols that continue no expression: those that close a part or divide it. -/
theorem of_symbol {s : Symbol} (h : t.isSymbol s = true)
    (none : ∀ lexeme line, Token.continues 0 ⟨.symbol s, lexeme, line⟩ = false) :
    Stops (Token.continues n) (t :: a) :=
  stops_cons.mpr (Token.continues_symbol h none)

theorem of_operator {level : Level} (h : level.isOperator t = true) (lt : level.strength < n) :
    Stops (Token.continues n) (t :: a) :=
  tighter (stops_cons.mpr (Token.continues_operator h)) lt

theorem of_question (h : t.isSymbol .question = true) (lt : 1 < n) :
    Stops (Token.continues n) (t :: a) := by
  have two : t.continues 2 = false := Token.isSymbol_elim h fun _ _ => rfl
  exact tighter (stops_cons.mpr two) lt

theorem of_equal (h : t.isSymbol .equal = true) (lt : 0 < n) :
    Stops (Token.continues n) (t :: a) := by
  have one : t.continues 1 = false := Token.isSymbol_elim h fun _ _ => rfl
  exact tighter (stops_cons.mpr one) lt

end Stops

namespace Reading

/-- The readings of the rule of a strength. -/
def At : Nat → List Token → List Token → Expr → List SyntaxError → Prop
  | 0 => Expression
  | 1 => Ternary
  | 2 => Operation .disjunction
  | 3 => Operation .conjunction
  | 4 => Operation .equality
  | 5 => Operation .comparison
  | 6 => Operation .term
  | 7 => Operation .factor
  | _ => Unary

variable {m n : Nat} {a b : List Token} {e : Expr} {vs : List SyntaxError}

theorem at_strength (level : Level) : At level.strength = Operation level := by
  cases level <;> rfl

theorem Operation.of_operand (level : Level) (h : Operand level a b e vs)
    (stops : Stops (Token.continues level.strength) b) : Operation level a b e vs := by
  have chain := Operation.chain h (.done (stops.operator (Nat.le_refl _)))
  rwa [List.append_nil] at chain

/-- What the rule of one strength reads, the next looser one reads. -/
theorem At.step (h : At (n + 1) a b e vs) (le : n ≤ 7) (stops : Stops (Token.continues n) b) :
    At n a b e vs := by
  match n with
  | 0 => exact .plain (.ternary h) stops.equal
  | 1 => exact .plain h (stops.question (Nat.le_refl 1))
  | 2 => exact Operation.of_operand .disjunction (.tighter rfl h) stops
  | 3 => exact Operation.of_operand .conjunction (.tighter rfl h) stops
  | 4 => exact Operation.of_operand .equality (.tighter rfl h) stops
  | 5 => exact Operation.of_operand .comparison (.tighter rfl h) stops
  | 6 => exact Operation.of_operand .term (.tighter rfl h) stops
  | 7 => exact Operation.of_operand .factor (.unary rfl h) stops

/-- What a tighter rule reads, a looser one reads. -/
theorem At.loosen (h : At m a b e vs) (tight : m ≤ 8) (le : n ≤ m)
    (stops : Stops (Token.continues n) b) : At n a b e vs := by
  induction le with
  | refl => exact h
  | @step m le ih =>
    have next : At m a b e vs := h.step (by omega) (stops.tighter le)
    exact ih next (by omega)

end Reading

end LoxLang
