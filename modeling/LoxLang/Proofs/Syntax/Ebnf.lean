import Mathlib.Data.List.Basic
import LoxLang.Token
/-!
Rules written with sequences, choices, optional parts and repetitions, over any nonterminals. A
grammar gives every nonterminal its rule, and `Ebnf.Derives` says which tokens a rule derives.

`Ebnf.Holds` is the meaning of a rule when its nonterminals mean given sets of token lists. What
holds of the rule of every nonterminal holds of all derivations (`Derives.holds`).
-/
namespace LoxLang

/-- A rule over the nonterminals `N`. -/
inductive Ebnf (N : Type) where
  | token (p : Token → Bool)
  | rule (n : N)
  | seq (first second : Ebnf N)
  | alt (left right : Ebnf N)
  | opt (e : Ebnf N)
  | many (e : Ebnf N)
  /-- At most so many times. -/
  | atMost (bound : Nat) (e : Ebnf N)

namespace Ebnf

variable {N : Type}

def symbol (s : Symbol) : Ebnf N := .token (Token.isSymbol s)

def keyword (k : Keyword) : Ebnf N := .token (Token.isKeyword k)

def inOrder : List (Ebnf N) → Ebnf N → Ebnf N
  | [], e => e
  | first :: others, e => .seq first (inOrder others e)

def oneOf : List (Ebnf N) → Ebnf N → Ebnf N
  | [], e => e
  | first :: others, e => .alt first (oneOf others e)

/-- The tokens that a rule derives in the grammar `G`. -/
inductive Derives (G : N → Ebnf N) : Ebnf N → List Token → Prop where
  | token {p : Token → Bool} {t : Token} (h : p t = true) : Derives G (.token p) [t]
  | rule {n : N} {u : List Token} (h : Derives G (G n) u) : Derives G (.rule n) u
  | seq {e f : Ebnf N} {u v : List Token} (h : Derives G e u) (h' : Derives G f v) :
    Derives G (.seq e f) (u ++ v)
  | left {e f : Ebnf N} {u : List Token} (h : Derives G e u) : Derives G (.alt e f) u
  | right {e f : Ebnf N} {u : List Token} (h : Derives G f u) : Derives G (.alt e f) u
  | absent {e : Ebnf N} : Derives G (.opt e) []
  | present {e : Ebnf N} {u : List Token} (h : Derives G e u) : Derives G (.opt e) u
  | done {e : Ebnf N} : Derives G (.many e) []
  | more {e : Ebnf N} {u v : List Token} (h : Derives G e u) (h' : Derives G (.many e) v) :
    Derives G (.many e) (u ++ v)
  | enough {e : Ebnf N} {bound : Nat} : Derives G (.atMost bound e) []
  | another {e : Ebnf N} {bound : Nat} {u v : List Token} (h : Derives G e u)
    (h' : Derives G (.atMost bound e) v) : Derives G (.atMost (bound + 1) e) (u ++ v)

/-- The meaning of a rule when every nonterminal `n` means the token lists of `sem n`. -/
def Holds (sem : N → List Token → Prop) : Ebnf N → List Token → Prop
  | .token p, u => ∃ t, p t = true ∧ u = [t]
  | .rule n, u => sem n u
  | .seq e f, u => ∃ v w, e.Holds sem v ∧ f.Holds sem w ∧ u = v ++ w
  | .alt e f, u => e.Holds sem u ∨ f.Holds sem u
  | .opt e, u => u = [] ∨ e.Holds sem u
  | .many e, u => ∃ us : List (List Token), (∀ v ∈ us, e.Holds sem v) ∧ u = us.flatten
  | .atMost bound e, u => ∃ us : List (List Token),
    us.length ≤ bound ∧ (∀ v ∈ us, e.Holds sem v) ∧ u = us.flatten

variable {G : N → Ebnf N} {sem : N → List Token → Prop} {e : Ebnf N} {u : List Token}

/-- What every rule of the grammar gives from its parts, every derivation gives. -/
theorem Derives.holds (closed : ∀ n u, (G n).Holds sem u → sem n u) (h : Derives G e u) :
    e.Holds sem u := by
  induction h with
  | token h => exact ⟨_, h, rfl⟩
  | rule _ ih => exact closed _ _ ih
  | seq _ _ ih ih' => exact ⟨_, _, ih, ih', rfl⟩
  | left _ ih => exact .inl ih
  | right _ ih => exact .inr ih
  | absent => exact .inl rfl
  | present _ ih => exact .inr ih
  | done => exact ⟨[], by simp, rfl⟩
  | more _ _ ih ih' =>
    obtain ⟨us, each, rfl⟩ := ih'
    refine ⟨_ :: us, ?_, rfl⟩
    intro v mem
    rcases List.mem_cons.mp mem with rfl | mem
    · exact ih
    · exact each v mem
  | enough => exact ⟨[], Nat.zero_le _, by simp, rfl⟩
  | another _ _ ih ih' =>
    obtain ⟨us, few, each, rfl⟩ := ih'
    refine ⟨_ :: us, Nat.succ_le_succ few, ?_, rfl⟩
    intro v mem
    rcases List.mem_cons.mp mem with rfl | mem
    · exact ih
    · exact each v mem

end Ebnf

end LoxLang
