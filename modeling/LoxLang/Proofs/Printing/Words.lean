import LoxLang.Proofs.Printing.Bracketed
import LoxLang.Proofs.Printing.ReadBack
import LoxLang.Proofs.Scanning.Rescanning
import LoxLang.Proofs.Scanning.Tiling
import LoxLang.Proofs.Syntax.Beginnings
import LoxLang.Proofs.Syntax.Proper
/-!
Tokens and constants as words. The texts of names, of operators and of constants that are not strings have
neither blanks nor parentheses, so that they can be words of bracketed texts.

What is proved:
1. the tokens of a source are spelled as the lexical grammar has it (`Scan.spelled_of_mem`), so that the
   text of a token tells everything but its line (`Token.Spelled.relocate_eq`);
2. names, operators and legible constants are words (`Token.IsReference.isWord`, `Token.IsSign.isWord`,
   `Literal.Legible.isWord`);
3. a legible constant is told by its text (`Literal.text_injective`), and it can be told from a name
   (`Literal.Legible.isConstant`, `Token.IsReference.not_isConstant`).
-/
namespace LoxLang

open Bracketed Lexical

/-! What tokens are spelled with -/

/-- A token as the lexical grammar has it: its text spells its kind. -/
def Token.Spelled (t : Token) : Prop := Spells t.lexeme.toList t.kind

/-- A piece that is a token is spelled as its kind asks for. -/
theorem Piece.spells_cut (c : Char) (cs : List Char) {kind : Kind}
    (role : (cut c cs).1.role = .token kind) : Spells (cut c cs).1.text kind := by
  have solid : isBlank c = false := by
    refine Bool.eq_false_iff.mpr fun blank => ?_
    unfold cut at role
    rw [if_pos blank] at role
    cases role
  have noComment : ¬ OpensComment (c :: cs) := by
    rintro (⟨behind, same⟩ | ⟨behind, same⟩)
    · obtain ⟨rfl, rfl⟩ := List.cons.inj same
      cases role
    · obtain ⟨rfl, rfl⟩ := List.cons.inj same
      change (cut '/' ('*' :: behind)).1.role = _ at role
      rw [cut_block] at role
      cases found : afterComment 1 0 behind <;> (rw [found] at role; cases role)
  have longest := cut_longest c cs solid noComment
  rw [role] at longest
  exact longest.spells

/-- The tokens of a source are spelled, but for the one at the end. -/
theorem Scan.spelled_of_mem {source : String} {t : Token} (h : t ∈ (ofSource source).tokens)
    (inner : t.kind ≠ .eof) : t.Spelled := by
  rw [tokens_ofSource] at h
  rcases List.mem_append.mp h with among | last
  · have face := List.mem_map_of_mem (f := Token.face) among
    rw [words, Token.map_face_words] at face
    obtain ⟨p, piece, is⟩ := List.mem_filterMap.mp face
    obtain ⟨role, text⟩ := Piece.face?_eq is
    have spells := Piece.of_mem_pieces (P := fun p => p.role = .token t.kind → Spells p.text t.kind)
      (fun c cs => Piece.spells_cut c cs) piece role
    rwa [text] at spells
  · rw [List.mem_singleton.mp last] at inner
    exact absurd rfl inner

namespace Token

variable {t t' op name : Token}

namespace Spelled

/-- Spelled tokens with the same text differ in nothing but the line. -/
theorem relocate_eq (h : t.Spelled) (h' : t'.Spelled) (same : t.lexeme = t'.lexeme) :
    (t.relocate fun _ => 1) = t'.relocate fun _ => 1 := by
  unfold Spelled at h h'
  rw [← same] at h'
  unfold relocate
  rw [same, h.unique h']

theorem symbol (h : t.Spelled) {s : Symbol} (kind : t.kind = .symbol s) : t.lexeme = s.text := by
  unfold Spelled at h
  rw [kind] at h
  generalize text : t.lexeme.toList = cs at h
  cases h
  exact String.toList_inj.mp text

theorem keyword (h : t.Spelled) {k : Keyword} (kind : t.kind = .keyword k) : t.lexeme = k.word := by
  unfold Spelled at h
  rw [kind] at h
  generalize text : t.lexeme.toList = cs at h
  cases h
  exact String.toList_inj.mp text

theorem identifier (h : t.Spelled) (kind : t.kind = .identifier) :
    Word t.lexeme.toList ∧ ∀ k : Keyword, t.lexeme ≠ k.word := by
  unfold Spelled at h
  rw [kind] at h
  generalize text : t.lexeme.toList = cs at h ⊢
  cases h with
  | identifier word noKeyword =>
    exact ⟨word, fun k same => noKeyword k (text.symm.trans (congrArg String.toList same))⟩

end Spelled

/-! Names and operators -/

def IsReference (name : Token) : Prop := name.Spelled ∧ name.kind = .identifier

end Token

def Symbol.operates : Symbol → Bool
  | .bang | .minus | .plus | .slash | .star | .percent | .bangEqual | .equalEqual | .greater
  | .greaterEqual | .less | .lessEqual => true
  | _ => false

namespace Token

/-- An operator that is a symbol, spelled as one. -/
def IsSign (op : Token) : Prop := op.Spelled ∧ ∃ s : Symbol, op.kind = .symbol s ∧ s.operates = true

/-- An operator that is a keyword, spelled as one. -/
def IsConnective (op : Token) : Prop :=
  op.Spelled ∧ (op.kind = .keyword .or ∨ op.kind = .keyword .and)

variable {t op name : Token}

theorem kind_of_isSymbol {s : Symbol} (h : t.isSymbol s = true) : t.kind = .symbol s := by
  refine of_decide_eq_true (isSymbol_elim (p := fun t => t.kind = .symbol s) h fun _ _ => ?_)
  exact decide_eq_true rfl

theorem operates_of_isUnaryOperator (h : Grammar.isUnaryOperator op = true) :
    ∃ s : Symbol, op.kind = .symbol s ∧ s.operates = true := by
  rcases Bool.or_eq_true _ _ |>.mp h with bang | minus
  · exact ⟨.bang, kind_of_isSymbol bang, rfl⟩
  · exact ⟨.minus, kind_of_isSymbol minus, rfl⟩

theorem IsBinary.operates (h : op.IsBinary) : ∃ s : Symbol, op.kind = .symbol s ∧ s.operates = true := by
  obtain ⟨kind, lexeme, line⟩ := op
  cases kind with
  | symbol s =>
    refine ⟨s, rfl, ?_⟩
    rcases h with h | h | h | h <;> (revert h; cases s <;> first | exact fun _ => rfl | exact Bool.noConfusion)
  | _ => rcases h with h | h | h | h <;> cases h

theorem IsLogical.kind (h : op.IsLogical) : op.kind = .keyword .or ∨ op.kind = .keyword .and := by
  obtain ⟨kind, lexeme, line⟩ := op
  cases kind with
  | keyword k => cases k <;> first | exact .inl rfl | exact .inr rfl | (rcases h with h | h <;> cases h)
  | _ => rcases h with h | h <;> cases h

end Token

/-! Words -/

/-- What neither a blank nor a parenthesis is, does not separate words. -/
theorem Bracketed.separates_of {p : Char → Bool} {c : Char} (h : p c = true)
    (others : [' ', '(', ')'].any p = false) : separates c = false := by
  refine Bool.eq_false_iff.mpr fun separated => List.any_eq_false.mp others c ?_ h
  simpa [separates, or_assoc] using separated

theorem Lexical.Word.isWord {text : String} (word : Word text.toList) : IsWord text := by
  cases letters : text.toList with
  | nil =>
    rw [letters] at word
    exact word.elim
  | cons c cs =>
    rw [letters] at word
    obtain ⟨first, others⟩ := Piece.word_cons.mp word
    refine ⟨letters ▸ List.cons_ne_nil c cs, letters ▸ List.forall_mem_cons.mpr ⟨?_, fun d mem => ?_⟩⟩
    · exact separates_of first (by decide)
    · exact separates_of (others d mem) (by decide)

namespace Token

variable {name op : Token}

theorem IsReference.isWord (h : name.IsReference) : IsWord name.lexeme := (h.1.identifier h.2).1.isWord

theorem IsSign.text (h : op.IsSign) : ∃ s : Symbol, s.operates = true ∧ op.lexeme = s.text := by
  obtain ⟨spelled, s, kind, operates⟩ := h
  exact ⟨s, operates, spelled.symbol kind⟩

theorem IsSign.isWord (h : op.IsSign) : IsWord op.lexeme := by
  obtain ⟨s, operates, text⟩ := h.text
  rw [text]
  revert operates
  cases s <;> decide

theorem IsConnective.text (h : op.IsConnective) : op.lexeme = "or" ∨ op.lexeme = "and" :=
  h.2.imp h.1.keyword h.1.keyword

theorem IsConnective.isWord (h : op.IsConnective) : IsWord op.lexeme := by
  rcases h.text with text | text <;> (rw [text]; decide)

end Token

/-! Constants -/

def Bracketed.startsNumber (text : String) : Bool :=
  text.toList.head?.any fun c => c.isDigit || c == '-'

/-- A text that is the text of a constant. -/
def Bracketed.isConstant (text : String) : Bool :=
  ["nil", "true", "false"].contains text || startsNumber text

/-- A constant that shows in its text: neither a string, nor a number that is not finite. -/
def Literal.legible : Literal → Bool
  | .nil | .bool _ => true
  | .number x => x.isFinite
  | .string _ => false

theorem Lexical.Numeral.solid {cs : List Char} (numeral : Numeral cs) : ∀ c ∈ cs, separates c = false := by
  have digit {ds : List Char} (h : Digits ds) : ∀ c ∈ ds, separates c = false :=
    fun c mem => separates_of (h.2 c mem) (by decide)
  rcases numeral with digits | ⟨whole, fraction, digits, digits', rfl⟩
  · exact digit digits
  · exact List.forall_mem_append.mpr ⟨digit digits, List.forall_mem_cons.mpr ⟨rfl, digit digits'⟩⟩

namespace Literal

variable {v w : Literal} {x : Float}

/-- A finite number is written as a numeral, or as one with a sign. -/
theorem render_signed (finite : x.isFinite = true) : Numeral (numberLayout.render x).toList ∨
    ∃ cs, Numeral cs ∧ (numberLayout.render x).toList = '-' :: cs := by
  obtain ⟨negative, m, e, -, canonical, text⟩ := render_eq finite
  obtain ⟨numeral, -⟩ := Decimal.magnitude_rounds canonical
  rw [text]
  cases negative with
  | false => exact .inl numeral
  | true => exact .inr ⟨_, numeral, rfl⟩

theorem isWord_render (finite : x.isFinite = true) :
    IsWord (numberLayout.render x) ∧ startsNumber (numberLayout.render x) = true := by
  rcases render_signed finite with numeral | ⟨cs, numeral, text⟩
  · cases text : (numberLayout.render x).toList with
    | nil =>
      rw [text] at numeral
      exact absurd numeral not_numeral_nil
    | cons c cs =>
      refine ⟨⟨text ▸ List.cons_ne_nil c cs, numeral.solid⟩, ?_⟩
      rw [text] at numeral
      simp [startsNumber, text, numeral.head]
  · refine ⟨⟨text ▸ List.cons_ne_nil _ cs, ?_⟩, by simp [startsNumber, text]⟩
    rw [text]
    exact List.forall_mem_cons.mpr ⟨rfl, numeral.solid⟩

/-- A legible constant is a word, and can be told to be a constant. -/
theorem isWord_text (legible : v.legible = true) : IsWord v.text ∧ isConstant v.text = true := by
  cases v with
  | nil => decide
  | bool b => cases b <;> decide
  | number x =>
    obtain ⟨word, starts⟩ := isWord_render legible
    exact ⟨word, by rw [isConstant, text, starts, Bool.or_true]⟩
  | string s => cases legible

/-- Legible constants are told by their texts. -/
theorem text_injective (legible : v.legible = true) (legible' : w.legible = true)
    (same : v.text = w.text) : v = w := by
  -- Numbers begin as no word does.
  have apart {x : Float} {s : String} (finite : x.isFinite = true) (other : startsNumber s = false) :
      numberLayout.render x ≠ s := fun same => by
    rw [← same, (isWord_render finite).2] at other
    cases other
  cases v with
  | nil =>
    cases w with
    | nil => rfl
    | bool b => cases b <;> exact absurd same (by decide)
    | number y => exact absurd same.symm (apart legible' (by decide))
    | string s => cases legible'
  | bool b =>
    cases w with
    | nil => cases b <;> exact absurd same (by decide)
    | bool b' => revert same; cases b <;> cases b' <;> decide
    | number y => cases b <;> exact absurd same.symm (apart legible' (by decide))
    | string s => cases legible'
  | number x =>
    cases w with
    | nil => exact absurd same (apart legible (by decide))
    | bool b => cases b <;> exact absurd same (apart legible (by decide))
    | number y => exact congrArg number (render_injective legible legible' same)
    | string s => cases legible'
  | string s => cases legible

end Literal

theorem Token.IsReference.not_isConstant {name : Token} (h : name.IsReference) :
    isConstant name.lexeme = false := by
  obtain ⟨word, noKeyword⟩ := h.1.identifier h.2
  have starts : startsNumber name.lexeme = false := by
    unfold startsNumber
    cases letters : name.lexeme.toList with
    | nil => rfl
    | cons c cs =>
      rw [letters] at word
      have first := (Piece.word_cons.mp word).1
      have sign : c ≠ '-' := by
        rintro rfl
        exact absurd first (by decide)
      simp [Piece.isDigit_of_startsWord first, sign]
  rw [isConstant, starts, Bool.or_false, List.contains_eq_any_beq]
  simpa using ⟨noKeyword .nil, noKeyword .true, noKeyword .false⟩

end LoxLang
