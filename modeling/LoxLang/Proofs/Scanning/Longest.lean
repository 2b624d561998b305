import Mathlib.Data.List.TakeDrop
import Mathlib.Data.List.TakeWhile
import LoxLang.Proofs.Scanning.Items
/-!
The scanner takes the longest match. The lexical grammar says which texts are tokens and of which kind
(`Lexical.Spells`), without a word on how they are found; where a text begins with several of them, the
longest one counts (`Lexical.Longest`).

What is proved: the first character of a token tells what sort of token it is (`Lexical.spells_iff`),
and its text tells its kind (`Lexical.Spells.unique`); a numeral has the value that its text names
(`Scanner.numeralText_numeral`); the piece that is cut off a text is the longest token that the text
begins with, and a fault only if there is none (`Piece.cut_longest`); and so it is wherever the scanner
comes to a lexeme (`Scanner.longest_match`).
-/
namespace LoxLang

open Token (lineBreaks)

def Symbol.text : Symbol → String
  | .leftParen => "("
  | .rightParen => ")"
  | .leftBrace => "\x7b"
  | .rightBrace => "\x7d"
  | .comma => ","
  | .dot => "."
  | .minus => "-"
  | .plus => "+"
  | .semicolon => ";"
  | .slash => "/"
  | .star => "*"
  | .percent => "%"
  | .question => "?"
  | .colon => ":"
  | .bang => "!"
  | .bangEqual => "!="
  | .equal => "="
  | .equalEqual => "=="
  | .greater => ">"
  | .greaterEqual => ">="
  | .less => "<"
  | .lessEqual => "<="

namespace Lexical

def Digits (text : List Char) : Prop := text ≠ [] ∧ ∀ c ∈ text, c.isDigit = true

def Numeral (text : List Char) : Prop :=
  Digits text ∨ ∃ whole fraction, Digits whole ∧ Digits fraction ∧ text = whole ++ '.' :: fraction

/-- A letter or an underscore, and behind it letters, digits and underscores. -/
def Word : List Char → Prop
  | [] => False
  | c :: cs => (c.isAlpha = true ∨ c = '_') ∧ ∀ d ∈ cs, d.isAlphanum = true ∨ d = '_'

/-- The lexical grammar: which texts are tokens, and of which kind. The value of a number is the one that
its text names, and that of a string is its text without the quotes. -/
inductive Spells : List Char → Kind → Prop where
  | symbol (s : Symbol) : Spells s.text.toList (.symbol s)
  | number {text : List Char} {x : Float} : Numeral text →
      Decimal.ofText? (String.ofList text) = some x → Spells text (.number x)
  | keyword (k : Keyword) : Spells k.word.toList (.keyword k)
  | identifier {text : List Char} : Word text → (∀ k : Keyword, text ≠ k.word.toList) →
      Spells text .identifier
  | string {inner : List Char} : '"' ∉ inner →
      Spells ('"' :: inner ++ ['"']) (.string (String.ofList inner))

structure Longest (rest text : List Char) (kind : Kind) : Prop where
  front : text <+: rest
  spells : Spells text kind
  most : ∀ {text' kind'}, text' <+: rest → Spells text' kind' →
    text'.length < text.length ∨ text' = text ∧ kind' = kind

def NoToken (rest : List Char) : Prop := ∀ text kind, text <+: rest → ¬ Spells text kind

/-- A comment opens at the beginning of the text. -/
def OpensComment (rest : List Char) : Prop := ['/', '/'] <+: rest ∨ ['/', '*'] <+: rest

end Lexical

open Lexical

variable {c : Char} {cs rest text text' : List Char} {kind kind' : Kind}

/-! Sorts of first characters -/

namespace Symbol

theorem text_eq (s : Symbol) : ∃ c t, ofChar? c = some t ∧
    (s.text.toList = [c] ∧ s = t ∨ s.text.toList = [c, '='] ∧ t.withEqual? = some s) := by
  cases s <;> first
    | exact ⟨_, _, rfl, .inl ⟨rfl, rfl⟩⟩
    | exact ⟨_, _, rfl, .inr ⟨rfl, rfl⟩⟩

theorem text_of_ofChar? {s : Symbol} (h : ofChar? c = some s) : s.text.toList = [c] := by
  unfold ofChar? at h
  split at h <;> first | (cases h; rfl) | cases h

theorem text_of_withEqual? {s t : Symbol} (h : ofChar? c = some s) (two : s.withEqual? = some t) :
    t.text.toList = [c, '='] := by
  unfold ofChar? at h
  split at h <;> first | (cases h; cases two; rfl) | (cases h; cases two) | cases h

/-- What symbols begin with nothing else begins with. -/
theorem apart {s : Symbol} (h : ofChar? c = some s) : c ≠ '"' ∧ c.isDigit = false ∧
    Piece.startsWord c = false := by
  unfold ofChar? at h
  split at h <;> first | decide | cases h

end Symbol

namespace Piece

theorem startsWord_iff : startsWord c = true ↔ c.isAlpha = true ∨ c = '_' := by
  simp [startsWord]

theorem inWord_iff : inWord c = true ↔ c.isAlphanum = true ∨ c = '_' := by
  simp [inWord]

theorem ne_quote_of_isDigit (h : c.isDigit = true) : c ≠ '"' := by
  rintro rfl
  exact absurd h (by decide)

theorem ne_quote_of_startsWord (h : startsWord c = true) : c ≠ '"' := by
  rintro rfl
  exact absurd h (by decide)

theorem isDigit_of_startsWord (h : startsWord c = true) : c.isDigit = false := by
  refine Bool.eq_false_iff.mpr fun digit => ?_
  simp only [Char.isDigit, Bool.and_eq_true, decide_eq_true_eq] at digit
  have low : 48 ≤ c.val.toNat := UInt32.le_iff_toNat_le.mp digit.1
  have high : c.val.toNat ≤ 57 := UInt32.le_iff_toNat_le.mp digit.2
  rcases startsWord_iff.mp h with letter | rfl
  · rcases Bool.or_eq_true _ _ |>.mp letter with upper | lower
    · have range : c.val ≥ 'A'.val ∧ c.val ≤ 'Z'.val := of_decide_eq_true upper
      have above : 65 ≤ c.val.toNat := UInt32.le_iff_toNat_le.mp range.1
      omega
    · have range : (decide (c.val ≥ 'a'.val) && decide (c.val ≤ 'z'.val)) = true := lower
      rw [Bool.and_eq_true, decide_eq_true_eq, decide_eq_true_eq] at range
      have above : 97 ≤ c.val.toNat := UInt32.le_iff_toNat_le.mp range.1
      omega
  · exact absurd high (by decide)

theorem word_cons : Word (c :: cs) ↔ startsWord c = true ∧ ∀ d ∈ cs, inWord d = true := by
  simp only [Word, startsWord_iff, inWord_iff]

end Piece

/-! The kinds of words -/

namespace Keyword

theorem word_isWord (k : Keyword) : Word k.word.toList := by
  cases k <;> simp [word, Word]

theorem ofWord?_word (k : Keyword) : ofWord? k.word = some k := by
  cases k <;> decide

theorem ofWord?_eq_none {s : String} (h : ∀ k : Keyword, s.toList ≠ k.word.toList) :
    ofWord? s = none := by
  refine List.find?_eq_none.mpr fun k _ same => h k ?_
  rw [← eq_of_beq same]

end Keyword

namespace Lexical

theorem spells_wordKind (word : Word text) : Spells text (Piece.wordKind (String.ofList text)) := by
  unfold Piece.wordKind
  cases found : Keyword.ofWord? (String.ofList text) with
  | some k =>
    have same : k.word = String.ofList text := by simpa using List.find?_some found
    have spelled := Spells.keyword k
    rwa [same, String.toList_ofList] at spelled
  | none =>
    refine .identifier word fun k same => ?_
    rw [same, String.ofList_toList, Keyword.ofWord?_word] at found
    cases found

/-- A token that begins with this character goes on like this. -/
def GoesOn (c : Char) (cs : List Char) (kind : Kind) : Prop :=
  if c = '"' then ∃ inner, '"' ∉ inner ∧ cs = inner ++ ['"'] ∧ kind = .string (String.ofList inner)
  else if c.isDigit then
    Numeral (c :: cs) ∧ ∃ x, Decimal.ofText? (String.ofList (c :: cs)) = some x ∧ kind = .number x
  else if Piece.startsWord c then
    (∀ d ∈ cs, Piece.inWord d = true) ∧ kind = Piece.wordKind (String.ofList (c :: cs))
  else
    ∃ s, Symbol.ofChar? c = some s ∧
      (cs = [] ∧ kind = .symbol s ∨ ∃ t, s.withEqual? = some t ∧ cs = ['='] ∧ kind = .symbol t)

theorem goesOn_word (word : Word (c :: cs)) :
    GoesOn c cs (Piece.wordKind (String.ofList (c :: cs))) := by
  obtain ⟨letter, rest⟩ := Piece.word_cons.mp word
  rw [GoesOn, if_neg (Piece.ne_quote_of_startsWord letter),
    if_neg (by simp [Piece.isDigit_of_startsWord letter]), if_pos letter]
  exact ⟨rest, rfl⟩

theorem goesOn_symbol {s t : Symbol} (one : Symbol.ofChar? c = some s)
    (h : cs = [] ∧ t = s ∨ cs = ['='] ∧ s.withEqual? = some t) : GoesOn c cs (.symbol t) := by
  obtain ⟨notQuote, notDigit, notLetter⟩ := Symbol.apart one
  rw [GoesOn, if_neg notQuote, if_neg (by simp [notDigit]), if_neg (by simp [notLetter])]
  refine ⟨s, one, ?_⟩
  rcases h with ⟨rfl, rfl⟩ | ⟨rfl, two⟩
  · exact .inl ⟨rfl, rfl⟩
  · exact .inr ⟨t, two, rfl, rfl⟩

theorem Numeral.head (h : Numeral (c :: cs)) : c.isDigit = true := by
  rcases h with digits | ⟨whole, fraction, digits, -, eq⟩
  · exact digits.2 c List.mem_cons_self
  · cases whole with
    | nil => exact (digits.1 rfl).elim
    | cons d ds =>
      obtain ⟨rfl, -⟩ := List.cons.inj eq
      exact digits.2 c List.mem_cons_self

theorem not_numeral_nil : ¬ Numeral [] := by
  rintro (digits | ⟨whole, fraction, -, -, eq⟩)
  · exact digits.1 rfl
  · simp at eq

/-- No token is empty, and the first character tells how it goes on. -/
theorem Spells.goesOn (h : Spells text kind) : ∃ c cs, text = c :: cs ∧ GoesOn c cs kind := by
  cases h with
  | symbol s =>
    obtain ⟨c, t, one, ⟨text, rfl⟩ | ⟨text, two⟩⟩ := s.text_eq
    · exact ⟨c, [], text, goesOn_symbol one (.inl ⟨rfl, rfl⟩)⟩
    · exact ⟨c, ['='], text, goesOn_symbol one (.inr ⟨rfl, two⟩)⟩
  | number numeral value =>
    cases text with
    | nil => exact (not_numeral_nil numeral).elim
    | cons c cs =>
      have digit := numeral.head
      refine ⟨c, cs, rfl, ?_⟩
      rw [GoesOn, if_neg (Piece.ne_quote_of_isDigit digit), if_pos digit]
      exact ⟨numeral, _, value, rfl⟩
  | keyword k =>
    have word := k.word_isWord
    cases text : k.word.toList with
    | nil =>
      rw [text] at word
      exact word.elim
    | cons c cs =>
      have goes := goesOn_word (text ▸ word)
      rw [← text, String.ofList_toList, Piece.wordKind, Keyword.ofWord?_word] at goes
      exact ⟨c, cs, rfl, goes⟩
  | identifier word noKeyword =>
    cases text with
    | nil => exact word.elim
    | cons c cs =>
      have goes := goesOn_word word
      rw [Piece.wordKind, Keyword.ofWord?_eq_none (by simpa using noKeyword)] at goes
      exact ⟨c, cs, rfl, goes⟩
  | @string inner closed =>
    refine ⟨'"', inner ++ ['"'], rfl, ?_⟩
    rw [GoesOn, if_pos rfl]
    exact ⟨inner, closed, rfl, rfl⟩

/-- A text is a token if it goes on as its first character says. -/
theorem spells_iff : Spells (c :: cs) kind ↔ GoesOn c cs kind := by
  refine ⟨fun h => ?_, fun h => ?_⟩
  · obtain ⟨d, ds, eq, goes⟩ := h.goesOn
    obtain ⟨rfl, rfl⟩ := List.cons.inj eq
    exact goes
  · unfold GoesOn at h
    split at h
    · obtain ⟨inner, closed, rfl, rfl⟩ := h
      rename_i quote
      subst quote
      exact .string closed
    split at h
    · obtain ⟨numeral, x, value, rfl⟩ := h
      exact .number numeral value
    split at h
    · rename_i letter
      obtain ⟨rest, rfl⟩ := h
      exact spells_wordKind (Piece.word_cons.mpr ⟨letter, rest⟩)
    · obtain ⟨s, one, ⟨rfl, rfl⟩ | ⟨t, two, rfl, rfl⟩⟩ := h
      · exact Symbol.text_of_ofChar? one ▸ .symbol s
      · exact Symbol.text_of_withEqual? one two ▸ .symbol t

/-- The text of a token tells its kind. -/
theorem Spells.unique (h : Spells text kind) (h' : Spells text kind') : kind = kind' := by
  obtain ⟨c, cs, rfl, goes⟩ := h.goesOn
  have goes' := spells_iff.mp h'
  unfold GoesOn at goes goes'
  by_cases quote : c = '"'
  · rw [if_pos quote] at goes goes'
    obtain ⟨inner, -, eq, rfl⟩ := goes
    obtain ⟨inner', -, eq', rfl⟩ := goes'
    rw [List.append_cancel_right (eq.symm.trans eq')]
  rw [if_neg quote] at goes goes'
  by_cases digit : c.isDigit = true
  · rw [if_pos digit] at goes goes'
    obtain ⟨-, x, value, rfl⟩ := goes
    obtain ⟨-, x', value', rfl⟩ := goes'
    rw [Option.some.inj (value.symm.trans value')]
  rw [if_neg digit] at goes goes'
  by_cases letter : Piece.startsWord c = true
  · rw [if_pos letter] at goes goes'
    exact goes.2.trans goes'.2.symm
  rw [if_neg letter] at goes goes'
  obtain ⟨s, one, symbol⟩ := goes
  obtain ⟨s', one', symbol'⟩ := goes'
  obtain rfl := Option.some.inj (one.symm.trans one')
  rcases symbol with ⟨rfl, rfl⟩ | ⟨t, two, rfl, rfl⟩ <;>
    rcases symbol' with ⟨eq, rfl⟩ | ⟨t', two', eq, rfl⟩
  · rfl
  · cases eq
  · cases eq
  · rw [Option.some.inj (two.symm.trans two')]

/-- A token is the longest one if none that the text begins with has more characters. -/
theorem Spells.longest (spells : Spells text kind) (front : text <+: rest)
    (most : ∀ {text' kind'}, text' <+: rest → Spells text' kind' → text'.length ≤ text.length) :
    Longest rest text kind where
  front := front
  spells := spells
  most front' spells' := by
    rcases Nat.lt_or_eq_of_le (most front' spells') with less | same
    · exact .inl less
    · obtain rfl := (List.prefix_of_prefix_length_le front' front
        (Nat.le_of_eq same)).eq_of_length same
      exact .inr ⟨rfl, spells'.unique spells⟩

/-- There is but one longest token. -/
theorem Longest.unique (h : Longest rest text kind) (h' : Longest rest text' kind') :
    text' = text ∧ kind' = kind := by
  rcases h.most h'.front h'.spells with less | same
  · rcases h'.most h.front h.spells with less' | ⟨same, -⟩
    · omega
    · rw [same] at less
      omega
  · exact same

/-- A token is a keyword or a name, a string or a number, just if its text is one, and carries what its
text says. -/
structure Describes (kind : Kind) (lexeme : String) : Prop where
  keyword : ∀ k, kind = .keyword k ↔ lexeme = k.word
  identifier : kind = .identifier ↔ Word lexeme.toList ∧ ∀ k : Keyword, lexeme ≠ k.word
  string : ∀ value, kind = .string value ↔ lexeme = "\"" ++ value ++ "\""
  number : ∀ x, kind = .number x ↔ Numeral lexeme.toList ∧ Decimal.ofText? lexeme = some x

theorem Spells.describes (h : Spells text kind) : Describes kind (String.ofList text) where
  keyword k := by
    refine ⟨fun same => ?_, fun same => ?_⟩
    · subst same
      cases h
      exact String.ofList_toList
    · have keyword := Spells.keyword k
      rw [← same, String.toList_ofList] at keyword
      exact h.unique keyword
  identifier := by
    rw [String.toList_ofList]
    refine ⟨fun same => ?_, fun ⟨word, noKeyword⟩ => ?_⟩
    · subst same
      cases h with
      | identifier word noKeyword =>
        exact ⟨word, fun k same => noKeyword k (by rw [← same, String.toList_ofList])⟩
    · exact h.unique (.identifier word fun k same => noKeyword k (by rw [same, String.ofList_toList]))
  string value := by
    have quoted : String.ofList text = "\"" ++ value ++ "\"" ↔ text = '"' :: value.toList ++ ['"'] := by
      rw [← String.toList_inj, String.toList_ofList, String.toList_append, String.toList_append]
      rfl
    rw [quoted]
    refine ⟨fun same => ?_, fun same => ?_⟩
    · subst same
      cases h with
      | string closed => rw [String.toList_ofList]
    · subst same
      have goes := spells_iff.mp h
      rw [GoesOn, if_pos rfl] at goes
      obtain ⟨inner, -, eq, rfl⟩ := goes
      rw [← List.append_cancel_right eq, String.ofList_toList]
  number x := by
    rw [String.toList_ofList]
    refine ⟨fun same => ?_, fun ⟨numeral, value⟩ => h.unique (.number numeral value)⟩
    subst same
    cases h with
    | number numeral value => exact ⟨numeral, value⟩

end Lexical

/-! Numerals -/

/-- Characters of some kind that a text begins with are among all those in a row. -/
theorem prefix_takeWhile {p : Char → Bool} (each : ∀ c ∈ text, p c = true) (front : text <+: rest) :
    text <+: rest.takeWhile p := by
  obtain ⟨behind, rfl⟩ := front
  rw [List.takeWhile_append_of_pos each]
  exact List.prefix_append _ _

/-- All characters of some kind in a row, where another one comes next. -/
theorem takeWhile_append {p : Char → Bool} (each : ∀ c ∈ text, p c = true) (rest : List Char)
    (stop : ∀ c ∈ rest.head?, p c = false) : (text ++ rest).takeWhile p = text := by
  rw [List.takeWhile_append_of_pos each]
  cases rest with
  | nil => simp
  | cons c cs => simp [stop c rfl]

theorem dropWhile_append {p : Char → Bool} (each : ∀ c ∈ text, p c = true) (rest : List Char)
    (stop : ∀ c ∈ rest.head?, p c = false) : (text ++ rest).dropWhile p = rest := by
  rw [List.dropWhile_append_of_pos each]
  cases rest with
  | nil => rfl
  | cons c cs => simp [stop c rfl]

namespace Decimal

theorem toLower_of_isDigit (h : c.isDigit = true) : c.toLower = c := by
  simp only [Char.isDigit, Bool.and_eq_true, decide_eq_true_eq] at h
  have high : c.val.toNat ≤ 57 := UInt32.le_iff_toNat_le.mp h.2
  unfold Char.toLower
  split
  · rename_i upper
    have low : 65 ≤ c.val.toNat := UInt32.le_iff_toNat_le.mp upper.1
    omega
  · rfl

theorem lower_ne_of_numeral (numeral : Numeral text) :
    ¬ (String.ofList (text.map Char.toLower) = "inf" ∨ String.ofList (text.map Char.toLower) = "infinity") ∧
      String.ofList (text.map Char.toLower) ≠ "nan" := by
  cases text with
  | nil => exact (not_numeral_nil numeral).elim
  | cons c cs =>
    have digit := numeral.head
    have unlike {x : Char} {xs : List Char} (no : x.isDigit = false) :
        String.ofList ((c :: cs).map Char.toLower) ≠ String.ofList (x :: xs) := by
      intro same
      have lists := String.ofList_injective same
      rw [List.map_cons, toLower_of_isDigit digit] at lists
      rw [(List.cons.inj lists).1, no] at digit
      cases digit
    refine ⟨fun infinite => ?_, unlike (x := 'n') (by decide)⟩
    rcases infinite with same | same
    · exact unlike (x := 'i') (by decide) same
    · exact unlike (x := 'i') (by decide) same

/-- A numeral has no sign. -/
theorem ofText?_eq (numeral : Numeral text) :
    ofText? (String.ofList text) = unsigned? text := by
  obtain ⟨infinite, undefined⟩ := lower_ne_of_numeral numeral
  cases text with
  | nil => exact (not_numeral_nil numeral).elim
  | cons c cs =>
    have digit := numeral.head
    have other {x : Char} (no : x.isDigit = false) : c ≠ x := by
      rintro rfl
      rw [digit] at no
      cases no
    unfold ofText?
    rw [String.toList_ofList]
    split
    rename_i negative ds sign
    obtain ⟨rfl, rfl⟩ : negative = false ∧ ds = c :: cs := by
      split at sign
      · rename_i minus
        exact (other (by decide) (List.cons.inj minus).1).elim
      · rename_i plus
        exact (other (by decide) (List.cons.inj plus).1).elim
      · exact ⟨(congrArg Prod.fst sign).symm, (congrArg Prod.snd sign).symm⟩
    dsimp only
    rw [if_neg infinite, if_neg undefined]
    simp

theorem ofText?_minus (numeral : Numeral text) :
    ofText? (String.ofList ('-' :: text)) = (unsigned? text).map fun x => -x := by
  obtain ⟨infinite, undefined⟩ := lower_ne_of_numeral numeral
  unfold ofText?
  rw [String.toList_ofList]
  split
  rename_i negative ds sign
  obtain ⟨rfl, rfl⟩ : negative = true ∧ ds = text :=
    ⟨(congrArg Prod.fst sign).symm, (congrArg Prod.snd sign).symm⟩
  dsimp only
  rw [if_neg infinite, if_neg undefined]
  simp

theorem unsigned?_digits (h : Digits text) : unsigned? text = some (ofDigits text []) := by
  have first := takeWhile_append h.2 [] nofun
  have last := dropWhile_append h.2 [] nofun
  rw [List.append_nil] at first last
  simp [unsigned?, List.span_eq_takeWhile_dropWhile, first, last, h.1, ofDigits]

theorem unsigned?_point {whole fraction : List Char} (h : Digits whole) (h' : Digits fraction) :
    unsigned? (whole ++ '.' :: fraction) = some (ofDigits whole fraction) := by
  have first := takeWhile_append h.2 ('.' :: fraction) (by simp)
  have last := dropWhile_append h.2 ('.' :: fraction) (by simp)
  have first' := takeWhile_append h'.2 [] nofun
  have last' := dropWhile_append h'.2 [] nofun
  rw [List.append_nil] at first' last'
  simp [unsigned?, List.span_eq_takeWhile_dropWhile, first, last, first', last', h.1, ofDigits]

end Decimal

namespace Scanner

/-- The numeral at the front of a text is one of the grammar, and has the value that its text names. -/
theorem numeralText_numeral (cs : List Char) (digit : c.isDigit = true) : Numeral (numeralText (c :: cs)) ∧
    Decimal.ofText? (String.ofList (numeralText (c :: cs))) =
      some (Decimal.ofDigits (Piece.numeral (c :: cs)).1 (Piece.numeral (c :: cs)).2.1) := by
  have row (l : List Char) : ∀ d ∈ l.takeWhile Char.isDigit, d.isDigit = true :=
    fun d mem => List.all_eq_true.mp List.all_takeWhile d mem
  have whole : Digits ((c :: cs).takeWhile Char.isDigit) := by
    refine ⟨?_, row _⟩
    rw [List.takeWhile_cons_of_pos digit]
    exact List.cons_ne_nil _ _
  rcases numeral_cases (c :: cs) with ⟨d, rest, digit', -, eq⟩ | ⟨-, eq⟩
  · have fraction : Digits (d :: rest.takeWhile Char.isDigit) :=
      ⟨List.cons_ne_nil _ _, List.forall_mem_cons.mpr ⟨digit', row rest⟩⟩
    have text : numeralText (c :: cs) =
        (c :: cs).takeWhile Char.isDigit ++ '.' :: d :: rest.takeWhile Char.isDigit := by
      simp [numeralText, eq]
    have numeral : Numeral (numeralText (c :: cs)) := .inr ⟨_, _, whole, fraction, text⟩
    refine ⟨numeral, ?_⟩
    rw [Decimal.ofText?_eq numeral, text, Decimal.unsigned?_point whole fraction, eq]
  · have text : numeralText (c :: cs) = (c :: cs).takeWhile Char.isDigit := by
      simp [numeralText, eq]
    have numeral : Numeral (numeralText (c :: cs)) := .inl (text ▸ whole)
    refine ⟨numeral, ?_⟩
    rw [Decimal.ofText?_eq numeral, text, Decimal.unsigned?_digits whole, eq]

theorem length_le_numeralText (front : text <+: rest) (numeral : Numeral text) :
    text.length ≤ (numeralText rest).length := by
  rcases numeral with digits | ⟨whole, fraction, digits, digits', rfl⟩
  · have among := (prefix_takeWhile digits.2 front).length_le
    rcases numeral_cases rest with ⟨d, behind, -, -, eq⟩ | ⟨-, eq⟩ <;>
      simp [numeralText, eq] <;> omega
  · obtain ⟨behind, rfl⟩ := front
    rw [List.append_assoc, List.cons_append]
    have first := takeWhile_append digits.2 ('.' :: (fraction ++ behind)) (by simp)
    have point := dropWhile_append digits.2 ('.' :: (fraction ++ behind)) (by simp)
    have among := (prefix_takeWhile digits'.2 (List.prefix_append fraction behind)).length_le
    rcases numeral_cases (whole ++ '.' :: (fraction ++ behind)) with
      ⟨d, others, digit, point', eq⟩ | ⟨short, -⟩
    · have same : fraction ++ behind = d :: others := (List.cons.inj (point.symm.trans point')).2
      rw [same, List.takeWhile_cons_of_pos digit] at among
      rw [first] at eq
      simp [numeralText, eq] at among ⊢
      omega
    · cases fraction with
      | nil => exact (digits'.1 rfl).elim
      | cons d ds =>
        have digit := digits'.2 d List.mem_cons_self
        rw [short d (ds ++ behind) point] at digit
        cases digit

end Scanner

/-! Pieces -/

namespace Piece

theorem goesOn_of_front (front : text <+: c :: cs) (h : Spells text kind) :
    ∃ ds, text = c :: ds ∧ ds <+: cs ∧ GoesOn c ds kind := by
  obtain ⟨d, ds, rfl, goes⟩ := h.goesOn
  obtain ⟨rfl, behind⟩ := List.cons_prefix_cons.mp front
  exact ⟨ds, rfl, behind, goes⟩

theorem cut_front (c : Char) (cs : List Char) : (cut c cs).1.text <+: c :: cs :=
  ⟨_, cut_append c cs⟩

/-- What is cut off a text, unless it is a blank or a comment, is the longest token that the text begins
with; it is a fault only if there is none. -/
theorem cut_longest (c : Char) (cs : List Char) (solid : isBlank c = false)
    (noComment : ¬ OpensComment (c :: cs)) :
    match (cut c cs).1.role with
    | .token kind => Longest (c :: cs) (cut c cs).1.text kind
    | .fault f => NoToken (c :: cs) ∧ f = if c = '"' then .openString else .unexpected c
    | _ => False := by
  have front := cut_front c cs
  revert front
  fun_cases cut c cs with
  | case1 c cs blank => exact absurd solid (by simp [blank])
  -- A closed string ends at its first closing quote, and no string goes beyond that.
  | case2 c cs notBlank quote q behind found inner =>
    intro front
    obtain rfl : c = '"' := eq_of_beq quote
    have spells : Spells ('"' :: inner ++ ['"']) (.string (String.ofList inner)) := by
      refine .string fun mem => ?_
      have other := List.all_eq_true.mp List.all_takeWhile '"' mem
      simp at other
    refine spells.longest front fun front' spells' => ?_
    obtain ⟨ds, rfl, ⟨rest, rfl⟩, goes⟩ := goesOn_of_front front' spells'
    rw [GoesOn, if_pos rfl] at goes
    obtain ⟨inner', closed, rfl, -⟩ := goes
    have same : inner = inner' := by
      have each : ∀ d ∈ inner', (d != '"') = true := fun d mem =>
        bne_iff_ne.mpr (ne_of_mem_of_not_mem mem closed)
      have row := takeWhile_append each ('"' :: rest) (by simp)
      simpa [inner] using row
    simp [same]
  -- An open string: whatever began with the quote would have to close it.
  | case3 c cs notBlank quote found =>
    intro _
    obtain rfl : c = '"' := eq_of_beq quote
    refine ⟨fun text kind front spells => ?_, rfl⟩
    obtain ⟨ds, rfl, ⟨rest, rfl⟩, goes⟩ := goesOn_of_front front spells
    rw [GoesOn, if_pos rfl] at goes
    obtain ⟨inner, -, rfl, -⟩ := goes
    have none := List.dropWhile_eq_nil_iff.mp found '"' (by simp)
    simp at none
  -- What begins with a digit is a numeral, and no numeral goes further than this one.
  | case4 c cs notBlank notQuote digit whole fraction behind found point =>
    intro front
    obtain ⟨numeral, value⟩ := Scanner.numeralText_numeral cs digit
    have text : Scanner.numeralText (c :: cs) = whole ++ point ++ fraction := by
      rw [Scanner.numeralText, found]
    rw [text, found] at value
    rw [text] at numeral
    refine (Spells.number numeral value).longest front fun front' spells' => ?_
    obtain ⟨ds, rfl, -, goes⟩ := goesOn_of_front front' spells'
    rw [GoesOn, if_neg (by simpa using notQuote), if_pos digit] at goes
    rw [← text]
    exact Scanner.length_le_numeralText front' goes.1
  -- What begins with a letter is a word.
  | case5 c cs notBlank notQuote notDigit letter word =>
    intro front
    have row : ∀ d ∈ cs.takeWhile inWord, inWord d = true :=
      fun d mem => List.all_eq_true.mp List.all_takeWhile d mem
    refine (spells_wordKind (word_cons.mpr ⟨letter, row⟩)).longest front fun front' spells' => ?_
    obtain ⟨ds, rfl, behind, goes⟩ := goesOn_of_front front' spells'
    rw [GoesOn, if_neg (by simpa using notQuote), if_neg notDigit, if_pos letter] at goes
    exact Nat.succ_le_succ (prefix_takeWhile goes.1 behind).length_le
  -- Comments of either kind, the last of them open.
  | case6 => exact absurd (.inl (by simp)) noComment
  | case7 => exact absurd (.inr (by simp)) noComment
  | case8 => exact absurd (.inr (by simp)) noComment
  -- Nothing begins with the character.
  | case9 c cs notBlank notQuote notDigit notLetter none =>
    intro _
    have other : c ≠ '"' := by simpa using notQuote
    rw [none]
    refine ⟨fun text kind front spells => ?_, (if_neg other).symm⟩
    obtain ⟨ds, -, -, goes⟩ := goesOn_of_front front spells
    rw [GoesOn, if_neg other, if_neg notDigit, if_neg notLetter] at goes
    obtain ⟨s, one, -⟩ := goes
    rw [none] at one
    cases one
  -- Of a symbol and the same with `=` behind it, the longer one is cut off.
  | case10 c notBlank notQuote notDigit notLetter s one t behind two =>
    intro front
    have spells := Spells.symbol t
    rw [Symbol.text_of_withEqual? one two] at spells
    have other : c ≠ '"' := by simpa using notQuote
    rw [one] at front ⊢
    simp only [two] at front ⊢
    refine spells.longest front fun front' spells' => ?_
    obtain ⟨ds, rfl, -, goes⟩ := goesOn_of_front front' spells'
    rw [GoesOn, if_neg other, if_neg notDigit, if_neg notLetter] at goes
    obtain ⟨s', -, ⟨rfl, -⟩ | ⟨t', -, rfl, -⟩⟩ := goes <;> simp
  -- The symbol that would be longer is not what the text goes on with.
  | case11 c cs notBlank notQuote notDigit notLetter s one noLine noBlock short =>
    have spells := Spells.symbol s
    rw [Symbol.text_of_ofChar? one] at spells
    have other : c ≠ '"' := by simpa using notQuote
    rw [one]
    dsimp only
    split
    · rename_i t rest two
      exact absurd rfl (short t rest two)
    · intro front
      refine spells.longest front fun front' spells' => ?_
      obtain ⟨ds, rfl, ⟨rest, whole⟩, goes⟩ := goesOn_of_front front' spells'
      rw [GoesOn, if_neg other, if_neg notDigit, if_neg notLetter] at goes
      obtain ⟨s', one', ⟨rfl, -⟩ | ⟨t, two, rfl, -⟩⟩ := goes
      · exact Nat.le_refl _
      · obtain rfl := Option.some.inj (one.symm.trans one')
        exact (short t rest two whole.symm).elim

end Piece

namespace Scanner

/-- The scanner has come to the beginning of a lexeme of the source, or to its end. -/
inductive Comes (source : String) : Scanner → Prop where
  | first : Comes source (ofSource source)
  | behind {s s' : Scanner} {l : Lexeme} : Comes source s →
      scanToken { s with start := s.curr } = some (l, s') → Comes source s'

/-- Wherever the scanner comes, it stands between what it has gone over of the source and the rest, and
knows the line. -/
theorem Comes.between {source : String} {s : Scanner} (h : Comes source s) :
    ∃ done rest, source.toList = done ++ rest ∧ s.At done rest ∧ s.line = 1 + lineBreaks done := by
  induction h with
  | first => exact ⟨[], source.toList, rfl, ⟨bytes_ofSource source, rfl⟩, rfl⟩
  | @behind s s' l _ read ih =>
    obtain ⟨done, rest, whole, here, line⟩ := ih
    have begun : At { s with start := s.curr } done rest := ⟨here.bytes, here.curr⟩
    cases rest with
    | nil =>
      have ended : Scanner.advance { s with start := s.curr } = none := if_neg begun.not_inside
      rw [scanToken, ended] at read
      cases read
    | cons c cs =>
      have reads := scanToken_reads begun rfl
      rw [Reads, read] at reads
      obtain ⟨-, rfl⟩ := Prod.mk.inj (Option.some.inj reads)
      have cut := Piece.cut_append c cs
      refine ⟨done ++ (Piece.cut c cs).1.text, (Piece.cut c cs).2, ?_, ?_, ?_⟩
      · rw [whole, List.append_assoc, cut]
      · rw [← cut] at begun
        exact begun.beyond
      · show s.line + lineBreaks _ = 1 + lineBreaks (done ++ _)
        rw [line, lineBreaks, lineBreaks, lineBreaks, List.countP_append, Nat.add_assoc]

/-- Where a comment opens, no token is read. -/
theorem no_token_of_comment {s : Scanner} {done : List Char} (here : s.At done rest)
    (begins : s.start = s.curr) (opens : OpensComment rest) :
    ∃ l s', s.scanToken = some (l, s') ∧ ∀ kind, l ≠ some (.ok kind) := by
  rcases opens with ⟨behind, rfl⟩ | ⟨behind, rfl⟩
  · exact ⟨_, _, scanToken_reads here begins, nofun⟩
  · refine ⟨_, _, scanToken_reads here begins, fun kind => ?_⟩
    show Piece.lexeme (Piece.cut '/' ('*' :: behind)).1 _ ≠ _
    rw [Piece.cut_block]
    cases Piece.afterComment 1 0 behind with
    | none => exact nofun
    | some found => exact nofun

/-- The scanner takes the longest match. Wherever it comes to a lexeme of a source, it stands between what
it has gone over and the rest. If the rest begins with no blank and no comment, and there are tokens that
it begins with, the next item is the longest of them, with the line on which it ends; its text tells
whether it is a keyword or a name, a string or a number, and what it carries. If there are none, the next
item is a fault: a character that nothing begins with, or a string that is not closed. A slash that opens
a comment is never taken for a token. -/
theorem longest_match {source : String} {s : Scanner} (h : Comes source s) :
    ∃ done rest, source.toList = done ++ rest ∧ s.At done rest ∧
      (OpensComment rest → ∃ l s', scanToken { s with start := s.curr } = some (l, s') ∧
        ∀ kind, l ≠ some (.ok kind)) ∧
      ∀ c cs, rest = c :: cs → Piece.isBlank c = false → ¬ OpensComment rest →
        ∃ text rest' s', rest = text ++ rest' ∧ Comes source s' ∧ s'.At (done ++ text) rest' ∧
          let line := 1 + lineBreaks (done ++ text)
          ((∃ kind, Longest rest text kind ∧ Describes kind (String.ofList text) ∧
              s.next = some (some (.ok ⟨kind, String.ofList text, line⟩), s')) ∨
            NoToken rest ∧
              s.next = some (some (.error ⟨if c = '"' then .openString else .unexpected c, line⟩), s')) := by
  obtain ⟨done, rest, whole, here, line⟩ := h.between
  have begun : At { s with start := s.curr } done rest := ⟨here.bytes, here.curr⟩
  refine ⟨done, rest, whole, here, no_token_of_comment begun rfl, ?_⟩
  rintro c cs rfl solid noComment
  have read : scanToken { s with start := s.curr } = _ := scanToken_reads begun rfl
  have last : s.line + lineBreaks (Piece.cut c cs).1.text =
      1 + lineBreaks (done ++ (Piece.cut c cs).1.text) := by
    rw [line, lineBreaks, lineBreaks, lineBreaks, List.countP_append, Nat.add_assoc]
  have next := next_eq here
  have longest := Piece.cut_longest c cs solid noComment
  rw [← Piece.cut_append c cs] at begun
  refine ⟨_, _, _, (Piece.cut_append c cs).symm, .behind h read, begun.beyond, ?_⟩
  rw [last, Token.ofPiece?] at next
  split at longest
  · rename_i kind role
    rw [role] at next
    exact .inl ⟨kind, longest, longest.spells.describes, next⟩
  · rename_i f role
    rw [role] at next
    obtain ⟨none, rfl⟩ := longest
    exact .inr ⟨none, next⟩
  · exact longest.elim

/-- A word is taken whole, and not the keyword that it begins with. -/
theorem longest_match_orchid : Comes "orchid<=1..2" (ofSource "orchid<=1..2") ∧
    Longest "orchid<=1..2".toList "orchid".toList .identifier ∧
    ∃ s', (ofSource "orchid<=1..2").next = some (some (.ok ⟨.identifier, "orchid", 1⟩), s') := by
  have known : Longest "orchid<=1..2".toList "orchid".toList .identifier :=
    Piece.cut_longest 'o' "rchid<=1..2".toList (by decide) (by simp [OpensComment])
  refine ⟨.first, known, ?_⟩
  obtain ⟨done, rest, whole, here, -, scans⟩ := longest_match (@Comes.first "orchid<=1..2")
  have begins : done = [] := by
    by_contra more
    have none : (encode done).length = 0 := here.curr.symm
    exact encode_ne_nil more (List.length_eq_zero_iff.mp none)
  subst begins
  rw [List.nil_append] at whole
  subst whole
  obtain ⟨text, rest', s', -, -, -, found⟩ :=
    scans 'o' "rchid<=1..2".toList rfl (by decide) (by simp [OpensComment])
  rcases found with ⟨kind, longest, -, next⟩ | ⟨none, -⟩
  · obtain ⟨rfl, rfl⟩ := known.unique longest
    exact ⟨s', next⟩
  · exact (none _ _ known.front known.spells).elim

end Scanner

end LoxLang
