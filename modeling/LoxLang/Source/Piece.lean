import LoxLang.Diagnostic
import LoxLang.Decimal.Numeral
/-!
The text of a program cut into pieces: blanks, comments, tokens and faults. Cutting loses nothing:
the pieces put together are the text again (`flatten_pieces`), and no piece is empty
(`cut_length`), which is why cutting ends.
-/
namespace LoxLang

/-- What a piece of text is to the language. -/
inductive Piece.Role where
  | blank
  | comment
  | token (kind : Kind)
  | fault (f : LexFault)

structure Piece where
  role : Piece.Role
  text : List Char

namespace Piece

/-- Blanks, tabs and line ends have no meaning between tokens. -/
def isBlank (c : Char) : Bool := c == ' ' || c == '\r' || c == '\t' || c == '\n'

/-- Words begin with a letter of the English alphabet or an underscore. -/
def startsWord (c : Char) : Bool := c.isAlpha || c == '_'

def inWord (c : Char) : Bool := c.isAlphanum || c == '_'

/-- The text behind the `*/` that closes the last of `depth` open comments, and the number of
characters in front of that. Comments may hold comments. -/
def afterComment : (depth length : Nat) → List Char → Option (Nat × List Char)
  | 0, n, cs => some (n, cs)
  | d + 1, n, '*' :: '/' :: cs => afterComment d (n + 2) cs
  | d + 1, n, '/' :: '*' :: cs => afterComment (d + 2) (n + 2) cs
  | d + 1, n, _ :: cs => afterComment (d + 1) (n + 1) cs
  | _ + 1, _, [] => none

/-- The digits of the numeral at the front of a text, those behind the point, and the rest. A point
belongs to the numeral only if a digit follows it. -/
def numeral (cs : List Char) : List Char × List Char × List Char :=
  let whole := cs.takeWhile Char.isDigit
  match cs.dropWhile Char.isDigit with
  | '.' :: c :: rest =>
    if c.isDigit then (whole, c :: rest.takeWhile Char.isDigit, rest.dropWhile Char.isDigit)
    else (whole, [], '.' :: c :: rest)
  | rest => (whole, [], rest)

/-- The kind of a word: a keyword or a name. -/
def wordKind (word : String) : Kind :=
  match Keyword.ofWord? word with
  | some k => .keyword k
  | none => .identifier

/-- The first piece of the text `c :: cs`, and the rest of it. -/
def cut (c : Char) (cs : List Char) : Piece × List Char :=
  if isBlank c then (⟨.blank, [c]⟩, cs)
  else if c == '"' then
    match cs.dropWhile (· != '"') with
    | _ :: rest =>
      let inner := cs.takeWhile (· != '"')
      (⟨.token (.string (String.ofList inner)), '"' :: inner ++ ['"']⟩, rest)
    | [] => (⟨.fault .openString, c :: cs⟩, [])
  else if c.isDigit then
    let (whole, fraction, rest) := numeral (c :: cs)
    let point := if fraction.isEmpty then [] else ['.']
    (⟨.token (.number (Decimal.ofDigits whole fraction)), whole ++ point ++ fraction⟩, rest)
  else if startsWord c then
    let word := c :: cs.takeWhile inWord
    (⟨.token (wordKind (String.ofList word)), word⟩, cs.dropWhile inWord)
  else
    match c, cs with
    | '/', '/' :: rest =>
      (⟨.comment, '/' :: '/' :: rest.takeWhile (· != '\n')⟩, rest.dropWhile (· != '\n'))
    | '/', '*' :: rest =>
      match afterComment 1 0 rest with
      | some (n, after) => (⟨.comment, '/' :: '*' :: rest.take n⟩, after)
      | none => (⟨.fault .openComment, '/' :: '*' :: rest⟩, [])
    | _, _ =>
      match Symbol.ofChar? c with
      | none => (⟨.fault (.unexpected c), [c]⟩, cs)
      | some s =>
        match s.withEqual?, cs with
        | some t, '=' :: rest => (⟨.token (.symbol t), [c, '=']⟩, rest)
        | _, _ => (⟨.token (.symbol s), [c]⟩, cs)

theorem afterComment_eq_drop : ∀ (d n : Nat) (cs : List Char) {k : Nat} {rest : List Char},
    afterComment d n cs = some (k, rest) → ∃ j, k = n + j ∧ rest = cs.drop j
  | 0, n, cs, _, _, h => by
    obtain ⟨rfl, rfl⟩ : n = _ ∧ cs = _ := by simpa [afterComment] using h
    exact ⟨0, rfl, rfl⟩
  | d + 1, n, cs, k, rest, h => by
    unfold afterComment at h
    split at h
    · contradiction
    · obtain ⟨j, rfl, rfl⟩ := afterComment_eq_drop _ _ _ h
      exact ⟨j + 2, by omega, rfl⟩
    · obtain ⟨j, rfl, rfl⟩ := afterComment_eq_drop _ _ _ h
      exact ⟨j + 2, by omega, rfl⟩
    · obtain ⟨j, rfl, rfl⟩ := afterComment_eq_drop _ _ _ h
      exact ⟨j + 1, by omega, rfl⟩
    · cases h
termination_by _ _ cs => cs.length

/-- A comment's text and what follows it are the text after its opener. -/
theorem take_afterComment {cs : List Char} {n : Nat} {rest : List Char}
    (h : afterComment 1 0 cs = some (n, rest)) : cs.take n ++ rest = cs := by
  obtain ⟨j, rfl, rfl⟩ := afterComment_eq_drop _ _ _ h
  simp

/-- The parts of a numeral, its point and the rest are the text. -/
theorem numeral_append (cs : List Char) :
    (numeral cs).1 ++ (if (numeral cs).2.1.isEmpty then [] else ['.']) ++ (numeral cs).2.1
      ++ (numeral cs).2.2 = cs := by
  have whole := List.takeWhile_append_dropWhile (p := Char.isDigit) (l := cs)
  unfold numeral
  split
  · rename_i c rest eq
    split
    · simpa [eq] using whole
    · simpa [eq] using whole
  · simp

/-- A numeral that begins with a digit has a digit in front of the point. -/
theorem numeral_ne_nil {c : Char} {cs : List Char} (h : c.isDigit = true) :
    (numeral (c :: cs)).1 ≠ [] := by
  unfold numeral
  split
  · split <;> simp [h]
  · simp [h]

/-- Cutting loses nothing: the piece and the rest are the text. -/
theorem cut_append (c : Char) (cs : List Char) : (cut c cs).1.text ++ (cut c cs).2 = c :: cs := by
  unfold cut
  split
  · rfl
  split
  · rename_i quote
    have whole := List.takeWhile_append_dropWhile (p := (· != '"')) (l := cs)
    split
    · rename_i d rest eq
      have d_eq : d = '"' := by
        have := List.head?_dropWhile_not (p := (· != '"')) (l := cs)
        simpa [eq] using this
      have c_eq : c = '"' := by simpa using quote
      subst d_eq c_eq
      rw [eq] at whole
      simpa using whole
    · simp
  split
  · simpa using numeral_append (c :: cs)
  split
  · simp
  split
  · simp
  · split
    · rename_i after
      simpa using take_afterComment after
    · simp
  · split
    · rfl
    · split <;> rfl

theorem cut_text_ne_nil (c : Char) (cs : List Char) : (cut c cs).1.text ≠ [] := by
  unfold cut
  split
  · simp
  split
  · split <;> simp
  split
  · rename_i digit
    have := @numeral_ne_nil c cs digit
    simp_all
  split
  · simp
  split
  · simp
  · split <;> simp
  · split
    · simp
    · split <;> simp

theorem cut_length (c : Char) (cs : List Char) : (cut c cs).2.length < (c :: cs).length := by
  have whole := congrArg List.length (cut_append c cs)
  have := List.length_pos_iff.mpr (cut_text_ne_nil c cs)
  rw [List.length_append] at whole
  omega

def pieces : List Char → List Piece
  | [] => []
  | c :: cs => (cut c cs).1 :: pieces (cut c cs).2
termination_by cs => cs.length
decreasing_by exact cut_length c cs

/-- The pieces put together are the text. -/
theorem flatten_pieces (cs : List Char) : ((pieces cs).map text).flatten = cs := by
  induction h : cs.length using Nat.strongRecOn generalizing cs with
  | ind n ih =>
    cases cs with
    | nil => simp [pieces]
    | cons c cs =>
      have shorter := cut_length c cs
      rw [pieces, List.map_cons, List.flatten_cons, ih _ (h ▸ shorter) _ rfl, cut_append]

end Piece
end LoxLang
