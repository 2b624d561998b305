import Mathlib.Tactic.TypeStar
/-!
Texts in which parentheses tell what belongs together. A bracketed text is a word, or in parentheses a word
and behind it other bracketed texts, with a blank in front of each; words have neither blanks nor parentheses.

What is proved: the text can be read in one way only (`Bracketed.chars_injective`), from the front and
without looking at what follows (`Bracketed.split`).
-/
namespace LoxLang

/-- Words in parentheses. -/
inductive Bracketed where
  | word (text : String)
  /-- In parentheses, a word and what follows it. -/
  | form (head : String) (parts : List Bracketed)

namespace Bracketed

mutual

def chars : Bracketed → List Char
  | .word text => text.toList
  | .form head parts => '(' :: (head.toList ++ (charsAll parts ++ [')']))

/-- The texts of what is bracketed, each with a blank in front. -/
def charsAll : List Bracketed → List Char
  | [] => []
  | t :: ts => ' ' :: (t.chars ++ charsAll ts)

end

/-- A character that no word has. -/
def separates (c : Char) : Bool := c == ' ' || c == '(' || c == ')'

structure IsWord (text : String) : Prop where
  nonempty : text.toList ≠ []
  solid : ∀ c ∈ text.toList, separates c = false

instance (text : String) : Decidable (IsWord text) :=
  decidable_of_iff (text.toList ≠ [] ∧ text.toList.any separates = false)
    ⟨fun h => ⟨h.1, fun c mem => Bool.eq_false_iff.mpr (List.any_eq_false.mp h.2 c mem)⟩,
      fun h => ⟨h.nonempty, List.any_eq_false.mpr fun c mem => Bool.eq_false_iff.mp (h.solid c mem)⟩⟩

mutual

def Sound : Bracketed → Prop
  | .word text => IsWord text
  | .form head parts => IsWord head ∧ SoundAll parts

def SoundAll : List Bracketed → Prop
  | [] => True
  | t :: ts => t.Sound ∧ SoundAll ts

end

/-- The text ends here, or a blank or a parenthesis follows. -/
def Ends (rest : List Char) : Prop := ∀ c ∈ rest.head?, separates c = true

theorem ends_nil : Ends [] := fun _ none => nomatch none

theorem ends_close (rest : List Char) : Ends (')' :: rest) := by
  rintro c ⟨⟩
  rfl

theorem ends_charsAll (ts : List Bracketed) (rest : List Char) : Ends (charsAll ts ++ ')' :: rest) := by
  cases ts with
  | nil => exact ends_close rest
  | cons t ts =>
    rintro c ⟨⟩
    rfl

theorem not_ends {c : Char} {cs : List Char} (solid : ∀ d ∈ c :: cs, separates d = false)
    (rest : List Char) : ¬ Ends (c :: cs ++ rest) := by
  intro ends
  have first := ends c rfl
  rw [solid c List.mem_cons_self] at first
  cases first

/-- A word reaches as far as no character separates. -/
theorem split_word {w w' r r' : List Char} (solid : ∀ c ∈ w, separates c = false)
    (solid' : ∀ c ∈ w', separates c = false) (ends : Ends r) (ends' : Ends r')
    (same : w ++ r = w' ++ r') : w = w' ∧ r = r' := by
  induction w generalizing w' with
  | nil =>
    cases w' with
    | nil => exact ⟨rfl, same⟩
    | cons c' cs' =>
      rw [List.nil_append] at same
      exact absurd (same ▸ ends) (not_ends solid' r')
  | cons c cs ih =>
    cases w' with
    | nil =>
      rw [List.nil_append] at same
      exact absurd (same ▸ ends') (not_ends solid r)
    | cons c' cs' =>
      obtain ⟨first, rest⟩ := List.cons.inj same
      obtain ⟨words, rests⟩ := ih (List.forall_mem_cons.mp solid).2 (List.forall_mem_cons.mp solid').2 rest
      exact ⟨by rw [first, words], rests⟩

theorem IsWord.ne_open {text : String} (word : IsWord text) (r r' : List Char) :
    text.toList ++ r ≠ '(' :: r' := by
  intro same
  obtain ⟨nonempty, solid⟩ := word
  cases cs : text.toList with
  | nil => exact nonempty cs
  | cons c cs' =>
    rw [cs] at same solid
    have first : c = '(' := (List.cons.inj same).1
    have := solid c List.mem_cons_self
    rw [first] at this
    cases this

mutual

/-- Where a bracketed text ends is told by the text. -/
theorem split : ∀ {t t' : Bracketed} {r r' : List Char}, t.Sound → t'.Sound → Ends r → Ends r' →
    t.chars ++ r = t'.chars ++ r' → t = t' ∧ r = r'
  | .word text, .word text', r, r', sound, sound', ends, ends', same => by
    obtain ⟨words, rests⟩ := split_word sound.solid sound'.solid ends ends' same
    exact ⟨congrArg word (String.toList_inj.mp words), rests⟩
  | .word text, .form head parts, r, r', sound, _, _, _, same => absurd same (sound.ne_open _ _)
  | .form head parts, .word text, r, r', _, sound', _, _, same => absurd same.symm (sound'.ne_open _ _)
  | .form head parts, .form head' parts', r, r', sound, sound', ends, ends', same => by
    have inside : head.toList ++ (charsAll parts ++ ')' :: r) =
        head'.toList ++ (charsAll parts' ++ ')' :: r') := by
      simpa [chars] using same
    obtain ⟨heads, rest⟩ := split_word sound.1.solid sound'.1.solid (ends_charsAll _ _)
      (ends_charsAll _ _) inside
    obtain ⟨rfl, rests⟩ := splitAll sound.2 sound'.2 ends ends' rest
    exact ⟨congrArg (form · parts) (String.toList_inj.mp heads), rests⟩

/-- So is where the last of some bracketed texts ends, before a parenthesis. -/
theorem splitAll : ∀ {ts ts' : List Bracketed} {r r' : List Char}, SoundAll ts → SoundAll ts' → Ends r →
    Ends r' → charsAll ts ++ ')' :: r = charsAll ts' ++ ')' :: r' → ts = ts' ∧ r = r'
  | [], [], _, _, _, _, _, _, same => ⟨rfl, (List.cons.inj same).2⟩
  | [], _ :: _, _, _, _, _, _, _, same => absurd (List.cons.inj same).1 (by decide)
  | _ :: _, [], _, _, _, _, _, _, same => absurd (List.cons.inj same).1 (by decide)
  | t :: ts, t' :: ts', r, r', sound, sound', ends, ends', same => by
    have first : t.chars ++ (charsAll ts ++ ')' :: r) = t'.chars ++ (charsAll ts' ++ ')' :: r') := by
      simpa [charsAll] using same
    obtain ⟨rfl, rest⟩ := split sound.1 sound'.1 (ends_charsAll _ _) (ends_charsAll _ _) first
    obtain ⟨rfl, rests⟩ := splitAll sound.2 sound'.2 ends ends' rest
    exact ⟨rfl, rests⟩

end

/-- What is bracketed is told by its text. -/
theorem chars_injective {t t' : Bracketed} (sound : t.Sound) (sound' : t'.Sound)
    (same : t.chars = t'.chars) : t = t' :=
  (split sound sound' ends_nil ends_nil (by rw [same])).1

end Bracketed

end LoxLang
