import LoxLang.Proofs.Scanning.Tiling
import LoxLang.Proofs.Splitting.Scanning
/-!
Scanning what was scanned. The text of a token is cut off as that token again wherever nothing or a
blank follows it (`Piece.cut_again`), so lexemes with blanks between them scan to the tokens they came
from (`Scan.rescan_faithful`), whatever faults and comments there were around them.
-/
namespace LoxLang

namespace Piece

variable {c : Char} {cs rest : List Char}

/-- Nothing or a blank comes next. -/
def Apart (rest : List Char) : Prop := ∀ x ∈ rest.head?, isBlank x = true

theorem apart_nil : Apart [] := fun _ h => by cases h

theorem apart_cons {x : Char} (blank : isBlank x = true) (ds : List Char) : Apart (x :: ds) :=
  fun _ h => by cases h; exact blank

theorem eq_of_isBlank {x : Char} (h : isBlank x = true) : x = ' ' ∨ x = '\r' ∨ x = '\t' ∨ x = '\n' := by
  simpa [isBlank, or_assoc] using h

/-- What follows is no character of a kind that no blank is of. -/
theorem Apart.ne (h : Apart rest) {x : Char} (solid : isBlank x = false) (ds : List Char) :
    rest ≠ x :: ds := by
  rintro rfl
  rw [h x rfl] at solid
  cases solid

/-- A run of characters, none of them blank, ends in front of a blank. -/
theorem Apart.takeWhile (h : Apart rest) {p : Char → Bool} (solid : ∀ x, isBlank x = true → p x = false) :
    rest.takeWhile p = [] := by
  cases rest with
  | nil => rfl
  | cons x ds => rw [List.takeWhile_cons, solid x (h x rfl)]; rfl

theorem Apart.dropWhile (h : Apart rest) {p : Char → Bool}
    (solid : ∀ x, isBlank x = true → p x = false) : rest.dropWhile p = rest := by
  cases rest with
  | nil => rfl
  | cons x ds => rw [List.dropWhile_cons, solid x (h x rfl)]; rfl

theorem numeral_again (h : Apart rest) (cs : List Char) :
    numeral (Scanner.numeralText cs ++ rest) = ((numeral cs).1, (numeral cs).2.1, rest) := by
  cases rest with
  | nil => rw [List.append_nil, Scanner.numeral_numeralText]
  | cons x ds =>
    have stop : x.isDigit = false ∧ x ≠ '.' := by
      rcases eq_of_isBlank (h x rfl) with rfl | rfl | rfl | rfl <;> decide
    rw [numeral_append_stop stop.1 stop.2, Scanner.numeral_numeralText]
    rfl

/-- The piece is cut off again wherever its text stands apart. -/
def Recurs (p : Piece) : Prop :=
  ∃ c cs, p.text = c :: cs ∧ ∀ rest, Apart rest → cut c (cs ++ rest) = (p, rest)

/-- The text of a token is cut off as that token. -/
theorem cut_again {kind : Kind} (role : (cut c cs).1.role = .token kind) : (cut c cs).1.Recurs := by
  revert role
  fun_cases cut c cs with
  | case1 => exact fun role => Role.noConfusion role
  -- The closing quote is part of the token, so it does not matter what comes next.
  | case2 c cs notBlank quote q behind found inner =>
    intro _
    have inside : ∀ x ∈ inner, (x != '"') = true :=
      fun x mem => List.all_eq_true.mp List.all_takeWhile x mem
    refine ⟨'"', inner ++ ['"'], rfl, fun rest _ => ?_⟩
    rw [List.append_assoc, List.singleton_append]
    unfold cut
    rw [if_neg (by decide), if_pos (by decide), List.takeWhile_append_of_pos inside,
      List.dropWhile_append_of_pos inside]
    simp
  | case3 => exact fun role => Role.noConfusion role
  -- The text is that of the one numeral, and a blank goes on with none.
  | case4 c cs notBlank notQuote digit whole fraction behind found point =>
    intro _
    have text : Scanner.numeralText (c :: cs) = whole ++ point ++ fraction := by
      rw [Scanner.numeralText, found]
    have first := Scanner.numeralText_append (c :: cs)
    rw [text, found] at first
    cases eq : whole ++ point ++ fraction with
    | nil =>
      have none := @numeral_ne_nil c cs digit
      rw [found] at none
      simp [none] at eq
    | cons d tail =>
      rw [eq] at first text
      obtain rfl : d = c := (List.cons.inj first).1
      refine ⟨d, tail, rfl, fun rest apart => ?_⟩
      have again : numeral (d :: (tail ++ rest)) = (whole, fraction, rest) := by
        rw [← List.cons_append, ← text, numeral_again apart, found]
      unfold cut
      rw [if_neg notBlank, if_neg notQuote, if_pos digit, again, ← eq]
  -- A blank goes on with no word.
  | case5 c cs notBlank notQuote notDigit letter word =>
    intro _
    have inside : ∀ x ∈ cs.takeWhile inWord, inWord x = true :=
      fun x mem => List.all_eq_true.mp List.all_takeWhile x mem
    refine ⟨c, cs.takeWhile inWord, rfl, fun rest apart => ?_⟩
    have solid : ∀ x, isBlank x = true → inWord x = false := by
      intro x blank
      rcases eq_of_isBlank blank with rfl | rfl | rfl | rfl <;> decide
    unfold cut
    rw [if_neg notBlank, if_neg notQuote, if_neg notDigit, if_pos letter,
      List.takeWhile_append_of_pos inside, List.dropWhile_append_of_pos inside, apart.takeWhile solid,
      apart.dropWhile solid, List.append_nil]
  | case6 => exact fun role => Role.noConfusion role
  | case7 => exact fun role => Role.noConfusion role
  | case8 => exact fun role => Role.noConfusion role
  | case9 c cs notBlank notQuote notDigit notLetter none =>
    intro role
    rw [none] at role
    cases role
  | case10 c notBlank notQuote notDigit notLetter s one t behind two =>
    intro _
    refine ⟨c, ['='], ?_, fun rest _ => ?_⟩
    · rw [one]
      simp only [two]
    · rw [List.singleton_append, cut_of_double notBlank notQuote notDigit notLetter one two, one]
      simp only [two]
  -- With a blank or nothing behind it the symbol is not the first character of a longer one.
  | case11 c cs notBlank notQuote notDigit notLetter s one noLine noBlock short =>
    intro _
    have alone : ∀ rest, Apart rest → cut c rest = (⟨.token (.symbol s), [c]⟩, rest) := fun rest apart =>
      cut_of_single notBlank notQuote notDigit notLetter one (fun ds _ => apart.ne (by decide) ds)
        (fun ds _ => apart.ne (by decide) ds) (fun _ ds _ => apart.ne (by decide) ds)
    rw [one]
    dsimp only
    split
    · rename_i t rest two _
      exact absurd rfl (short t rest two)
    · exact ⟨c, [], rfl, alone⟩

theorem recurs_of_mem {p : Piece} (h : p ∈ pieces cs) {kind : Kind} (role : p.role = .token kind) :
    p.Recurs :=
  of_mem_pieces (P := fun p => ∀ kind, p.role = .token kind → p.Recurs) (fun _ _ _ => cut_again) h kind role

/-- Pieces that recur, with one blank between neighbours, are cut into themselves and the blanks. -/
theorem pieces_intercalate {sep : Char} (blank : isBlank sep = true) : ∀ ps : List Piece,
    (∀ p ∈ ps, p.Recurs) →
      pieces ([sep].intercalate (ps.map text)) = ps.intersperse ⟨.blank, [sep]⟩
  | [], _ => by
    rw [List.intersperse_nil, List.map_nil, List.intercalate_nil, pieces]
  | [p], each => by
    obtain ⟨c, cs, whole, again⟩ := each p List.mem_cons_self
    rw [List.intersperse_singleton, List.map_singleton, List.intercalate_singleton, whole, pieces,
      ← List.append_nil cs, again [] apart_nil, pieces]
  | p :: q :: ps, each => by
    obtain ⟨c, cs, whole, again⟩ := each p List.mem_cons_self
    have ih := pieces_intercalate blank (q :: ps) fun r mem => each r (List.mem_cons_of_mem _ mem)
    have between : ∀ ds, cut sep ds = (⟨.blank, [sep]⟩, ds) := fun ds => by
      unfold cut
      rw [if_pos blank]
    rw [List.map_cons] at ih
    rw [List.intersperse_cons_cons, List.map_cons, List.map_cons, List.intercalate_cons_cons,
      List.append_assoc, whole, List.cons_append, pieces, List.singleton_append,
      again _ (apart_cons blank _), pieces, between, ih]

/-- What a piece that is a token is, whatever line it stands on. -/
def face? (p : Piece) : Option (Kind × String) :=
  match p.role with
  | .token kind => some (kind, String.ofList p.text)
  | _ => none

theorem face?_eq {p : Piece} {face : Kind × String} (h : p.face? = some face) :
    p.role = .token face.1 ∧ p.text = face.2.toList := by
  unfold face? at h
  split at h
  · rename_i kind role
    cases h
    exact ⟨role, String.toList_ofList.symm⟩
  · cases h

theorem sound_of_mem_intersperse {cs : List Char} : ∀ {ps : List Piece}, (∀ p ∈ ps, p.Sound) →
    ∀ p ∈ ps.intersperse ⟨.blank, cs⟩, p.Sound
  | [], sound => sound
  | [_], sound => sound
  | p :: q :: ps, sound => by
    obtain ⟨first, rest⟩ := List.forall_mem_cons.mp sound
    rw [List.intersperse_cons_cons, List.forall_mem_cons, List.forall_mem_cons]
    exact ⟨first, fun _ fault => (nomatch fault), sound_of_mem_intersperse rest⟩

theorem filterMap_intersperse (cs : List Char) : ∀ ps : List Piece,
    (ps.intersperse ⟨.blank, cs⟩).filterMap face? = ps.filterMap face?
  | [] => rfl
  | [_] => rfl
  | p :: q :: ps => by
    rw [List.intersperse_cons_cons, List.filterMap_cons, List.filterMap_cons,
      filterMap_intersperse cs (q :: ps), ← List.filterMap_cons]
    rfl

end Piece

namespace Token

/-- A token without its line: its kind with the value of a literal, and its lexeme. -/
def face (t : Token) : Kind × String := (t.kind, t.lexeme)

theorem map_face_words (ps : List Piece) (line : Nat) :
    (words line ps).map face = ps.filterMap Piece.face? := by
  induction ps generalizing line with
  | nil => rfl
  | cons p ps ih =>
    rw [words, List.filterMap_cons, Piece.face?]
    cases p.role with
    | token kind =>
      rw [← ih]
      rfl
    | _ => exact ih _

end Token

namespace Scan

variable {sep : Char}

/-- The pieces of a source that are tokens. -/
def solid (source : String) : List Piece := (Piece.pieces source.toList).filter (·.face?.isSome)

theorem map_face_solid (source : String) :
    (words source).map Token.face = (solid source).filterMap Piece.face? := by
  rw [words, Token.map_face_words, solid, List.filterMap_filter]
  congr 1
  funext p
  cases p.face? <;> rfl

theorem role_of_mem_solid {source : String} {p : Piece} (h : p ∈ solid source) :
    ∃ kind, p.role = .token kind := by
  obtain ⟨_, some_⟩ := List.mem_filter.mp h
  obtain ⟨face, eq⟩ := Option.isSome_iff_exists.mp some_
  exact ⟨face.1, (Piece.face?_eq eq).1⟩

theorem recurs_of_mem_solid {source : String} {p : Piece} (h : p ∈ solid source) : p.Recurs := by
  obtain ⟨kind, role⟩ := role_of_mem_solid h
  exact Piece.recurs_of_mem (List.mem_filter.mp h).1 role

theorem sound_of_mem_solid {source : String} {p : Piece} (h : p ∈ solid source) : p.Sound := by
  obtain ⟨kind, role⟩ := role_of_mem_solid h
  intro f fault
  rw [role] at fault
  cases fault

/-- The lexemes of a source are the texts of these pieces. -/
theorem toList_lexemes (source : String) :
    ((words source).map (·.lexeme)).map String.toList = (solid source).map Piece.text := by
  have lexemes : (words source).map (·.lexeme) = ((words source).map Token.face).map Prod.snd := by
    rw [List.map_map]
    rfl
  rw [lexemes, map_face_solid, solid]
  induction Piece.pieces source.toList with
  | nil => rfl
  | cons p ps ih =>
    rw [List.filter_cons]
    cases eq : p.face? with
    | none => exact ih
    | some face =>
      rw [Option.isSome_some, if_pos rfl, List.filterMap_cons, eq, List.map_cons, List.map_cons,
        List.map_cons, ih, (Piece.face?_eq eq).2]

/-- The pieces of the lexemes of a source, with a blank between neighbours, are those they came from
and the blanks. -/
theorem pieces_lexemes (blank : Piece.isBlank sep = true) (source : String) :
    Piece.pieces ((String.ofList [sep]).intercalate ((words source).map (·.lexeme))).toList =
      (solid source).intersperse ⟨.blank, [sep]⟩ := by
  rw [String.toList_intercalate, toList_lexemes, String.toList_ofList]
  exact Piece.pieces_intercalate blank (solid source) fun p mem => recurs_of_mem_solid mem

/-- The tokens that scanning finds in a source, without the end token. -/
def found (source : String) : List Token := (ofSource source).tokens.filter (!·.isEof)

/-- The lexemes found in a source, joined by a separator. -/
def rejoined (sep source : String) : String := sep.intercalate ((found source).map (·.lexeme))

theorem found_eq (source : String) : found source = words source := by
  have inner : ∀ t ∈ words source, (!t.isEof) = true := fun t mem => by
    rw [isEof_of_mem_words mem]
    rfl
  rw [found, tokens_ofSource, List.filter_append, List.filter_eq_self.mpr inner]
  exact List.append_nil _

/-- Scanning is faithful to what it gives. Take the lexemes of any source, whatever faults it has, and
put one blank or one line break between neighbours: the scan of that text has no fault, and its tokens
are those of the source, kind, value and lexeme, with the end token behind them. -/
theorem rescan_faithful (source : String) {sep : String} (between : sep = " " ∨ sep = "\n") :
    (ofSource (rejoined sep source)).errors = [] ∧
      (ofSource (rejoined sep source)).tokens.map Token.face =
        (found source).map Token.face ++ [(.eof, "")] := by
  obtain ⟨c, rfl, blank⟩ : ∃ c, sep = String.ofList [c] ∧ Piece.isBlank c = true := by
    rcases between with rfl | rfl
    · exact ⟨' ', rfl, rfl⟩
    · exact ⟨'\n', rfl, rfl⟩
  have cuts := pieces_lexemes blank source
  rw [← found_eq, ← rejoined] at cuts
  constructor
  · refine (errors_ofPieces _ 1).mpr ?_
    rw [cuts]
    exact Piece.sound_of_mem_intersperse fun p mem => sound_of_mem_solid mem
  · rw [tokens_ofSource, List.map_append, found_eq, map_face_solid source, words, cuts,
      Token.map_face_words, Piece.filterMap_intersperse]
    rfl

/-- Two faults, the second of which hides the rest of the text, numerals side by side, and a string that
holds a line break and what looks like a comment. -/
theorem rescan_faithful_broken :
    let source := "1.2.3.x!==\"//\n/*\"#orchid/**//* open"
    let lexemes := ["1.2", ".", "3", ".", "x", "!=", "=", "\"//\n/*\"", "orchid"]
    let again := ofSource ("\n".intercalate lexemes)
    (ofSource source).errors.map (·.fault) = [.unexpected '#', .openComment] ∧ again.errors = [] ∧
      again.tokens.map Token.face = (found source).map Token.face ++ [(.eof, "")] := by
  intro source lexemes again
  have lexemesAre : rejoined "\n" source = "\n".intercalate lexemes := by decide +kernel
  have faithful := rescan_faithful source (.inr rfl : "\n" = " " ∨ "\n" = "\n")
  rw [lexemesAre] at faithful
  exact ⟨by decide +kernel, faithful⟩

end Scan

end LoxLang
