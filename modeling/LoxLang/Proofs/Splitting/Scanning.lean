import LoxLang.Proofs.Splitting.Relocation
import LoxLang.Proofs.Syntax.Proper
import LoxLang.Token.Scan
/-!
The scan of two texts with a line break between them. No piece of the first one but an open string or
an open comment goes on behind a line break, so the pieces of a text without faults stay what they are
(`pieces_append_break`), and the tokens of the second text are those of the text by itself, later by the
line breaks in front of it (`Scan.words_append_break`).
-/
namespace LoxLang

/-! Where runs of characters stop -/

section

variable {α : Type} {p : α → Bool} {x : α} {xs ys zs : List α}

theorem takeWhile_append_stop (stop : p x = false) :
    (xs ++ x :: ys).takeWhile p = xs.takeWhile p := by
  induction xs with
  | nil => simp [stop]
  | cons z zs ih => simp only [List.cons_append, List.takeWhile_cons, ih]

theorem dropWhile_append_stop (stop : p x = false) :
    (xs ++ x :: ys).dropWhile p = xs.dropWhile p ++ x :: ys := by
  induction xs with
  | nil => simp [stop]
  | cons z zs ih =>
    simp only [List.cons_append, List.dropWhile_cons, ih]
    split <;> rfl

theorem takeWhile_append_found (found : xs.dropWhile p = x :: zs) :
    (xs ++ ys).takeWhile p = xs.takeWhile p := by
  have whole : (xs.takeWhile p ++ xs.dropWhile p).length = xs.length := by
    rw [List.takeWhile_append_dropWhile]
  rw [found, List.length_append, List.length_cons] at whole
  have shorter : (xs.takeWhile p).length ≠ xs.length := by omega
  rw [List.takeWhile_append, if_neg shorter]

theorem dropWhile_append_found (found : xs.dropWhile p = x :: zs) :
    (xs ++ ys).dropWhile p = x :: zs ++ ys := by
  rw [List.dropWhile_append, found]
  rfl

end

namespace Piece

variable {c : Char} {cs ds : List Char}

def Sound (p : Piece) : Prop := ∀ f, p.role ≠ .fault f

theorem afterComment_append {d n k : Nat} {rest : List Char}
    (h : afterComment d n cs = some (k, rest)) :
    afterComment d n (cs ++ ds) = some (k, rest ++ ds) := by
  fun_induction afterComment d n cs with
  | case1 n cs =>
    cases h
    simp [afterComment]
  | case2 d n cs ih => exact ih h
  | case3 d n cs ih => exact ih h
  | case4 d n x cs notClosed notOpened ih =>
    cases cs with
    | nil => cases h
    | cons z zs =>
      have plain : afterComment (d + 1) n (x :: z :: zs ++ ds) =
          afterComment (d + 1) (n + 1) (z :: zs ++ ds) := by
        rw [List.cons_append, List.cons_append, afterComment]
        · rintro ws rfl same
          cases same
          exact notClosed zs rfl rfl
        · rintro ws rfl same
          cases same
          exact notOpened zs rfl rfl
      exact plain.trans (ih h)
  | case5 => cases h

/-- What a closed comment consists of is the same in front of more characters. -/
theorem take_afterComment_append {n : Nat} {rest : List Char}
    (h : afterComment 1 0 cs = some (n, rest)) : (cs ++ ds).take n = cs.take n := by
  have whole : (cs ++ ds).take n ++ (rest ++ ds) = cs.take n ++ (rest ++ ds) := by
    rw [take_afterComment (afterComment_append h), ← List.append_assoc, take_afterComment h]
  exact List.append_cancel_right whole

theorem numeral_of_point {d : Char} {rest : List Char}
    (h : cs.dropWhile Char.isDigit = '.' :: d :: rest) :
    numeral cs = if d.isDigit then
        (cs.takeWhile Char.isDigit, d :: rest.takeWhile Char.isDigit, rest.dropWhile Char.isDigit)
      else (cs.takeWhile Char.isDigit, [], '.' :: d :: rest) := by
  unfold numeral
  simp only [h]

theorem numeral_of_no_point (h : ∀ d rest, cs.dropWhile Char.isDigit ≠ '.' :: d :: rest) :
    numeral cs = (cs.takeWhile Char.isDigit, [], cs.dropWhile Char.isDigit) := by
  unfold numeral
  dsimp only
  split
  · rename_i d rest point
    exact absurd point (h d rest)
  · rfl

/-- A numeral ends at what is neither a digit nor a point, also behind a point. -/
theorem numeral_append_stop {x : Char} (stop : x.isDigit = false) (other : x ≠ '.') :
    numeral (cs ++ x :: ds) = ((numeral cs).1, (numeral cs).2.1, (numeral cs).2.2 ++ x :: ds) := by
  have whole : (cs ++ x :: ds).takeWhile Char.isDigit = cs.takeWhile Char.isDigit :=
    takeWhile_append_stop stop
  have behind : (cs ++ x :: ds).dropWhile Char.isDigit =
      cs.dropWhile Char.isDigit ++ x :: ds := dropWhile_append_stop stop
  -- A point counts only with a digit behind it, and `x` is none.
  by_cases point : ∃ d rest, cs.dropWhile Char.isDigit = '.' :: d :: rest
  · obtain ⟨d, rest, point⟩ := point
    rw [point, List.cons_append, List.cons_append] at behind
    rw [numeral_of_point point, numeral_of_point behind, whole]
    split
    · rw [takeWhile_append_stop stop, dropWhile_append_stop stop]
    · rfl
  · have none : ∀ d rest, cs.dropWhile Char.isDigit ≠ '.' :: d :: rest :=
      fun d rest same => point ⟨d, rest, same⟩
    rw [numeral_of_no_point none]
    by_cases last : cs.dropWhile Char.isDigit = ['.']
    · rw [last] at behind
      rw [numeral_of_point behind, if_neg (by simp [stop]), whole, last]
      rfl
    · rw [numeral_of_no_point, whole, behind]
      intro d rest same
      rw [behind] at same
      cases inside : cs.dropWhile Char.isDigit with
      | nil =>
        rw [inside] at same
        exact other (List.cons.inj same).1
      | cons y ys =>
        rw [inside] at same last
        cases ys with
        | nil =>
          cases same
          exact last rfl
        | cons z zs =>
          cases same
          exact none _ _ inside

section

variable {s : Symbol} (notBlank : ¬isBlank c = true) (notQuote : ¬(c == '"') = true)
  (notDigit : ¬c.isDigit = true) (notLetter : ¬startsWord c = true)
  (one : Symbol.ofChar? c = some s)

include notBlank notQuote notDigit notLetter one

theorem cut_of_double {t : Symbol} {rest : List Char} (two : s.withEqual? = some t) :
    cut c ('=' :: rest) = (⟨.token (.symbol t), [c, '=']⟩, rest) := by
  unfold cut
  rw [if_neg notBlank, if_neg notQuote, if_neg notDigit, if_neg notLetter]
  split
  · rename_i same
    cases same
  · rename_i same
    cases same
  · rw [one]
    simp only [two]

theorem cut_of_single (noLine : ∀ rest, c = '/' → cs ≠ '/' :: rest)
    (noBlock : ∀ rest, c = '/' → cs ≠ '*' :: rest)
    (short : ∀ t rest, s.withEqual? = some t → cs ≠ '=' :: rest) :
    cut c cs = (⟨.token (.symbol s), [c]⟩, cs) := by
  unfold cut
  rw [if_neg notBlank, if_neg notQuote, if_neg notDigit, if_neg notLetter]
  split
  · exact absurd rfl (noLine _ rfl)
  · exact absurd rfl (noBlock _ rfl)
  · rw [one]
    dsimp only
    split
    · rename_i t rest two _ _
      exact absurd rfl (short t rest two)
    · rfl

end

theorem cut_block (rest : List Char) : cut '/' ('*' :: rest) =
    (afterComment 1 0 rest).elim (⟨.fault .openComment, '/' :: '*' :: rest⟩, [])
      fun r => (⟨.comment, '/' :: '*' :: rest.take r.1⟩, r.2) := by
  unfold cut
  rw [if_neg (by decide), if_neg (by decide), if_neg (by decide), if_neg (by decide)]
  cases found : afterComment 1 0 rest <;> simp only [found] <;> rfl

theorem cut_of_block {rest after : List Char} {n : Nat}
    (found : afterComment 1 0 rest = some (n, after)) :
    cut '/' ('*' :: rest) = (⟨.comment, '/' :: '*' :: rest.take n⟩, after) := by
  rw [cut_block, found]
  rfl

/-- A line break is not the second character of anything. -/
theorem append_break_ne {x : Char} (other : x ≠ '\n') (h : ∀ rest, cs ≠ x :: rest) (rest : List Char) :
    cs ++ '\n' :: ds ≠ x :: rest := by
  intro same
  cases cs with
  | nil =>
    cases same
    exact other rfl
  | cons z zs =>
    cases same
    exact h zs rfl

/-- A piece that is no fault does not go on behind a line break. -/
theorem cut_append_break (sound : (cut c cs).1.Sound) :
    cut c (cs ++ '\n' :: ds) = ((cut c cs).1, (cut c cs).2 ++ '\n' :: ds) := by
  revert sound
  fun_cases cut c cs with
  | case1 c cs blank =>
    intro _
    unfold cut
    rw [if_pos blank]
  | case2 c cs notBlank quote q rest found inner =>
    intro _
    unfold cut
    rw [if_neg notBlank, if_pos quote, dropWhile_append_found found]
    dsimp only [List.cons_append]
    rw [takeWhile_append_found found]
  -- An open string would go on behind the line break, but it is a fault.
  | case3 => exact fun sound => absurd rfl (sound .openString)
  -- The digits stop at the line break, and behind a point as well.
  | case4 c cs notBlank notQuote digit whole fraction rest found point =>
    intro _
    have moved : numeral (c :: (cs ++ '\n' :: ds)) = (whole, fraction, rest ++ '\n' :: ds) := by
      rw [← List.cons_append, numeral_append_stop (by decide) (by decide), found]
    unfold cut
    rw [if_neg notBlank, if_neg notQuote, if_pos digit, moved]
  -- No word has a line break in it.
  | case5 c cs notBlank notQuote notDigit letter word =>
    intro _
    unfold cut
    rw [if_neg notBlank, if_neg notQuote, if_neg notDigit, if_pos letter,
      takeWhile_append_stop (by decide), dropWhile_append_stop (by decide)]
  -- A comment of one line stops at the line break.
  | case6 rest =>
    intro _
    have stop : ('\n' != '\n') = false := rfl
    have front : (rest ++ '\n' :: ds).takeWhile (· != '\n') = rest.takeWhile (· != '\n') :=
      takeWhile_append_stop stop
    have behind : (rest ++ '\n' :: ds).dropWhile (· != '\n') =
        rest.dropWhile (· != '\n') ++ '\n' :: ds := dropWhile_append_stop stop
    rw [← front, ← behind]
    rfl
  | case7 rest n after found =>
    intro _
    have moved : afterComment 1 0 (rest ++ '\n' :: ds) = some (n, after ++ '\n' :: ds) :=
      afterComment_append found
    rw [List.cons_append, cut_of_block moved, take_afterComment_append found]
  -- And so would an open comment.
  | case8 => exact fun sound => absurd rfl (sound .openComment)
  | case9 c cs notBlank notQuote notDigit notLetter none =>
    intro sound
    rw [none] at sound
    exact absurd rfl (sound (.unexpected c))
  -- Both characters of the symbol are there already.
  | case10 c notBlank notQuote notDigit notLetter s one t rest two =>
    intro _
    rw [List.cons_append, cut_of_double notBlank notQuote notDigit notLetter one two, one]
    simp only [two]
  -- The line break makes no longer symbol of it, and no comment.
  | case11 c cs notBlank notQuote notDigit notLetter s one noLine noBlock short =>
    intro _
    have alone : cut c (cs ++ '\n' :: ds) = (⟨.token (.symbol s), [c]⟩, cs ++ '\n' :: ds) :=
      cut_of_single notBlank notQuote notDigit notLetter one
        (fun rest slash => append_break_ne (by decide) (fun more => noLine more slash) rest)
        (fun rest slash => append_break_ne (by decide) (fun more => noBlock more slash) rest)
        (fun t rest two => append_break_ne (by decide) (fun more => short t more two) rest)
    rw [alone, one]
    dsimp only
    split
    · rename_i t rest two _
      exact absurd rfl (short t rest two)
    · rfl

theorem wordKind_ne_eof (word : String) : wordKind word ≠ .eof := by
  unfold wordKind
  split <;> exact fun same => by cases same

theorem cut_role_ne_eof (c : Char) (cs : List Char) : (cut c cs).1.role ≠ .token .eof := by
  unfold cut
  split
  · simp
  split
  · split <;> simp
  split
  · simp
  split
  · exact fun same => wordKind_ne_eof _ (Role.token.inj same)
  split
  · simp
  · split <;> simp
  · split
    · simp
    · split <;> simp

theorem role_ne_eof {p : Piece} (h : p ∈ pieces cs) : p.role ≠ .token .eof := by
  fun_induction pieces cs with
  | case1 => cases h
  | case2 c cs ih =>
    rcases List.mem_cons.mp h with rfl | later
    · exact cut_role_ne_eof c cs
    · exact ih later

/-- The pieces of a text without faults, a line break, and the pieces of the text behind it. -/
theorem pieces_append_break (sound : ∀ p ∈ pieces cs, p.Sound) :
    pieces (cs ++ '\n' :: ds) = pieces cs ++ ⟨.blank, ['\n']⟩ :: pieces ds := by
  fun_induction pieces cs with
  | case1 =>
    rw [List.nil_append, pieces]
    rfl
  | case2 c cs ih =>
    obtain ⟨first, rest⟩ := List.forall_mem_cons.mp sound
    rw [List.cons_append, pieces, cut_append_break first, ih rest]
    rfl

end Piece

namespace Token

/-- The tokens of pieces that begin on `line`. -/
def words (line : Nat) : List Piece → List Token
  | [] => []
  | p :: ps =>
    let last := line + lineBreaks p.text
    match p.role with
    | .token kind => ⟨kind, String.ofList p.text, last⟩ :: words last ps
    | _ => words last ps

def breaks (ps : List Piece) : Nat := lineBreaks (ps.map Piece.text).flatten

theorem breaks_cons (p : Piece) (ps : List Piece) : breaks (p :: ps) = lineBreaks p.text + breaks ps := by
  simp [breaks, lineBreaks, List.countP_append]

theorem words_append (ps qs : List Piece) (line : Nat) :
    words line (ps ++ qs) = words line ps ++ words (line + breaks ps) qs := by
  induction ps generalizing line with
  | nil => rfl
  | cons p ps ih =>
    simp only [List.cons_append, words, ih, breaks_cons, Nat.add_assoc]
    split <;> rfl

theorem words_later (k : Nat) (ps : List Piece) (line : Nat) :
    words (line + k) ps = (words line ps).map (·.relocate (· + k)) := by
  induction ps generalizing line with
  | nil => rfl
  | cons p ps ih =>
    have last : line + k + lineBreaks p.text = line + lineBreaks p.text + k := by omega
    simp only [words, last, ih]
    split <;> rfl

theorem isEof_of_mem_words {t : Token} (ps : List Piece) (inner : ∀ p ∈ ps, p.role ≠ .token .eof)
    (line : Nat) (h : t ∈ words line ps) : t.isEof = false := by
  induction ps generalizing line with
  | nil => cases h
  | cons p ps ih =>
    obtain ⟨first, rest⟩ := List.forall_mem_cons.mp inner
    unfold words at h
    dsimp only at h
    split at h
    · rename_i kind role
      rcases List.mem_cons.mp h with rfl | later
      · have other : kind ≠ .eof := fun same => first (same ▸ role)
        cases kind with
        | eof => exact absurd rfl other
        | _ => rfl
      · exact ih rest _ later
    · exact ih rest _ h

end Token

namespace Scan

theorem tokens_ofPieces (ps : List Piece) (line : Nat) :
    (ofItems (Token.ofPieces line ps)).tokens =
      Token.words line ps ++ [.eof (line + Token.breaks ps)] := by
  induction ps generalizing line with
  | nil => rfl
  | cons p ps ih =>
    rw [Token.breaks_cons, ← Nat.add_assoc]
    unfold Token.ofPieces Token.words Token.ofPiece?
    cases p.role with
    | token kind => simp [ofItems, ih]
    | fault f => simp [ofItems, ih]
    | _ => simp [ih]

theorem errors_ofPieces (ps : List Piece) (line : Nat) :
    (ofItems (Token.ofPieces line ps)).errors = [] ↔ ∀ p ∈ ps, p.Sound := by
  induction ps generalizing line with
  | nil => simp [Token.ofPieces, ofItems]
  | cons p ps ih =>
    rw [List.forall_mem_cons, ← ih (line + Token.lineBreaks p.text), Token.ofPieces]
    unfold Token.ofPiece? Piece.Sound
    cases p.role with
    | token kind => simp [ofItems]
    | fault f => simp [ofItems]
    | _ => simp

/-- The tokens of a text in front of the end token. -/
def words (source : String) : List Token := Token.words 1 (Piece.pieces source.toList)

variable {first second : String}

theorem tokens_ofSource (source : String) : (ofSource source).tokens =
    words source ++ [.eof (1 + Token.lineBreaks source.toList)] := by
  have whole := tokens_ofPieces (Piece.pieces source.toList) 1
  rwa [Token.breaks, Piece.flatten_pieces] at whole

theorem ended_ofSource (source : String) : ∃ t ∈ (ofSource source).tokens, t.isEof = true := by
  rw [tokens_ofSource]
  exact ⟨_, List.mem_append_right _ List.mem_cons_self, rfl⟩

theorem isEof_of_mem_words {source : String} {t : Token} (h : t ∈ words source) :
    t.isEof = false := Token.isEof_of_mem_words _ (fun _ mem => Piece.role_ne_eof mem) 1 h

theorem toList_append_break (first second : String) :
    (first ++ "\n" ++ second).toList = first.toList ++ '\n' :: second.toList := by
  simp

/-- The tokens of the second text stand as many lines later as there are line breaks in front of it. -/
theorem words_append_break (clean : (ofSource first).errors = []) :
    words (first ++ "\n" ++ second) = words first ++
      (words second).map (·.relocate (· + (Token.lineBreaks first.toList + 1))) := by
  have sound := (errors_ofPieces _ 1).mp clean
  have first_line : 1 + Token.breaks (Piece.pieces first.toList) + Token.lineBreaks ['\n'] =
      1 + (Token.lineBreaks first.toList + 1) := by
    rw [Token.breaks, Piece.flatten_pieces]
    rfl
  unfold words
  rw [toList_append_break, Piece.pieces_append_break sound, Token.words_append, Token.words]
  dsimp only
  rw [first_line, Token.words_later]

theorem errors_append_break (clean : (ofSource first).errors = [])
    (clean' : (ofSource second).errors = []) : (ofSource (first ++ "\n" ++ second)).errors = [] := by
  have sound := (errors_ofPieces _ 1).mp clean
  have sound' := (errors_ofPieces _ 1).mp clean'
  refine (errors_ofPieces _ 1).mpr ?_
  rw [toList_append_break, Piece.pieces_append_break sound]
  intro p mem
  rcases List.mem_append.mp mem with mem | mem
  · exact sound p mem
  · rcases List.mem_cons.mp mem with rfl | mem
    · exact fun f fault => by cases fault
    · exact sound' p mem

end Scan

end LoxLang
