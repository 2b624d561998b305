import LoxLang.Proofs.Scanning.Bytes
import LoxLang.Proofs.Splitting.Scanning
/-!
The scanner and the pieces of a text. Standing between two characters, the scanner goes over exactly
the first piece of the text that is left (`scanToken_eq`): over its bytes, over the line breaks in
it, and with what that piece is to the language. It does not break off there, whatever comes next.
-/
namespace LoxLang

namespace Scanner

open Token (lineBreaks)

/-- The scanner stands between what it has gone over of a text and the rest. -/
structure At (s : Scanner) (done rest : List Char) : Prop where
  bytes : s.bytes.toList = encode done ++ encode rest
  curr : s.curr = (encode done).length

def beyond (s : Scanner) (text : List Char) : Scanner :=
  { s with curr := s.curr + (encode text).length, line := s.line + lineBreaks text }

theorem beyond_nil (s : Scanner) : s.beyond [] = s := rfl

theorem beyond_append (s : Scanner) (a b : List Char) : s.beyond (a ++ b) = (s.beyond a).beyond b := by
  simp only [beyond, encode_append, List.length_append, lineBreaks, List.countP_append, Nat.add_assoc]

theorem beyond_of_line (s : Scanner) {text : List Char} (line : lineBreaks text = 0) :
    s.beyond text = { s with curr := s.curr + (encode text).length } := by
  rw [beyond, line]
  rfl

namespace At

variable {s : Scanner} {done rest text cs : List Char} {c : Char}

theorem beyond (h : At s done (text ++ rest)) : At (s.beyond text) (done ++ text) rest := by
  constructor
  · rw [encode_append, List.append_assoc, ← encode_append]
    exact h.bytes
  · rw [encode_append, List.length_append, ← h.curr]
    rfl

theorem drop (h : At s done rest) : s.bytes.toList.drop s.curr = encode rest := by
  rw [h.bytes, h.curr, List.drop_left]

theorem size (h : At s done rest) : s.bytes.size = s.curr + (encode rest).length := by
  have size := congrArg List.length h.bytes
  rwa [Array.length_toList, List.length_append, ← h.curr] at size

theorem not_inside (h : At s done []) : ¬ s.curr < s.bytes.size := by
  rw [h.size]
  exact Nat.lt_irrefl _

theorem inside (h : At s done (c :: cs)) : s.curr < s.bytes.size := by
  have bytes := List.length_pos_iff.mpr (utf8EncodeChar_ne_nil c)
  rw [h.size, encode_cons, List.length_append]
  omega

/-- What is asked of the next byte is asked of the next character. -/
theorem peek (h : At s done (c :: cs)) {p : Char → Bool} (coarse : Coarse p) :
    p s.peek = p c := by
  cases bytes : String.utf8EncodeChar c with
  | nil => exact (utf8EncodeChar_ne_nil c bytes).elim
  | cons b bs =>
    have next : s.bytes.toList[s.curr]? = some b := by
      rw [← List.head?_drop, h.drop, encode_cons, bytes]
      rfl
    rw [Scanner.peek, seen_eq, next]
    exact seen_of_coarse coarse (bytes ▸ List.mem_cons_self)

theorem peek_eq (h : At s done (c :: cs)) (ascii : Ascii c) : s.peek = c :=
  eq_of_beq ((h.peek (coarse_eq ascii)).trans (beq_self_eq_true c))

theorem peek_nil (h : At s done []) : s.peek = Char.ofUInt8 0 := by
  have none : s.bytes[s.curr]? = none := Array.getElem?_eq_none (Nat.le_of_not_lt h.not_inside)
  rw [Scanner.peek, seen, none]
  rfl

/-- Where an ASCII character is seen, the rest of the text begins with it. -/
theorem peek_iff (h : At s done rest) {x : Char} (ascii : Ascii x) (some_ : x ≠ Char.ofUInt8 0) :
    s.peek = x ↔ ∃ cs, rest = x :: cs := by
  cases rest with
  | nil =>
    rw [h.peek_nil]
    exact ⟨fun same => (some_ same.symm).elim, nofun⟩
  | cons c cs =>
    have same := h.peek (coarse_eq ascii)
    rw [Bool.eq_iff_iff, beq_iff_eq, beq_iff_eq] at same
    rw [same]
    exact ⟨fun here => ⟨cs, here ▸ rfl⟩, fun ⟨_, eq⟩ => (List.cons.inj eq).1⟩

theorem past (ascii : Ascii c) (line : c ≠ '\n') : s.past = s.beyond [c] := by
  have none : lineBreaks [c] = 0 := by simpa [lineBreaks] using line
  rw [beyond_of_line s none, encode_cons, encode_ascii ascii]
  rfl

theorem past_at (h : At s done (c :: cs)) (ascii : Ascii c) (line : c ≠ '\n') :
    At s.past (done ++ [c]) cs := by
  rw [past ascii line]
  exact h.beyond

theorem slice? (h : At s done (text ++ rest)) :
    s.slice? s.curr (s.beyond text).curr = some (String.ofList text) := by
  rw [Scanner.beyond, h.curr]
  refine slice?_eq (b := rest) ?_
  rw [h.bytes, encode_append, List.append_assoc]

end At

variable {s : Scanner} {done rest cs : List Char} {c : Char} {p : Char → Bool}

/-! Rows of characters -/

/-- The bytes that are gone over in a row. -/
def row (p : Char → Bool) (s : Scanner) : List UInt8 :=
  (s.bytes.toList.drop s.curr).takeWhile fun b => p (Char.ofUInt8 b)

theorem row_of_inside (p : Char → Bool) (inside : s.curr < s.bytes.size) :
    ∃ b, s.peek = Char.ofUInt8 b ∧
      row p s = if p s.peek then b :: row p s.pastCounting else [] := by
  have lt : s.curr < s.bytes.toList.length := by simpa using inside
  have next : s.peek = Char.ofUInt8 s.bytes.toList[s.curr] := by
    rw [Scanner.peek, seen_eq, List.getElem?_eq_getElem lt]
    rfl
  refine ⟨s.bytes.toList[s.curr], next, ?_⟩
  rw [row, List.drop_eq_getElem_cons lt, List.takeWhile_cons, next]
  rfl

theorem row_of_not_inside (p : Char → Bool) (outside : ¬ s.curr < s.bytes.size) : row p s = [] := by
  rw [row, List.drop_eq_nil_of_le]
  · rfl
  · rw [Array.length_toList]
    exact Nat.le_of_not_lt outside

theorem skipWhile_eq (p : Char → Bool) (s : Scanner) : s.skipWhile p =
    { s with
      curr := s.curr + (row p s).length
      line := s.line + (row p s).countP fun b => Char.ofUInt8 b == '\n' } := by
  induction s using skipWhile.induct p with
  | case1 s more ih =>
    obtain ⟨b, next, bytes⟩ := row_of_inside p more.1
    rw [if_pos more.2] at bytes
    rw [skipWhile, if_pos more, ih, bytes, List.length_cons, List.countP_cons, ← next]
    by_cases breaks : s.peek = '\n' <;> simp [pastCounting, breaks] <;> omega
  | case2 s last =>
    have none : row p s = [] := by
      by_cases inside : s.curr < s.bytes.size
      · obtain ⟨b, _, bytes⟩ := row_of_inside p inside
        rw [bytes, if_neg fun more => last ⟨inside, more⟩]
      · exact row_of_not_inside p inside
    rw [skipWhile, if_neg last, none]
    rfl

/-- The scanner goes over the characters in a row that are of some kind. -/
theorem skipWhile_beyond (coarse : Coarse p) (h : At s done rest) :
    s.skipWhile p = s.beyond (rest.takeWhile p) := by
  have breaks : Ascii '\n' := by decide
  rw [skipWhile_eq, row, h.drop, takeWhile_encode coarse, countP_encode breaks]
  rfl

theorem findIdx?_eq_takeWhile {α : Type} (q : α → Bool) : ∀ xs : List α,
    match xs.findIdx? q with
    | some n => n = (xs.takeWhile fun x => !q x).length
    | none => xs.length = (xs.takeWhile fun x => !q x).length
  | [] => rfl
  | x :: xs => by
    have ih := findIdx?_eq_takeWhile q xs
    rw [List.findIdx?_cons, List.takeWhile_cons]
    cases q x with
    | true => rfl
    | false =>
      cases found : xs.findIdx? q <;> rw [found] at ih <;> exact congrArg (· + 1) ih

/-- A line comment goes up to the line break, or to the end. -/
theorem skipLine_eq (h : At s done rest) : s.skipLine = s.beyond (rest.takeWhile (· != '\n')) := by
  have breaks : Ascii '\n' := by decide
  have coarse : Coarse (· != '\n') := (coarse_eq breaks).not
  have line : lineBreaks (rest.takeWhile (· != '\n')) = 0 := by
    refine List.countP_eq_zero.mpr fun c mem same => ?_
    have other := List.all_eq_true.mp List.all_takeWhile c mem
    rw [bne, same] at other
    cases other
  have length := congrArg List.length (takeWhile_encode coarse rest)
  rw [beyond_of_line s line, ← length, skipLine, h.drop]
  have found := findIdx?_eq_takeWhile (fun b : UInt8 => Char.ofUInt8 b == '\n') (encode rest)
  cases place : (encode rest).findIdx? fun b => Char.ofUInt8 b == '\n' with
  | some n =>
    rw [place] at found
    exact congrArg (fun n => ({ s with curr := s.curr + n } : Scanner)) found
  | none =>
    rw [place] at found
    show ({ s with curr := s.bytes.size } : Scanner) = _
    rw [h.size]
    exact congrArg (fun n => ({ s with curr := s.curr + n } : Scanner)) found

theorem accept_beyond (h : At s done (c :: cs)) {expected : Char} (ascii : Ascii expected)
    (line : expected ≠ '\n') :
    s.accept expected = if c = expected then (true, s.beyond [c]) else (false, s) := by
  have same : s.peek = expected ↔ c = expected := by
    have := h.peek (coarse_eq ascii)
    rw [Bool.eq_iff_iff, beq_iff_eq, beq_iff_eq] at this
    exact this
  unfold accept
  by_cases here : c = expected
  · subst here
    rw [if_pos ⟨h.inside, same.mpr rfl⟩, if_pos rfl, At.past ascii line]
  · rw [if_neg fun both => here (same.mp both.2), if_neg here]

theorem accept_nil (h : At s done []) (expected : Char) : s.accept expected = (false, s) :=
  if_neg fun both => h.not_inside both.1

/-! Comments -/

section

variable {bytes : Array UInt8} {curr line : Nat}

theorem comment_atEnd (atEnd : bytes.size ≤ curr) :
    (comment bytes curr line).val = (false, curr, line) := by
  rw [comment, dif_pos atEnd]

theorem comment_close (inside : curr < bytes.size)
    (close : Char.ofUInt8 (bytes[curr]?.getD 0) = '*' ∧
      Char.ofUInt8 (bytes[curr + 1]?.getD 0) = '/') :
    (comment bytes curr line).val = (true, curr + 2, line) := by
  rw [comment, dif_neg (Nat.not_le_of_lt inside), if_pos close]

theorem comment_open (inside : curr < bytes.size)
    (opener : Char.ofUInt8 (bytes[curr]?.getD 0) = '/' ∧
      Char.ofUInt8 (bytes[curr + 1]?.getD 0) = '*') :
    (comment bytes curr line).val =
      match (comment bytes (curr + 2) line).val with
      | (true, curr', line') => (comment bytes curr' line').val
      | open_ => open_ := by
  have other : ¬ (Char.ofUInt8 (bytes[curr]?.getD 0) = '*' ∧
      Char.ofUInt8 (bytes[curr + 1]?.getD 0) = '/') := by
    rw [opener.1]
    exact fun both => absurd both.1 (by decide)
  rw [comment, dif_neg (Nat.not_le_of_lt inside), if_neg other, if_pos opener]
  rcases comment bytes (curr + 2) line with ⟨⟨_ | _, curr', line'⟩, h⟩ <;> rfl

theorem comment_pass (inside : curr < bytes.size)
    (noClose : ¬ (Char.ofUInt8 (bytes[curr]?.getD 0) = '*' ∧
      Char.ofUInt8 (bytes[curr + 1]?.getD 0) = '/'))
    (noOpener : ¬ (Char.ofUInt8 (bytes[curr]?.getD 0) = '/' ∧
      Char.ofUInt8 (bytes[curr + 1]?.getD 0) = '*')) :
    (comment bytes curr line).val = (comment bytes (curr + 1)
      (if Char.ofUInt8 (bytes[curr]?.getD 0) = '\n' then line + 1 else line)).val := by
  rw [comment, dif_neg (Nat.not_le_of_lt inside), if_neg noClose, if_neg noOpener]

/-- No byte of a character of several bytes opens or closes a comment. -/
theorem comment_wide : ∀ (xs : List UInt8) (curr : Nat), (∀ b ∈ xs, 128 ≤ b.toNat) →
    xs <+: bytes.toList.drop curr →
      (comment bytes curr line).val = (comment bytes (curr + xs.length) line).val
  | [], _, _, _ => rfl
  | b :: xs, curr, high, row => by
    have next : bytes[curr]? = some b := by
      rw [← Array.getElem?_toList, ← List.head?_drop]
      obtain ⟨rest, eq⟩ := row
      rw [← eq]
      rfl
    have inside : curr < bytes.size := (Array.getElem?_eq_some_iff.mp next).1
    have wide := not_ascii_ofUInt8 (high b List.mem_cons_self)
    have other {c : Char} (ascii : Ascii c) : Char.ofUInt8 (bytes[curr]?.getD 0) ≠ c := by
      rw [next]
      exact fun same => wide (same ▸ ascii)
    have rest : xs <+: bytes.toList.drop (curr + 1) := by
      obtain ⟨rest, eq⟩ := row
      refine ⟨rest, ?_⟩
      rw [← List.drop_drop, ← eq]
      rfl
    rw [comment_pass inside (fun both => other (by decide) both.1)
      (fun both => other (by decide) both.1), if_neg (other (by decide)),
      comment_wide xs (curr + 1) (fun b mem => high b (List.mem_cons_of_mem _ mem)) rest]
    rw [List.length_cons, Nat.add_assoc, Nat.add_comm 1]

end

/-- The scanner behind a comment, and whether the comment was closed. -/
def commentEnd (s : Scanner) : Bool × Scanner :=
  let (closed, curr, line) := (comment s.bytes s.curr s.line).val
  (closed, { s with curr, line })

theorem commentEnd_nil (h : At s done []) : s.commentEnd = (false, s) := by
  rw [commentEnd, comment_atEnd (Nat.le_of_not_lt h.not_inside)]

theorem commentEnd_close (h : At s done ('*' :: '/' :: cs)) :
    s.commentEnd = (true, s.beyond ['*', '/']) := by
  have first : s.seen s.curr = '*' := h.peek_eq (by decide)
  have second : s.seen (s.curr + 1) = '/' := (h.past_at (by decide) (by decide)).peek_eq (by decide)
  rw [commentEnd, comment_close h.inside ⟨first, second⟩]
  rfl

/-- A comment in a comment is gone through before the rest of that. -/
theorem commentEnd_open (h : At s done ('/' :: '*' :: cs)) :
    s.commentEnd = match (s.beyond ['/', '*']).commentEnd with
      | (true, s') => s'.commentEnd
      | open_ => open_ := by
  have first : s.seen s.curr = '/' := h.peek_eq (by decide)
  have second : s.seen (s.curr + 1) = '*' := (h.past_at (by decide) (by decide)).peek_eq (by decide)
  have bytes : (s.beyond ['/', '*']).commentEnd = _ := rfl
  rw [commentEnd, comment_open h.inside ⟨first, second⟩, bytes]
  show _ = match (let (closed, curr, line) := (comment s.bytes (s.curr + 2) s.line).val
    (closed, ({ s.beyond ['/', '*'] with curr, line } : Scanner))) with
      | (true, s') => s'.commentEnd
      | open_ => open_
  rcases comment s.bytes (s.curr + 2) s.line with ⟨⟨_ | _, curr', line'⟩, h⟩ <;> rfl

theorem commentEnd_pass (h : At s done (c :: cs)) (noClose : ∀ t, ¬ (c = '*' ∧ cs = '/' :: t))
    (noOpener : ∀ t, ¬ (c = '/' ∧ cs = '*' :: t)) :
    s.commentEnd = (s.beyond [c]).commentEnd := by
  have same : (comment s.bytes s.curr s.line).val =
      (comment s.bytes (s.beyond [c]).curr (s.beyond [c]).line).val := by
    by_cases ascii : Ascii c
    · have pair {x y : Char} (asciiX : Ascii x) (line : x ≠ '\n') (asciiY : Ascii y)
          (some_ : y ≠ Char.ofUInt8 0) (none_ : ∀ t, ¬ (c = x ∧ cs = y :: t)) :
          ¬ (s.seen s.curr = x ∧ s.seen (s.curr + 1) = y) := by
        intro both
        have first : c = x := (h.peek_eq ascii).symm.trans both.1
        have next : At s.past (done ++ [c]) cs := h.past_at ascii (first ▸ line)
        obtain ⟨t, eq⟩ := (next.peek_iff asciiY some_).mp both.2
        exact none_ t ⟨first, eq⟩
      have here : s.seen s.curr = c := h.peek_eq ascii
      rw [comment_pass h.inside (pair (by decide) (by decide) (by decide) (by decide) noClose)
        (pair (by decide) (by decide) (by decide) (by decide) noOpener)]
      show (comment s.bytes (s.curr + 1) (if s.seen s.curr = '\n' then s.line + 1 else s.line)).val = _
      rw [here, beyond, encode_cons, encode_ascii ascii, encode_nil]
      by_cases breaks : c = '\n' <;> simp [breaks, lineBreaks]
    · obtain ⟨lead, rest, bytes, leads, further⟩ := utf8EncodeChar_wide ascii
      have high : ∀ b ∈ String.utf8EncodeChar c, 128 ≤ b.toNat := by
        rw [bytes]
        intro b mem
        rcases List.mem_cons.mp mem with rfl | mem
        · omega
        · exact further b mem
      have row : String.utf8EncodeChar c <+: s.bytes.toList.drop s.curr := by
        rw [h.drop]
        exact List.prefix_append _ _
      have line : lineBreaks [c] = 0 := by
        have other : c ≠ '\n' := fun same => ascii (same ▸ by decide)
        simpa [lineBreaks] using other
      rw [comment_wide _ _ high row, beyond_of_line s line, encode_cons, encode_nil, List.append_nil]
  rw [commentEnd, same]
  rfl

theorem afterComment_pass (d n : Nat) (noClose : ∀ t, ¬ (c = '*' ∧ cs = '/' :: t))
    (noOpener : ∀ t, ¬ (c = '/' ∧ cs = '*' :: t)) :
    Piece.afterComment (d + 1) n (c :: cs) = Piece.afterComment (d + 1) (n + 1) cs := by
  rw [Piece.afterComment]
  · exact fun t first second => noClose t ⟨first, second⟩
  · exact fun t first second => noOpener t ⟨first, second⟩

/-- What is behind several comments is behind the outer ones of what is behind the innermost. -/
theorem afterComment_nested (e d n : Nat) (cs : List Char) :
    Piece.afterComment (d + e) n cs =
      (Piece.afterComment d n cs).bind fun r => Piece.afterComment e r.1 r.2 := by
  induction d, n, cs using Piece.afterComment.induct with
  | case1 n cs =>
    rw [Nat.zero_add]
    simp [Piece.afterComment]
  | case2 n d cs ih =>
    rw [Nat.succ_add]
    simp only [Piece.afterComment]
    exact ih
  | case3 n d cs ih =>
    rw [Nat.succ_add]
    simp only [Piece.afterComment]
    rw [← ih]
    congr 1
    omega
  | case4 n d c cs noClose noOpener ih =>
    have noClose : ∀ t, ¬ (c = '*' ∧ cs = '/' :: t) := fun t both => noClose t both.1 both.2
    have noOpener : ∀ t, ¬ (c = '/' ∧ cs = '*' :: t) := fun t both => noOpener t both.1 both.2
    rw [Nat.succ_add, afterComment_pass _ _ noClose noOpener, afterComment_pass _ _ noClose noOpener,
      ← ih, Nat.succ_add]
  | case5 n d =>
    rw [Nat.succ_add]
    simp [Piece.afterComment]

/-- The scanner goes through a comment as its nesting says: to the end of the text if the comment is
not closed. -/
theorem commentEnd_beyond (h : At s done rest) (n : Nat) :
    match Piece.afterComment 1 n rest with
    | some (k, after) => ∃ text, text ++ after = rest ∧ k = n + text.length ∧
        s.commentEnd = (true, s.beyond text)
    | none => s.commentEnd = (false, s.beyond rest) := by
  -- Behind a comment in the comment the text is shorter by as much as that one has, not by a character:
  -- the induction is on what is left of it.
  induction size : rest.length using Nat.strongRecOn generalizing s done rest n with
  | ind size ih =>
    subst size
    cases rest with
    | nil =>
      rw [Piece.afterComment, beyond_nil]
      exact commentEnd_nil h
    | cons c cs =>
      by_cases close : ∃ t, c = '*' ∧ cs = '/' :: t
      · obtain ⟨t, rfl, rfl⟩ := close
        rw [Piece.afterComment, Piece.afterComment]
        exact ⟨['*', '/'], rfl, rfl, commentEnd_close h⟩
      by_cases opener : ∃ t, c = '/' ∧ cs = '*' :: t
      · obtain ⟨t, rfl, rfl⟩ := opener
        have shorter : t.length < ('/' :: '*' :: t).length := by
          simp only [List.length_cons]
          omega
        have within : At (s.beyond ['/', '*']) (done ++ ['/', '*']) t := h.beyond
        have inner := ih _ shorter within (n + 2) rfl
        rw [Piece.afterComment, afterComment_nested 1 1, commentEnd_open h]
        split at inner
        · rename_i k after found
          obtain ⟨text, whole, length, ended⟩ := inner
          subst whole
          have behind : At ((s.beyond ['/', '*']).beyond text) (done ++ ['/', '*'] ++ text) after :=
            within.beyond
          have outer := ih _ (Nat.lt_of_le_of_lt (by simp) shorter) behind k rfl
          rw [found, Option.bind_some, ended]
          dsimp only
          rw [← beyond_append] at outer ⊢
          split at outer
          · obtain ⟨text', whole', length', ended'⟩ := outer
            refine ⟨['/', '*'] ++ text ++ text', ?_, ?_, ?_⟩
            · simp [← whole']
            · simp only [length', length, List.length_append, List.length_cons, List.length_nil]
              omega
            · rw [beyond_append _ (['/', '*'] ++ text)]
              exact ended'
          · rw [outer, ← beyond_append, List.append_assoc]
            rfl
        · rename_i found
          rw [found, inner, ← beyond_append]
          rfl
      · have noClose := not_exists.mp close
        have noOpener := not_exists.mp opener
        have next : At (s.beyond [c]) (done ++ [c]) cs := h.beyond
        have rest := ih _ (Nat.lt_succ_self _) next (n + 1) rfl
        rw [afterComment_pass 0 n noClose noOpener, commentEnd_pass h noClose noOpener]
        split at rest
        · rename_i k after found
          obtain ⟨text, whole, length, ended⟩ := rest
          rw [found]
          refine ⟨c :: text, congrArg (c :: ·) whole, ?_, ?_⟩
          · rw [length, List.length_cons]
            omega
          · rw [ended, ← beyond_append]
            rfl
        · rename_i found
          rw [found, rest, ← beyond_append]
          rfl

/-! Lexemes -/

theorem ascii_of_isDigit (h : c.isDigit = true) : Ascii c := by
  simp only [Char.isDigit, Bool.and_eq_true, decide_eq_true_eq] at h
  have := UInt32.le_iff_toNat_le.mp h.2
  exact Nat.lt_of_le_of_lt this (by decide)

theorem ascii_of_isAlpha (h : c.isAlpha = true) : Ascii c := by
  rcases Bool.or_eq_true _ _ |>.mp h with upper | lower
  · have range : c.val ≥ 'A'.val ∧ c.val ≤ 'Z'.val := of_decide_eq_true upper
    exact Nat.lt_of_le_of_lt (UInt32.le_iff_toNat_le.mp range.2) (by decide)
  · have range : (decide (c.val ≥ 'a'.val) && decide (c.val ≤ 'z'.val)) = true := lower
    rw [Bool.and_eq_true, decide_eq_true_eq, decide_eq_true_eq] at range
    exact Nat.lt_of_le_of_lt (UInt32.le_iff_toNat_le.mp range.2) (by decide)

theorem ascii_of_startsWord (h : Piece.startsWord c = true) : Ascii c := by
  rcases Bool.or_eq_true _ _ |>.mp h with letter | underscore
  · exact ascii_of_isAlpha letter
  · exact eq_of_beq underscore ▸ (by decide : Ascii '_')

theorem ascii_of_inWord (h : Piece.inWord c = true) : Ascii c := by
  rcases Bool.or_eq_true _ _ |>.mp h with letter | underscore
  · rcases Bool.or_eq_true _ _ |>.mp letter with letter | digit
    · exact ascii_of_isAlpha letter
    · exact ascii_of_isDigit digit
  · exact eq_of_beq underscore ▸ (by decide : Ascii '_')

theorem ascii_of_ofChar? {t : Symbol} (h : Symbol.ofChar? c = some t) : Ascii c := by
  unfold Symbol.ofChar? at h
  split at h <;> first | decide | cases h

theorem blockComment_eq (s : Scanner) : s.blockComment =
    if s.commentEnd.1 then some (none, s.commentEnd.2)
    else some (some (.error ⟨.openComment, s.commentEnd.2.line⟩), s.commentEnd.2) := rfl

theorem lineBreaks_of_line {text : List Char} (line : ∀ c ∈ text, c ≠ '\n') :
    lineBreaks text = 0 :=
  List.countP_eq_zero.mpr fun c mem same => line c mem (eq_of_beq same)

/-- The text of the lexeme that the scanner is in, from where it began. -/
theorem lexeme?_beyond {text : List Char} (h : At s done (text ++ rest)) (begins : s.start = s.curr) :
    (s.beyond text).lexeme? = some (String.ofList text) := by
  have part := h.slice?
  rw [← begins] at part
  exact part

/-- A string goes up to its closing quote, or is open to the end of the text. -/
theorem string_beyond (h : At s done ('"' :: cs)) (begins : s.start = s.curr) :
    s.past.string =
      match cs.dropWhile (· != '"') with
      | _ :: _ =>
        some (some (.ok (.string (String.ofList (cs.takeWhile (· != '"'))))),
          s.beyond ('"' :: cs.takeWhile (· != '"') ++ ['"']))
      | [] => some (some (.error ⟨.openString, s.line + lineBreaks ('"' :: cs)⟩), s.beyond ('"' :: cs)) := by
  have quote : Ascii '"' := by decide
  have first : s.past = s.beyond ['"'] := At.past quote (by decide)
  have next : At s.past (done ++ ['"']) cs := h.past_at quote (by decide)
  have whole := List.takeWhile_append_dropWhile (p := (· != '"')) (l := cs)
  have inner : s.past.skipWhile (· != '"') = s.past.beyond (cs.takeWhile (· != '"')) :=
    skipWhile_beyond (coarse_eq quote).not next
  have after : At (s.past.beyond (cs.takeWhile (· != '"'))) (done ++ ['"'] ++ cs.takeWhile (· != '"'))
      (cs.dropWhile (· != '"')) := by
    rw [← whole] at next
    exact next.beyond
  unfold string
  dsimp only
  rw [inner]
  cases eq : cs.dropWhile (· != '"') with
  | nil =>
    rw [eq] at after whole
    rw [if_neg after.not_inside, first, ← beyond_append]
    rw [List.append_nil] at whole
    rw [whole]
    rfl
  | cons d rest =>
    have close : d = '"' := by
      have := List.head?_dropWhile_not (p := (· != '"')) (l := cs)
      simpa [eq] using this
    subst close
    rw [eq] at after
    rw [← whole, eq] at next
    have text : (s.past.beyond (cs.takeWhile (· != '"'))).past.slice?
        ((s.past.beyond (cs.takeWhile (· != '"'))).past.start + 1)
        ((s.past.beyond (cs.takeWhile (· != '"'))).past.curr - 1) =
          some (String.ofList (cs.takeWhile (· != '"'))) := by
      show s.past.slice? (s.start + 1) (s.past.beyond (cs.takeWhile (· != '"'))).curr = _
      rw [begins]
      exact next.slice?
    rw [if_pos after.inside, text, At.past quote (by decide), first, ← beyond_append, ← beyond_append]
    rfl

theorem word_beyond (h : At s done (c :: cs)) (begins : s.start = s.curr)
    (starts : Piece.startsWord c = true) :
    s.past.word = some (some (.ok (Piece.wordKind (String.ofList (c :: cs.takeWhile Piece.inWord)))),
      s.beyond (c :: cs.takeWhile Piece.inWord)) := by
  have ascii : Ascii c := ascii_of_startsWord starts
  have line : c ≠ '\n' := fun same => absurd (same ▸ starts) (by decide)
  have whole : (c :: cs.takeWhile Piece.inWord) ++ cs.dropWhile Piece.inWord = c :: cs :=
    congrArg (c :: ·) List.takeWhile_append_dropWhile
  have row : s.past.skipWhile Piece.inWord = s.beyond (c :: cs.takeWhile Piece.inWord) := by
    rw [skipWhile_beyond (coarse_of_ascii fun _ => ascii_of_inWord) (h.past_at ascii line),
      At.past ascii line, ← beyond_append]
    rfl
  unfold word
  dsimp only
  rw [row, lexeme?_beyond (whole ▸ h) begins]
  rfl

theorem symbol_beyond (t : Symbol) : At s done cs → s.symbol t = match t.withEqual?, cs with
      | some t', '=' :: _ => some (some (.ok (.symbol t')), s.beyond ['='])
      | _, _ => some (some (.ok (.symbol t)), s) := by
  intro h
  unfold symbol
  cases equal : t.withEqual? with
  | none => rfl
  | some t' =>
    cases cs with
    | nil =>
      dsimp only
      rw [accept_nil h]
      rfl
    | cons d rest =>
      dsimp only
      rw [accept_beyond h (by decide) (by decide)]
      by_cases same : d = '='
      · subst same
        rfl
      · rw [if_neg same]
        dsimp only
        rw [if_neg Bool.false_ne_true]
        split
        · rename_i eq
          exact (same (List.cons.inj eq).1).elim
        · rfl

theorem unexpected_beyond (h : At s done (c :: cs)) (begins : s.start = s.curr) (line : c ≠ '\n') :
    s.past.unexpected = some (some (.error ⟨.unexpected c, s.line⟩), s.beyond [c]) := by
  have text : s.past.slice? s.past.start s.past.bytes.size = some (String.ofList (c :: cs)) := by
    have part := (show At s done ((c :: cs) ++ []) by rwa [List.append_nil]).slice?
    rw [← begins] at part
    have size : (s.beyond (c :: cs)).curr = s.bytes.size := h.size.symm
    rw [size] at part
    exact part
  have none : lineBreaks [c] = 0 := lineBreaks_of_line (by simpa using line)
  have size : (encode [c]).length = c.utf8Size := by
    rw [encode_cons, encode_nil, List.append_nil, String.length_utf8EncodeChar]
  have head : (String.ofList (c :: cs)).toList.headD '\uFFFD' = c := by
    rw [String.toList_ofList]
    rfl
  unfold unexpected
  rw [text, beyond_of_line s none, size, ← begins, Option.bind_eq_bind, Option.bind_some]
  dsimp only
  rw [head]
  rfl

/-! Numerals -/

/-- The text of the numeral that a text begins with. -/
def numeralText (cs : List Char) : List Char :=
  (Piece.numeral cs).1 ++ (if (Piece.numeral cs).2.1.isEmpty then [] else ['.']) ++
    (Piece.numeral cs).2.1

theorem numeralText_append (cs : List Char) : numeralText cs ++ (Piece.numeral cs).2.2 = cs :=
  Piece.numeral_append cs

/-- Behind the digits there is a point with a digit behind it, or the numeral ends there. -/
theorem numeral_cases (cs : List Char) :
    (∃ d rest, d.isDigit = true ∧ cs.dropWhile Char.isDigit = '.' :: d :: rest ∧
      Piece.numeral cs = (cs.takeWhile Char.isDigit, d :: rest.takeWhile Char.isDigit,
        rest.dropWhile Char.isDigit)) ∨
    ((∀ d rest, cs.dropWhile Char.isDigit = '.' :: d :: rest → d.isDigit = false) ∧
      Piece.numeral cs = (cs.takeWhile Char.isDigit, [], cs.dropWhile Char.isDigit)) := by
  by_cases point : ∃ d rest, cs.dropWhile Char.isDigit = '.' :: d :: rest
  · obtain ⟨d, rest, behind⟩ := point
    rw [Piece.numeral_of_point behind, behind]
    by_cases digit : d.isDigit = true
    · rw [if_pos digit]
      exact .inl ⟨d, rest, digit, rfl, rfl⟩
    · rw [if_neg digit]
      refine .inr ⟨fun d' rest' same => ?_, rfl⟩
      cases same
      exact Bool.eq_false_iff.mpr digit
  · have none : ∀ d rest, cs.dropWhile Char.isDigit ≠ '.' :: d :: rest :=
      fun d rest same => point ⟨d, rest, same⟩
    exact .inr ⟨fun d rest same => (none d rest same).elim, Piece.numeral_of_no_point none⟩

/-- A numeral goes over its digits, and over a point if more digits follow. -/
theorem skipNumeral_beyond (h : At s done cs) : s.skipNumeral = s.beyond (numeralText cs) := by
  have coarse : Coarse Char.isDigit := coarse_of_ascii fun _ => ascii_of_isDigit
  have stop : Ascii '.' := by decide
  have whole : s.skipWhile Char.isDigit = s.beyond (cs.takeWhile Char.isDigit) :=
    skipWhile_beyond coarse h
  have behind : At (s.beyond (cs.takeWhile Char.isDigit)) (done ++ cs.takeWhile Char.isDigit)
      (cs.dropWhile Char.isDigit) := by
    rw [← List.takeWhile_append_dropWhile (p := Char.isDigit) (l := cs)] at h
    exact h.beyond
  unfold skipNumeral
  dsimp only
  rw [whole]
  rcases numeral_cases cs with ⟨d, rest, digit, point, eq⟩ | ⟨short, eq⟩
  · rw [point] at behind
    have fraction := behind.past_at stop (by decide)
    have next : (s.beyond (cs.takeWhile Char.isDigit)).peekNext.isDigit = true :=
      (fraction.peek coarse).trans digit
    rw [if_pos ⟨behind.peek_eq stop, next⟩, skipWhile_beyond coarse fraction,
      At.past stop (by decide), ← beyond_append, ← beyond_append, List.takeWhile_cons_of_pos digit,
      numeralText, eq]
    simp
  · rw [if_neg]
    · rw [numeralText, eq]
      simp
    · intro both
      obtain ⟨rest, point⟩ := (behind.peek_iff stop (by decide)).mp both.1
      rw [point] at behind
      have fraction := behind.past_at stop (by decide)
      have next : (s.beyond (cs.takeWhile Char.isDigit)).past.peek.isDigit = true := both.2
      cases rest with
      | nil =>
        rw [fraction.peek_nil] at next
        cases next
      | cons d rest =>
        rw [fraction.peek coarse, short d rest point] at next
        cases next

theorem numeral_numeralText (cs : List Char) :
    Piece.numeral (numeralText cs) = ((Piece.numeral cs).1, (Piece.numeral cs).2.1, []) := by
  have digits (l : List Char) : ∀ c ∈ l.takeWhile Char.isDigit, c.isDigit = true :=
    fun c mem => List.all_eq_true.mp List.all_takeWhile c mem
  have all (l : List Char) :
      (l.takeWhile Char.isDigit).takeWhile Char.isDigit = l.takeWhile Char.isDigit := by
    rw [← List.append_nil (l.takeWhile _), List.takeWhile_append_of_pos (digits l)]
    rfl
  have none (l : List Char) : (l.takeWhile Char.isDigit).dropWhile Char.isDigit = [] := by
    rw [← List.append_nil (l.takeWhile _), List.dropWhile_append_of_pos (digits l)]
    rfl
  have stop : Char.isDigit '.' = false := by decide
  rcases numeral_cases cs with ⟨d, rest, digit, point, eq⟩ | ⟨short, eq⟩
  · have text : numeralText cs = cs.takeWhile Char.isDigit ++
        '.' :: d :: rest.takeWhile Char.isDigit := by
      rw [numeralText, eq]
      simp
    have behind : (numeralText cs).dropWhile Char.isDigit =
        '.' :: d :: rest.takeWhile Char.isDigit := by
      rw [text, dropWhile_append_stop stop, none]
      rfl
    rw [Piece.numeral_of_point behind, if_pos digit, eq, all, none, text,
      takeWhile_append_stop stop, all]
  · have text : numeralText cs = cs.takeWhile Char.isDigit := by
      rw [numeralText, eq]
      simp
    rw [Piece.numeral_of_no_point, eq, text, all, none]
    intro d rest
    rw [text, none]
    nofun

theorem number_beyond (h : At s done (c :: cs)) (begins : s.start = s.curr)
    (digit : c.isDigit = true) :
    s.past.number = some (some (.ok (.number (Decimal.ofDigits (Piece.numeral (c :: cs)).1
      (Piece.numeral (c :: cs)).2.1))), s.beyond (numeralText (c :: cs))) := by
  have ascii : Ascii c := ascii_of_isDigit digit
  have line : c ≠ '\n' := fun same => absurd (same ▸ digit) (by decide)
  have first : numeralText (c :: cs) = c :: numeralText cs := by
    unfold numeralText Piece.numeral
    rw [List.takeWhile_cons_of_pos digit, List.dropWhile_cons_of_pos digit]
    split
    · split <;> rfl
    · rfl
  have row : s.past.skipNumeral = s.beyond (numeralText (c :: cs)) := by
    rw [skipNumeral_beyond (h.past_at ascii line), At.past ascii line, ← beyond_append, first]
    rfl
  have whole : At s done (numeralText (c :: cs) ++ (Piece.numeral (c :: cs)).2.2) := by
    rw [numeralText_append]
    exact h
  unfold number
  dsimp only
  rw [row, lexeme?_beyond whole begins, Option.bind_eq_bind, Option.bind_some, String.toList_ofList,
    numeral_numeralText]

end Scanner

end LoxLang
