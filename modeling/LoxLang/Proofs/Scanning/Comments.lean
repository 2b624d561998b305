import LoxLang.Proofs.Scanning.Tiling
/-!
Comments in comments, by counting. The scanner goes through a comment that it meets in a comment before it
goes on with the outer one, so it is as deep in itself as the text is nested. A loop with a counter of the
comments that are open does the same without being in itself: it skips a closer and counts it off, or else an
opener and counts it, or else one byte, until no comment is open or no byte is left.

What is proved:
1. what a round of the loop skips, case by case (`CommentLoop.run_close`, `CommentLoop.run_open`,
   `CommentLoop.run_pass`);
2. going through one comment takes the loop from any count to the one below; if the comment is not closed, no
   count is ever reached that is below (`Scanner.comment_traverses`);
3. so a comment ends where the loop ends, and it is closed if the loop comes to zero; if not, it takes in all
   that is left, and the only items from there on are one fault and the end token, both on the last line
   (`Scanner.comment_counted`), since the scanner has counted the line breaks in front of every place where it
   stops (`Scanner.Reached.counted`).
-/
namespace LoxLang

/-- A place in a text with comments: how many of them are open there, and the bytes that come next. -/
structure CommentLoop where
  count : Nat
  coming : List UInt8
  deriving DecidableEq, Repr

namespace CommentLoop

def opener : List UInt8 := encode ['/', '*']

def closer : List UInt8 := encode ['*', '/']

/-- One round: skips a closer and counts it off, or else an opener and counts it, or else one byte. -/
def round (t : CommentLoop) : CommentLoop :=
  if closer <+: t.coming then ⟨t.count - 1, t.coming.drop 2⟩
  else if opener <+: t.coming then ⟨t.count + 1, t.coming.drop 2⟩
  else ⟨t.count, t.coming.drop 1⟩

theorem round_coming (t : CommentLoop) : ∃ n, t.round.coming = t.coming.drop (n + 1) := by
  unfold round
  split
  · exact ⟨1, rfl⟩
  split
  · exact ⟨1, rfl⟩
  · exact ⟨0, rfl⟩

/-- Rounds, until no comment is open or no byte is left. -/
def run (t : CommentLoop) : CommentLoop :=
  if t.count = 0 ∨ t.coming = [] then t else run t.round
termination_by t.coming.length
decreasing_by
  rename_i more
  obtain ⟨n, coming⟩ := t.round_coming
  have some : 0 < t.coming.length := List.length_pos_iff.mpr fun none => more (.inr none)
  rw [coming, List.length_drop]
  omega

variable {n : Nat} {b : UInt8} {text rest : List UInt8}

theorem run_zero (text : List UInt8) : run ⟨0, text⟩ = ⟨0, text⟩ := by
  rw [run, if_pos (.inl rfl)]

theorem run_nil (n : Nat) : run ⟨n, []⟩ = ⟨n, []⟩ := by
  rw [run, if_pos (.inr rfl)]

theorem run_succ (some : text ≠ []) : run ⟨n + 1, text⟩ = run (round ⟨n + 1, text⟩) := by
  rw [run, if_neg]
  exact not_or.mpr ⟨Nat.succ_ne_zero n, some⟩

theorem run_close (n : Nat) (text : List UInt8) : run ⟨n + 1, closer ++ text⟩ = run ⟨n, text⟩ := by
  rw [run_succ (List.append_ne_nil_of_left_ne_nil (by decide) _), round, if_pos (List.prefix_append _ _)]
  rfl

theorem run_open (n : Nat) (text : List UInt8) :
    run ⟨n + 1, opener ++ text⟩ = run ⟨n + 2, text⟩ := by
  have other : ¬ closer <+: opener ++ text := fun front =>
    absurd (List.cons_prefix_cons.mp front).1 (by decide)
  rw [run_succ (List.append_ne_nil_of_left_ne_nil (by decide) _), round, if_neg other,
    if_pos (List.prefix_append _ _)]
  rfl

theorem run_pass (n : Nat) (noCloser : ¬ closer <+: b :: text) (noOpener : ¬ opener <+: b :: text) :
    run ⟨n + 1, b :: text⟩ = run ⟨n + 1, text⟩ := by
  rw [run_succ (List.cons_ne_nil _ _), round, if_neg noCloser, if_neg noOpener]
  rfl

def skipped (t : CommentLoop) : List UInt8 := t.coming.take (t.coming.length - t.run.coming.length)

theorem skipped_eq {t : CommentLoop} (whole : rest ++ t.run.coming = t.coming) : t.skipped = rest := by
  rw [skipped, ← whole, List.length_append, Nat.add_sub_cancel, List.take_left]

/-- Where the loop has come to its end, no comment is open or no byte is left. -/
theorem run_ended (t : CommentLoop) : t.run.count = 0 ∨ t.run.coming = [] := by
  induction t using run.induct with
  | case1 t ended => rwa [run, if_pos ended]
  | case2 t more ih => rwa [run, if_neg more]

end CommentLoop

def byteBreaks (bytes : List UInt8) : Nat := bytes.countP fun b => Char.ofUInt8 b == '\n'

def Scanner.skipping (s : Scanner) (bytes : List UInt8) : Scanner :=
  { s with curr := s.curr + bytes.length, line := s.line + byteBreaks bytes }

theorem byteBreaks_append (a b : List UInt8) : byteBreaks (a ++ b) = byteBreaks a + byteBreaks b :=
  List.countP_append

theorem byteBreaks_cons (b : UInt8) (text : List UInt8) :
    byteBreaks (b :: text) = (if Char.ofUInt8 b = '\n' then 1 else 0) + byteBreaks text := by
  rw [byteBreaks, List.countP_cons, Nat.add_comm, byteBreaks]
  simp only [beq_iff_eq]

/-! What going through a comment comes to -/

open CommentLoop (run opener closer)
open Token (lineBreaks)

/-- What a comment comes to whose opener is in front of the text: whether it is closed, the bytes gone over
and those that are left. Whatever the count, the loop comes to what is left with one comment less; and if the
comment is not closed, to the end of the text with the comment still open. -/
structure Traverses (text : List UInt8) (closed : Bool) (skipped rest : List UInt8) : Prop where
  whole : skipped ++ rest = text
  counted : closed = true → ∀ n, run ⟨n + 1, text⟩ = run ⟨n, rest⟩
  stuck : closed = false → rest = [] ∧ ∀ n, n < (run ⟨n + 1, text⟩).count

namespace Traverses

variable {text skipped rest skipped' rest' : List UInt8} {closed : Bool} {b : UInt8}

theorem atEnd : Traverses [] false [] [] where
  whole := rfl
  counted := Bool.noConfusion
  stuck := fun _ => ⟨rfl, fun n => by rw [CommentLoop.run_nil]; exact Nat.lt_succ_self n⟩

theorem close (text : List UInt8) : Traverses (closer ++ text) true closer text where
  whole := rfl
  counted := fun _ n => CommentLoop.run_close n text
  stuck := Bool.noConfusion

theorem pass (noCloser : ¬ closer <+: b :: text) (noOpener : ¬ opener <+: b :: text)
    (h : Traverses text closed skipped rest) : Traverses (b :: text) closed (b :: skipped) rest where
  whole := by rw [List.cons_append, h.whole]
  counted := fun is n => by rw [CommentLoop.run_pass n noCloser noOpener, h.counted is n]
  stuck := fun isNot => by
    obtain ⟨none, above⟩ := h.stuck isNot
    refine ⟨none, fun n => ?_⟩
    rw [CommentLoop.run_pass n noCloser noOpener]
    exact above n

/-- A comment in the comment, and then the rest of the comment. -/
theorem inner (h : Traverses text true skipped rest) (h' : Traverses rest closed skipped' rest') :
    Traverses (opener ++ text) closed (opener ++ skipped ++ skipped') rest' where
  whole := by rw [List.append_assoc, List.append_assoc, h'.whole, h.whole]
  counted := fun is n => by rw [CommentLoop.run_open, h.counted rfl, h'.counted is]
  stuck := fun isNot => by
    obtain ⟨none, above⟩ := h'.stuck isNot
    refine ⟨none, fun n => ?_⟩
    rw [CommentLoop.run_open, h.counted rfl]
    exact above n

/-- A comment in the comment that is not closed leaves both open. -/
theorem innerOpen (h : Traverses text false skipped rest) :
    Traverses (opener ++ text) false (opener ++ skipped) rest where
  whole := by rw [List.append_assoc, h.whole]
  counted := Bool.noConfusion
  stuck := fun isNot => by
    obtain ⟨none, above⟩ := h.stuck isNot
    refine ⟨none, fun n => ?_⟩
    rw [CommentLoop.run_open]
    exact Nat.lt_of_succ_lt (above (n + 1))

end Traverses

namespace Scanner

section

variable {bytes : Array UInt8} {curr : Nat}

theorem ofUInt8_eq_iff {c : Char} (ascii : Ascii c) (b : UInt8) :
    Char.ofUInt8 b = c ↔ b = UInt8.ofNat c.toNat := by
  constructor
  · intro same
    have code : b.toNat = c.toNat := by
      rw [← same]
      exact (UInt8.toNat_toUInt32 b).symm
    rw [← code, UInt8.ofNat_toNat]
  · intro same
    rw [same, ofUInt8_ascii ascii]

/-- Two characters are seen where their bytes come next. -/
theorem seen_pair_iff {x y : Char} (asciiX : Ascii x) (asciiY : Ascii y) (someX : x ≠ Char.ofUInt8 0)
    (someY : y ≠ Char.ofUInt8 0) :
    (Char.ofUInt8 (bytes[curr]?.getD 0) = x ∧ Char.ofUInt8 (bytes[curr + 1]?.getD 0) = y) ↔
      encode [x, y] <+: bytes.toList.drop curr := by
  have first : bytes[curr]? = (bytes.toList.drop curr)[0]? := by
    rw [List.getElem?_drop, Nat.add_zero, Array.getElem?_toList]
  have second : bytes[curr + 1]? = (bytes.toList.drop curr)[1]? := by
    rw [List.getElem?_drop, Array.getElem?_toList]
  have marks : encode [x, y] = [UInt8.ofNat x.toNat, UInt8.ofNat y.toNat] := by
    rw [encode_cons, encode_cons, encode_nil, encode_ascii asciiX, encode_ascii asciiY]
    rfl
  rw [first, second, marks]
  cases bytes.toList.drop curr with
  | nil =>
    constructor
    · intro both
      exact absurd both.1.symm someX
    · intro front
      cases List.prefix_nil.mp front
  | cons b text =>
    cases text with
    | nil =>
      constructor
      · intro both
        exact absurd both.2.symm someY
      · intro front
        cases List.prefix_nil.mp (List.cons_prefix_cons.mp front).2
    | cons c text =>
      rw [List.cons_prefix_cons, List.cons_prefix_cons]
      show Char.ofUInt8 b = x ∧ Char.ofUInt8 c = y ↔ _
      rw [ofUInt8_eq_iff asciiX, ofUInt8_eq_iff asciiY]
      exact ⟨fun both => ⟨both.1.symm, both.2.symm, List.nil_prefix⟩,
        fun front => ⟨front.1.symm, front.2.1.symm⟩⟩

end

/-- The scanner goes through a comment as the loop does, from every count to the one below. -/
theorem comment_traverses {bytes : Array UInt8} {curr line place line' : Nat} {closed : Bool}
    (ended : (comment bytes curr line).val = (closed, place, line')) : ∃ skipped,
      Traverses (bytes.toList.drop curr) closed skipped (bytes.toList.drop place) ∧
        place = curr + skipped.length ∧ line' = line + byteBreaks skipped := by
  -- The scanner goes on behind a comment in the comment from wherever that one ended, so the induction is on
  -- the bytes that are left.
  induction left : bytes.size - curr using Nat.strongRecOn generalizing curr line place line' closed with
  | ind left ih =>
    subst left
    by_cases atEnd : bytes.size ≤ curr
    · rw [comment_atEnd atEnd] at ended
      cases ended
      have none : bytes.toList.drop curr = [] := List.drop_eq_nil_of_le atEnd
      exact ⟨[], none ▸ .atEnd, rfl, rfl⟩
    have inside := Nat.lt_of_not_le atEnd
    have closing : (Char.ofUInt8 (bytes[curr]?.getD 0) = '*' ∧ Char.ofUInt8 (bytes[curr + 1]?.getD 0) = '/') ↔
        closer <+: bytes.toList.drop curr := seen_pair_iff (by decide) (by decide) (by decide) (by decide)
    have opening : (Char.ofUInt8 (bytes[curr]?.getD 0) = '/' ∧ Char.ofUInt8 (bytes[curr + 1]?.getD 0) = '*') ↔
        opener <+: bytes.toList.drop curr := seen_pair_iff (by decide) (by decide) (by decide) (by decide)
    by_cases close : closer <+: bytes.toList.drop curr
    · have marks := closing.mpr close
      obtain ⟨text, coming⟩ := close
      have behind : bytes.toList.drop (curr + 2) = text := by
        rw [← List.drop_drop, ← coming]
        rfl
      rw [comment_close inside marks] at ended
      cases ended
      exact ⟨closer, by rw [behind, ← coming]; exact .close text, rfl, rfl⟩
    by_cases opens : opener <+: bytes.toList.drop curr
    · have marks := opening.mpr opens
      obtain ⟨text, coming⟩ := opens
      have behind : bytes.toList.drop (curr + 2) = text := by
        rw [← List.drop_drop, ← coming]
        rfl
      rw [comment_open inside marks] at ended
      rw [← coming]
      rcases within : (comment bytes (curr + 2) line).val with ⟨_ | _, place₁, line₁⟩
      · -- The comment in the comment is not closed, and then neither is.
        rw [within] at ended
        cases ended
        obtain ⟨skipped, traverses, places, lines⟩ := ih _ (by omega) within rfl
        rw [behind] at traverses
        refine ⟨opener ++ skipped, traverses.innerOpen, ?_, ?_⟩
        · rw [places, List.length_append, Nat.add_assoc]
          rfl
        · rw [lines, byteBreaks_append]
          exact congrArg _ (Nat.zero_add _).symm
      · rw [within] at ended
        obtain ⟨skipped, traverses, places, lines⟩ := ih _ (by omega) within rfl
        obtain ⟨skipped', traverses', places', lines'⟩ := ih _ (by omega) ended rfl
        rw [behind] at traverses
        refine ⟨opener ++ skipped ++ skipped', traverses.inner traverses', ?_, ?_⟩
        · rw [places', places, List.length_append, List.length_append, show opener.length = 2 from rfl]
          omega
        · rw [lines', lines, byteBreaks_append, byteBreaks_append,
            show byteBreaks opener = 0 by decide]
          omega
    · obtain ⟨b, text, coming⟩ := List.exists_cons_of_length_pos (l := bytes.toList.drop curr)
        (by rw [List.length_drop, Array.length_toList]; omega)
      have behind : bytes.toList.drop (curr + 1) = text := by
        rw [← List.drop_drop, coming]
        rfl
      have here : bytes[curr]? = some b := by
        rw [← Array.getElem?_toList, ← List.head?_drop, coming]
        rfl
      rw [comment_pass inside (mt closing.mp close) (mt opening.mp opens), here, Option.getD_some] at ended
      obtain ⟨skipped, traverses, places, lines⟩ := ih _ (by omega) ended rfl
      rw [coming] at close opens ⊢
      rw [behind] at traverses
      refine ⟨b :: skipped, traverses.pass close opens, ?_, ?_⟩
      · rw [places, List.length_cons]
        omega
      · rw [lines, byteBreaks_cons]
        split <;> omega

/-! Comments among the items -/

/-- The scanner takes the two bytes in front of it for the opener of a comment. -/
theorem scanToken_opener {s : Scanner} (opens : opener <+: s.bytes.toList.drop s.curr) :
    s.curr + 2 ≤ s.bytes.size ∧ s.scanToken = blockComment { s with curr := s.curr + 2 } := by
  have room : 2 ≤ (s.bytes.toList.drop s.curr).length := opens.length_le
  rw [List.length_drop, Array.length_toList] at room
  obtain ⟨first, second⟩ : s.peek = '/' ∧ s.past.peek = '*' :=
    (seen_pair_iff (by decide) (by decide) (by decide) (by decide)).mpr opens
  have read : s.advance = some ('/', s.past) := by
    rw [advance, if_pos (by omega), first]
  have noLine : s.past.accept '/' = (false, s.past) := by
    rw [accept, if_neg]
    rw [second]
    exact fun both => absurd both.2 (by decide)
  have block : s.past.accept '*' = (true, s.past.past) :=
    if_pos ⟨show s.curr + 1 < s.bytes.size by omega, second⟩
  refine ⟨by omega, ?_⟩
  unfold scanToken
  rw [read, Option.bind_eq_bind, Option.bind_some]
  show s.past.slash = _
  unfold slash
  dsimp only
  rw [noLine, if_neg Bool.false_ne_true, block, if_pos rfl]
  rfl

section

variable {s s' : Scanner}

/-- At the end of the text comes the end token, and then nothing. -/
theorem gives_end (ended : s.curr = s.bytes.size) : Gives s [.ok (Token.eof s.line)] := by
  have next : s.next = some (some (.ok (Token.eof s.line)), s.past) := by
    rw [Scanner.next, if_neg (by omega), if_pos ended]
  have behind : s.past.bytes.size < s.past.curr := Nat.lt_succ_of_le (Nat.le_of_eq ended.symm)
  exact .cons next (.nothing behind)

end

/-- The scanner as it stands between the pieces of a source: at the start, and behind each piece. -/
inductive Reached (source : String) : Scanner → Prop
  | start : Reached source (ofSource source)
  | step {s s' : Scanner} {found : Lexeme} : Reached source s → s.curr < s.bytes.size →
      scanToken { s with start := s.curr } = some (found, s') → Reached source s'

/-- Between pieces the scanner stands between characters, and has counted the line breaks in front of it. -/
theorem Reached.counted {source : String} {s : Scanner} (h : Reached source s) : ∃ done rest,
    done ++ rest = source.toList ∧ At s done rest ∧ s.line = 1 + lineBreaks done := by
  induction h with
  | start => exact ⟨[], source.toList, rfl, ⟨bytes_ofSource source, rfl⟩, rfl⟩
  | @step s s' found _ inside read ih =>
    obtain ⟨done, rest, whole, here, line⟩ := ih
    cases rest with
    | nil => exact absurd inside here.not_inside
    | cons c cs =>
      have begun : At { s with start := s.curr } done (c :: cs) := ⟨here.bytes, here.curr⟩
      rw [scanToken_reads begun rfl] at read
      cases read
      -- A step goes over the first piece of what is left.
      have text := Piece.cut_append c cs
      rw [← text] at begun whole
      refine ⟨done ++ (Piece.cut c cs).1.text, (Piece.cut c cs).2, ?_, begun.beyond, ?_⟩
      · rw [List.append_assoc, whole]
      · show s.line + lineBreaks (Piece.cut c cs).1.text = 1 + lineBreaks (done ++ (Piece.cut c cs).1.text)
        rw [line, lineBreaks, lineBreaks, lineBreaks, List.countP_append, Nat.add_assoc]

theorem byteBreaks_encode (text : List Char) : byteBreaks (encode text) = lineBreaks text :=
  countP_encode (by decide) text

/-- The line on which the scanner stands and the line breaks in what is left make the last line. -/
theorem Reached.lastLine {source : String} {s : Scanner} (h : Reached source s) :
    s.line + byteBreaks (s.bytes.toList.drop s.curr) = 1 + lineBreaks source.toList := by
  obtain ⟨done, rest, whole, here, line⟩ := h.counted
  rw [here.drop, byteBreaks_encode, line, ← whole, lineBreaks, lineBreaks, lineBreaks, List.countP_append,
    Nat.add_assoc]

/-- What the scanner makes of a comment whose opener is behind it. -/
theorem blockComment_counted (s : Scanner) :
    let loop : CommentLoop := ⟨1, s.bytes.toList.drop s.curr⟩
    let behind := s.skipping loop.skipped
    loop.skipped ++ loop.run.coming = loop.coming ∧
      (loop.run.count = 0 → s.blockComment = some (none, behind)) ∧
      (loop.run.count ≠ 0 → loop.run.coming = [] ∧
        s.blockComment = some (some (.error ⟨.openComment, behind.line⟩), behind)) := by
  intro loop behind
  rcases result : (comment s.bytes s.curr s.line).val with ⟨closed, place, line⟩
  obtain ⟨gone, traverses, places, lines⟩ := comment_traverses result
  have scanned : s.blockComment =
      if closed then some (none, s.skipping gone)
      else some (some (.error ⟨.openComment, (s.skipping gone).line⟩), s.skipping gone) := by
    rw [blockComment, result, skipping, ← places, ← lines]
  cases closed with
  -- Closed, the loop is at zero, in front of the place where the scanner stopped.
  | true =>
    have last : loop.run = ⟨0, s.bytes.toList.drop place⟩ := by
      rw [← CommentLoop.run_zero]
      exact traverses.counted rfl 0
    have whole : gone ++ loop.run.coming = loop.coming := last ▸ traverses.whole
    have same : behind = s.skipping gone := congrArg s.skipping (CommentLoop.skipped_eq whole)
    refine ⟨(CommentLoop.skipped_eq whole).symm ▸ whole, fun _ => same ▸ scanned, fun stuck => ?_⟩
    rw [last] at stuck
    exact absurd rfl stuck
  -- Not closed, the count stays above zero, and then the loop ends for want of bytes.
  | false =>
    obtain ⟨none, above⟩ := traverses.stuck rfl
    have stuck : loop.run.count ≠ 0 := Nat.ne_of_gt (above 0)
    have rest : loop.run.coming = [] := loop.run_ended.resolve_left stuck
    have whole : gone ++ loop.run.coming = loop.coming := by
      rw [rest, ← none]
      exact traverses.whole
    have same : behind = s.skipping gone := congrArg s.skipping (CommentLoop.skipped_eq whole)
    exact ⟨(CommentLoop.skipped_eq whole).symm ▸ whole, fun zero => absurd zero stuck,
      fun _ => ⟨rest, same ▸ scanned⟩⟩

/-- A comment is what the loop with a counter says. Wherever an opener comes next in a text, let the loop
begin behind it with one open comment. The scanner goes over the bytes that the loop skips, and counts the
line breaks in them. If the loop comes to zero, that is all, and scanning goes on behind the comment. If it
does not, however many comments are open then, no byte is left; the scanner notices one fault and gives the end
token after it and then nothing. Both stand on the last line of the source that is scanned. -/
theorem comment_counted {s : Scanner} (opens : opener <+: s.bytes.toList.drop s.curr) :
    let begun : Scanner := { s with start := s.curr, curr := s.curr + 2 }
    let loop : CommentLoop := ⟨1, s.bytes.toList.drop begun.curr⟩
    let behind := begun.skipping loop.skipped
    let fault : LexError := ⟨.openComment, behind.line⟩
    loop.skipped ++ loop.run.coming = loop.coming ∧
      (loop.run.count = 0 → begun.blockComment = some (none, behind) ∧ s.next = behind.next) ∧
      (loop.run.count ≠ 0 → loop.run.coming = [] ∧
        begun.blockComment = some (some (.error fault), behind) ∧
        Gives s [.error fault, .ok (Token.eof behind.line)] ∧
        fault.fault.message = "Unterminated block comment." ∧
        ∀ source, Reached source s → fault.line = 1 + lineBreaks source.toList) := by
  intro begun loop behind fault
  obtain ⟨room, opened⟩ : s.curr + 2 ≤ s.bytes.size ∧ _ :=
    scanToken_opener (s := { s with start := s.curr }) opens
  have inside : s.curr < s.bytes.size := by omega
  obtain ⟨whole, closed, stuck⟩ := blockComment_counted begun
  refine ⟨whole, fun zero => ?_, fun open_ => ?_⟩
  · have scanned := closed zero
    exact ⟨scanned, next_step inside (opened.trans scanned)⟩
  · obtain ⟨none, scanned⟩ := stuck open_
    have all : loop.skipped = loop.coming := by
      have whole : loop.skipped ++ loop.run.coming = loop.coming := whole
      rwa [none, List.append_nil] at whole
    have atEnd : behind.curr = s.bytes.size := by
      show s.curr + 2 + loop.skipped.length = s.bytes.size
      rw [all, List.length_drop, Array.length_toList]
      exact Nat.add_sub_cancel' room
    refine ⟨none, scanned, ?_, rfl, fun source reached => ?_⟩
    · exact .cons (next_step inside (opened.trans scanned)) (gives_end atEnd)
    -- The opener and what the loop skips are all that is left, so the line is the last one.
    · have rest : s.bytes.toList.drop s.curr = opener ++ loop.skipped := by
        obtain ⟨after, coming⟩ := opens
        rw [all, ← coming]
        show opener ++ after = opener ++ s.bytes.toList.drop (s.curr + 2)
        rw [← List.drop_drop, ← coming]
        rfl
      rw [← reached.lastLine, rest, byteBreaks_append, show byteBreaks opener = 0 by decide, Nat.zero_add]
      rfl

/-- Marks that share a byte: `/*/` opens a comment and does not close it, `**/` closes one, and `*/*/` two.
Without the last closer the fault is on the second line, where the text ends. -/
theorem comment_counted_shared :
    let closed := ofSource "/*/*/ \n**/*/+"
    let stuck := ofSource "/*/*/ \n**/"
    (opener <+: closed.bytes.toList.drop closed.curr ∧
      ∃ s : Scanner, closed.next = s.next ∧ s.peek = '+' ∧ s.line = 2) ∧
    opener <+: stuck.bytes.toList.drop stuck.curr ∧
      Gives stuck [.error ⟨.openComment, 2⟩, .ok (Token.eof 2)] := by
  intro closed stuck
  have opens : opener <+: closed.bytes.toList.drop closed.curr := by decide +kernel
  have opens' : opener <+: stuck.bytes.toList.drop stuck.curr := by decide +kernel
  obtain ⟨-, through, -⟩ := comment_counted opens
  obtain ⟨-, -, unfinished⟩ := comment_counted opens'
  obtain ⟨-, next⟩ := through (by decide +kernel)
  obtain ⟨-, -, gives, -, last⟩ := unfinished (by decide +kernel)
  refine ⟨⟨opens, _, next, by decide +kernel, by decide +kernel⟩, opens', ?_⟩
  have line := last _ .start
  dsimp only at line
  rw [line] at gives
  exact gives

end Scanner

end LoxLang
