import LoxLang.Proofs.Scanning.Items
/-!
The scanner cuts a text into segments that lie side by side in its bytes: blanks, comments, tokens
and faults, each from the edge of one character to the edge of another. Its items are those of the
segments that are tokens and faults, in order, each on the line where its segment ends
(`scanner_tiles`).
-/
namespace LoxLang

open Token (lineBreaks)

/-! Segments -/

/-- A segment of a text, as places of bytes: the first one, and the one behind it. -/
structure Tile where
  role : Piece.Role
  first : Nat
  last : Nat

namespace Tile

/-- Segments that lie side by side, from one place to another. -/
def Covers : Nat → List Tile → Nat → Prop
  | i, [], j => i = j
  | i, t :: ts, j => t.first = i ∧ t.first < t.last ∧ Covers t.last ts j

/-- A string or a comment that is not closed. -/
def IsOpen (t : Tile) : Prop := t.role = .fault .openString ∨ t.role = .fault .openComment

/-- The line on which a place lies: one more than the line breaks in front of it. -/
def line (s : Scanner) (place : Nat) : Nat :=
  1 + (s.bytes.toList.take place).countP fun b => Char.ofUInt8 b == '\n'

/-- The item of a segment: a token with the text of the segment or a fault, on the line where the
segment ends. -/
def item? (s : Scanner) (t : Tile) : Option (Except LexError Token) :=
  match t.role with
  | .blank | .comment => none
  | .token kind => (s.slice? t.first t.last).map fun text => .ok ⟨kind, text, line s t.last⟩
  | .fault f => some (.error ⟨f, line s t.last⟩)

/-- A comment: to the end of the line, or between marks, with as many closed as opened. -/
def IsComment (text : List Char) : Prop :=
  (∃ body, text = '/' :: '/' :: body ∧ '\n' ∉ body) ∨
    ∃ body, text = '/' :: '*' :: body ∧ Piece.afterComment 1 0 body = some (body.length, [])

def Fits (text : List Char) : Piece.Role → Prop
  | .blank => text = [' '] ∨ text = ['\t'] ∨ text = ['\r'] ∨ text = ['\n']
  | .comment => IsComment text
  | .token kind => kind ≠ .eof
  | .fault (.unexpected c) => text = [c]
  | .fault .openString => ∃ body, text = '"' :: body ∧ '"' ∉ body
  | .fault .openComment => ∃ body, text = '/' :: '*' :: body ∧ Piece.afterComment 1 0 body = none

end Tile

namespace Piece

theorem afterComment_alone {d n k : Nat} {cs rest : List Char}
    (h : afterComment d n cs = some (k, rest)) :
    ∃ text, text ++ rest = cs ∧ k = n + text.length ∧ afterComment d n text = some (k, []) := by
  induction d, n, cs using afterComment.induct with
  | case1 n cs =>
    simp only [afterComment, Option.some.injEq, Prod.mk.injEq] at h
    obtain ⟨rfl, rfl⟩ := h
    exact ⟨[], rfl, rfl, by simp [afterComment]⟩
  | case2 n d cs ih =>
    rw [afterComment] at h
    obtain ⟨text, rfl, rfl, closed⟩ := ih h
    refine ⟨'*' :: '/' :: text, rfl, ?_, ?_⟩
    · simp only [List.length_cons]
      omega
    · rw [afterComment, closed]
  | case3 n d cs ih =>
    rw [afterComment] at h
    obtain ⟨text, rfl, rfl, closed⟩ := ih h
    refine ⟨'/' :: '*' :: text, rfl, ?_, ?_⟩
    · simp only [List.length_cons]
      omega
    · rw [afterComment, closed]
  | case4 n d c cs noClose noOpener ih =>
    have noClose' : ∀ t, ¬ (c = '*' ∧ cs = '/' :: t) := fun t both => noClose t both.1 both.2
    have noOpener' : ∀ t, ¬ (c = '/' ∧ cs = '*' :: t) := fun t both => noOpener t both.1 both.2
    rw [Scanner.afterComment_pass _ _ noClose' noOpener'] at h
    obtain ⟨text, rfl, rfl, closed⟩ := ih h
    refine ⟨c :: text, rfl, ?_, ?_⟩
    · simp only [List.length_cons]
      omega
    · rw [Scanner.afterComment_pass, closed]
      · exact fun t both => noClose' (t ++ rest) ⟨both.1, by rw [both.2]; rfl⟩
      · exact fun t both => noOpener' (t ++ rest) ⟨both.1, by rw [both.2]; rfl⟩
  | case5 n d =>
    rw [afterComment] at h
    cases h

/-- What a piece is can be told from its text. -/
theorem fits_cut (c : Char) (cs : List Char) : Tile.Fits (cut c cs).1.text (cut c cs).1.role := by
  have row (x : Char) (l : List Char) : x ∉ l.takeWhile (· != x) := fun mem => by
    have other := List.all_eq_true.mp List.all_takeWhile x mem
    simp at other
  have none (x : Char) (l : List Char) (nothing : l.dropWhile (· != x) = []) : x ∉ l := by
    have whole := List.takeWhile_append_dropWhile (p := (· != x)) (l := l)
    rw [nothing, List.append_nil] at whole
    rw [← whole]
    exact row x l
  unfold cut
  split
  · rename_i blank
    simp only [isBlank, Bool.or_eq_true, beq_iff_eq] at blank
    rcases blank with ((rfl | rfl) | rfl) | rfl <;> simp [Tile.Fits]
  split
  · rename_i quote
    obtain rfl : c = '"' := eq_of_beq quote
    split
    · exact Kind.noConfusion
    · rename_i nothing
      exact ⟨cs, rfl, none _ _ nothing⟩
  split
  · exact Kind.noConfusion
  split
  · exact wordKind_ne_eof _
  split
  · exact .inl ⟨_, rfl, row _ _⟩
  · rename_i rest _ _ _ _
    split
    · rename_i n after found
      obtain ⟨text, rfl, length, closed⟩ := afterComment_alone found
      rw [length, Nat.zero_add] at closed ⊢
      rw [List.take_left]
      exact .inr ⟨text, rfl, closed⟩
    · rename_i found
      exact ⟨_, rfl, found⟩
  · split
    · rfl
    · split <;> exact Kind.noConfusion

/-- A string or a comment that is not closed goes to the end of the text. -/
theorem cut_open (c : Char) (cs : List Char) : (cut c cs).1.role = .fault .openString ∨
    (cut c cs).1.role = .fault .openComment → (cut c cs).2 = [] := by
  unfold cut
  split
  · simp
  split
  · split <;> simp
  split
  · simp
  split
  · simp
  split
  · simp
  · split <;> simp
  · split
    · simp
    · split <;> simp

theorem of_mem_pieces {P : Piece → Prop} (h : ∀ c cs, P (cut c cs).1) {cs : List Char} {p : Piece}
    (mem : p ∈ pieces cs) : P p := by
  fun_induction pieces cs with
  | case1 => cases mem
  | case2 c cs ih =>
    rcases List.mem_cons.mp mem with rfl | later
    · exact h c cs
    · exact ih later

/-- The segments of pieces, the first of which begins at a place. -/
def tiles (first : Nat) : List Piece → List Tile
  | [] => []
  | p :: ps =>
    ⟨p.role, first, first + (encode p.text).length⟩ :: tiles (first + (encode p.text).length) ps

theorem covers_tiles : ∀ (ps : List Piece) (first : Nat), (∀ p ∈ ps, p.text ≠ []) →
    Tile.Covers first (tiles first ps) (first + (encode (ps.map text).flatten).length)
  | [], _, _ => rfl
  | p :: ps, first, some_ => by
    have rest := covers_tiles ps (first + (encode p.text).length)
      fun q mem => some_ q (List.mem_cons_of_mem p mem)
    rw [List.map_cons, List.flatten_cons, encode_append, List.length_append, ← Nat.add_assoc]
    refine ⟨rfl, Nat.lt_add_of_pos_right ?_, rest⟩
    exact List.length_pos_iff.mpr (encode_ne_nil (some_ p List.mem_cons_self))

/-- Only the last segment is not closed. -/
theorem open_tiles (cs : List Char) : ∀ first, ∀ t ∈ tiles first (pieces cs), t.IsOpen →
    t.last = first + (encode cs).length := by
  fun_induction pieces cs with
  | case1 =>
    intro _ _ mem
    cases mem
  | case2 c cs ih =>
    intro first t mem isOpen
    rw [← cut_append c cs, encode_append, List.length_append, ← Nat.add_assoc]
    rcases List.mem_cons.mp mem with rfl | later
    · rw [cut_open c cs isOpen]
      rfl
    · exact ih _ t later isOpen

section

variable {s : Scanner}

theorem slice_tiles : ∀ (ps : List Piece) (done : List Char),
    s.bytes.toList = encode (done ++ (ps.map text).flatten) →
      ∀ t ∈ tiles (encode done).length ps, ∃ p ∈ ps, t.role = p.role ∧
        s.slice? t.first t.last = some (String.ofList p.text)
  | [], _, _, _, mem => nomatch mem
  | p :: ps, done, bytes, t, mem => by
    rw [List.map_cons, List.flatten_cons] at bytes
    rcases List.mem_cons.mp mem with rfl | later
    · refine ⟨p, List.mem_cons_self, rfl, Scanner.slice?_eq (b := (ps.map text).flatten) ?_⟩
      rw [bytes, encode_append, encode_append, List.append_assoc]
    · rw [← List.length_append, ← encode_append] at later
      rw [← List.append_assoc] at bytes
      obtain ⟨q, inPs, same⟩ := slice_tiles ps (done ++ p.text) bytes t later
      exact ⟨q, List.mem_cons_of_mem p inPs, same⟩

theorem line_eq {done rest : List Char} (bytes : s.bytes.toList = encode (done ++ rest)) :
    Tile.line s (encode done).length = 1 + lineBreaks done := by
  rw [Tile.line, bytes, encode_append, List.take_left, countP_encode (by decide)]
  rfl

/-- The items of pieces are those of their segments. -/
theorem items_tiles : ∀ (ps : List Piece) (done : List Char),
    s.bytes.toList = encode (done ++ (ps.map text).flatten) →
      Token.ofPieces (1 + lineBreaks done) ps =
        (tiles (encode done).length ps).filterMap (Tile.item? s) ++
          [.ok (Token.eof (Tile.line s s.bytes.size))]
  | [], done, bytes => by
    have size : s.bytes.size = (encode done).length := by
      have length := congrArg List.length bytes
      rwa [Array.length_toList, List.map_nil, List.flatten_nil, List.append_nil] at length
    rw [size, line_eq bytes]
    rfl
  | p :: ps, done, bytes => by
    rw [List.map_cons, List.flatten_cons] at bytes
    have text : s.slice? (encode done).length ((encode done).length + (encode p.text).length) =
        some (String.ofList p.text) := by
      refine Scanner.slice?_eq (b := (ps.map Piece.text).flatten) ?_
      rw [bytes, encode_append, encode_append, List.append_assoc]
    rw [← List.append_assoc] at bytes
    have later := items_tiles ps (done ++ p.text) bytes
    have line := line_eq bytes
    have breaks : lineBreaks (done ++ p.text) = lineBreaks done + lineBreaks p.text :=
      List.countP_append
    rw [encode_append, List.length_append] at later line
    rw [breaks, ← Nat.add_assoc] at later line
    have item : Tile.item? s
        ⟨p.role, (encode done).length, (encode done).length + (encode p.text).length⟩ =
          Token.ofPiece? p (1 + lineBreaks done + lineBreaks p.text) := by
      unfold Tile.item? Token.ofPiece?
      dsimp only
      rw [text, line]
      cases p.role <;> rfl
    rw [Token.ofPieces, tiles, List.filterMap_cons, item, later]
    cases Token.ofPiece? p (1 + lineBreaks done + lineBreaks p.text) <;> rfl

end

end Piece

namespace Tile

theorem Covers.le : ∀ {ts : List Tile} {i j : Nat}, Covers i ts j → i ≤ j
  | [], _, _, h => Nat.le_of_eq h
  | t :: ts, i, j, ⟨first, less, rest⟩ => by
    have := Covers.le rest
    omega

theorem Covers.last : ∀ {before after : List Tile} {t : Tile} {i j : Nat},
    Covers i (before ++ t :: after) j → t.last = j → after = []
  | [], [], _, _, _, _, _ => rfl
  | [], u :: after, t, i, j, ⟨_, _, first, less, rest⟩, last => by
    have := Covers.le rest
    omega
  | u :: before, after, t, _, j, ⟨_, _, rest⟩, last => by
    have behind : Covers u.last (before ++ t :: after) j := rest
    exact Covers.last behind last

end Tile

namespace Scanner

/-- The scanner cuts every source into segments that lie side by side and cover it. Each of them is
text from the edge of one character to the edge of another one: a single blank, a comment, a token,
or a fault; a fault is one character that nothing begins with, or a string or a comment that is not
closed, which is the last segment. The items of a source are those of its tokens and faults in
order, each on the line where its segment ends, and an end token behind them. The scanner gives
these items, one each time it is asked, and nothing from then on; it never breaks off. -/
theorem scanner_tiles (source : String) :
    ∃ tiles : List Tile,
      let s := ofSource source
      let size := s.bytes.size
      Tile.Covers 0 tiles size ∧
      (∀ t ∈ tiles, ∃ text, s.slice? t.first t.last = some text ∧ Tile.Fits text.toList t.role) ∧
      (∀ before t after, tiles = before ++ t :: after → t.IsOpen →
        t.last = size ∧ after = [] ∧ ∀ u ∈ before, ¬ u.IsOpen) ∧
      Token.items source =
        tiles.filterMap (Tile.item? s) ++ [.ok (Token.eof (Tile.line s size))] ∧
      ∀ n, items n s =
        some (((Token.items source).map some ++ List.replicate n none).take n) := by
  let s := ofSource source
  let size := s.bytes.size
  let ps := Piece.pieces source.toList
  have bytes : s.bytes.toList = encode ([] ++ (ps.map Piece.text).flatten) := by
    rw [List.nil_append, Piece.flatten_pieces]
    exact bytes_ofSource source
  have length : size = (encode source.toList).length := by
    rw [← bytes_ofSource source, Array.length_toList]
  have covers : Tile.Covers 0 (Piece.tiles 0 ps) size := by
    have side := Piece.covers_tiles ps 0 fun p mem =>
      Piece.of_mem_pieces (P := fun p => p.text ≠ []) Piece.cut_text_ne_nil mem
    rwa [Piece.flatten_pieces, Nat.zero_add, ← length] at side
  have toEnd (t : Tile) (mem : t ∈ Piece.tiles 0 ps) (isOpen : t.IsOpen) : t.last = size := by
    have last := Piece.open_tiles source.toList 0 t mem isOpen
    rwa [Nat.zero_add, ← length] at last
  have start : At s [] source.toList := ⟨bytes_ofSource source, rfl⟩
  refine ⟨Piece.tiles 0 ps, covers, fun t mem => ?_, fun before t after whole isOpen => ?_,
    Piece.items_tiles ps [] bytes, gives_pieces start⟩
  · obtain ⟨p, inPs, role, text⟩ := Piece.slice_tiles ps [] bytes t mem
    refine ⟨_, text, ?_⟩
    rw [String.toList_ofList, role]
    exact Piece.of_mem_pieces (P := fun p => Tile.Fits p.text p.role) Piece.fits_cut inPs
  · have last := toEnd t (whole ▸ List.mem_append_right _ List.mem_cons_self) isOpen
    rw [whole] at covers
    refine ⟨last, covers.last last, fun u mem other => ?_⟩
    -- Another open one in front of it would go to the end too, and so be the last.
    have lastU := toEnd u (whole ▸ List.mem_append_left _ mem) other
    obtain ⟨front, behind, rfl⟩ := List.append_of_mem mem
    rw [List.append_assoc] at covers
    exact absurd (covers.last lastU) (by simp)

end Scanner

end LoxLang
