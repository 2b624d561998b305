import LoxLang.Token.Scan
/-!
The scanner as a machine that goes through the bytes of a text. It knows where the lexeme it is at
begins, which byte comes next and on which line that is. Each time it is asked (`Scanner.next`) it
skips blanks and comments and gives one token or one fault; behind the last byte it gives the end
token, once, and then nothing more. `none` stands for breaking off: for reaching behind the last
byte, and for taking a piece of text that begins or ends within a character.

What is proved: it never goes back, and every lexeme takes it further (`scanToken_ahead`), which is
why it comes to an end.
-/
namespace LoxLang

/-- A scanner on its way through a text. -/
structure Scanner where
  /-- The text in UTF-8. -/
  bytes : Array UInt8
  /-- The first byte of the current lexeme. -/
  start : Nat
  /-- The byte that comes next. -/
  curr : Nat
  /-- The line of the byte that comes next, counted from one. -/
  line : Nat

namespace Scanner

def ofSource (source : String) : Scanner := ⟨source.toUTF8.data, 0, 0, 1⟩

/-- Whether a character begins at a byte, or the text ends in front of it. -/
def isBoundary (s : Scanner) (i : Nat) : Bool :=
  match s.bytes[i]? with
  | some b => b < 128 || 192 ≤ b
  | none => i == s.bytes.size

/-- The text from one byte up to another one. -/
def slice? (s : Scanner) (first last : Nat) : Option String :=
  if first ≤ last ∧ s.isBoundary first ∧ s.isBoundary last then
    String.fromUTF8? ⟨s.bytes.extract first last⟩
  else none

def lexeme? (s : Scanner) : Option String := s.slice? s.start s.curr

/-- The byte at a place as a character; zero behind the end. Bytes from 128 on belong to characters
of several bytes, and are none of those that the scanner looks for. -/
def seen (s : Scanner) (i : Nat) : Char := Char.ofUInt8 (s.bytes[i]?.getD 0)

def peek (s : Scanner) : Char := s.seen s.curr

def peekNext (s : Scanner) : Char := s.seen (s.curr + 1)

def past (s : Scanner) : Scanner := { s with curr := s.curr + 1 }

def advance (s : Scanner) : Option (Char × Scanner) :=
  if s.curr < s.bytes.size then some (s.peek, s.past) else none

/-- Goes over a byte if it is the expected one. -/
def accept (expected : Char) (s : Scanner) : Bool × Scanner :=
  if s.curr < s.bytes.size ∧ s.peek = expected then (true, s.past) else (false, s)

/-- Goes over a byte, and counts it if a line ends there. -/
def pastCounting (s : Scanner) : Scanner :=
  { s with curr := s.curr + 1, line := if s.peek = '\n' then s.line + 1 else s.line }

/-- Goes over the bytes in front of the first one that is not of some kind, and counts the lines
that end there. -/
def skipWhile (p : Char → Bool) (s : Scanner) : Scanner :=
  if s.curr < s.bytes.size ∧ p s.peek then skipWhile p s.pastCounting else s
termination_by s.bytes.size - s.curr
decreasing_by
  simp only [pastCounting]
  omega

def skipLine (s : Scanner) : Scanner :=
  match (s.bytes.toList.drop s.curr).findIdx? (fun b => Char.ofUInt8 b == '\n') with
  | some n => { s with curr := s.curr + n }
  | none => { s with curr := s.bytes.size }

/-- Goes through a comment whose opener is behind it, from the byte `curr` on the line `line`: to the
byte behind its closer, or to the end if there is none. A comment in it is gone through first, so
each opener has a closer of its own. -/
def comment (bytes : Array UInt8) (curr line : Nat) :
    { r : Bool × Nat × Nat // curr ≤ r.2.1 } :=
  if _atEnd : bytes.size ≤ curr then ⟨(false, curr, line), Nat.le_refl _⟩
  else
    let c := Char.ofUInt8 (bytes[curr]?.getD 0)
    let next := Char.ofUInt8 (bytes[curr + 1]?.getD 0)
    if c = '*' ∧ next = '/' then ⟨(true, curr + 2, line), Nat.le_add_right _ _⟩
    else if c = '/' ∧ next = '*' then
      match comment bytes (curr + 2) line with
      | ⟨(false, curr', line'), h⟩ => ⟨(false, curr', line'), Nat.le_of_add_right_le h⟩
      | ⟨(true, curr', line'), h⟩ =>
        let ⟨r, h'⟩ := comment bytes curr' line'
        ⟨r, Nat.le_trans (Nat.le_of_add_right_le h) h'⟩
    else
      let ⟨r, h⟩ := comment bytes (curr + 1) (if c = '\n' then line + 1 else line)
      ⟨r, Nat.le_of_add_right_le h⟩
termination_by bytes.size - curr
decreasing_by
  · omega
  · simp only at h
    omega
  · omega

/-- What a lexeme comes to: a kind of token or a fault, and nothing for blanks and comments. -/
abbrev Lexeme := Option (Except LexError Kind)

/-- A comment whose opener was read. -/
def blockComment (s : Scanner) : Option (Lexeme × Scanner) :=
  let (closed, curr, line) := (comment s.bytes s.curr s.line).val
  let s := { s with curr, line }
  if closed then some (none, s) else some (some (.error ⟨.openComment, s.line⟩), s)

def string (s : Scanner) : Option (Lexeme × Scanner) :=
  let s := s.skipWhile (· != '"')
  if s.curr < s.bytes.size then do
    let s := s.past
    let text ← s.slice? (s.start + 1) (s.curr - 1)
    some (some (.ok (.string text)), s)
  else some (some (.error ⟨.openString, s.line⟩), s)

/-- The bytes of a numeral whose first digit was read. -/
def skipNumeral (s : Scanner) : Scanner :=
  let s := s.skipWhile Char.isDigit
  if s.peek = '.' ∧ s.peekNext.isDigit then s.past.skipWhile Char.isDigit else s

def number (s : Scanner) : Option (Lexeme × Scanner) := do
  let s := s.skipNumeral
  let text ← s.lexeme?
  let (whole, fraction, _) := Piece.numeral text.toList
  some (some (.ok (.number (Decimal.ofDigits whole fraction))), s)

def word (s : Scanner) : Option (Lexeme × Scanner) := do
  let s := s.skipWhile Piece.inWord
  let text ← s.lexeme?
  some (some (.ok (Piece.wordKind text)), s)

def symbol (t : Symbol) (s : Scanner) : Option (Lexeme × Scanner) :=
  match t.withEqual? with
  | some t' =>
    let (equal, s) := s.accept '='
    some (some (.ok (.symbol (if equal then t' else t))), s)
  | none => some (some (.ok (.symbol t)), s)

/-- A slash that was read, which may begin a comment. -/
def slash (s : Scanner) : Option (Lexeme × Scanner) :=
  let (line, s) := s.accept '/'
  if line then some (none, s.skipLine)
  else
    let (block, s) := s.accept '*'
    if block then s.blockComment else s.symbol .slash

/-- A character that begins nothing. It is gone over as a whole, however many bytes it has. -/
def unexpected (s : Scanner) : Option (Lexeme × Scanner) := do
  let rest ← s.slice? s.start s.bytes.size
  let c := rest.toList.headD '\uFFFD'
  some (some (.error ⟨.unexpected c, s.line⟩), { s with curr := s.start + c.utf8Size })

/-- What begins with a character that was read and is neither blank nor a slash. -/
def beginning (c : Char) (s : Scanner) : Option (Lexeme × Scanner) :=
  if c = '"' then s.string
  else if c.isDigit then s.number
  else if Piece.startsWord c then s.word
  else
    match Symbol.ofChar? c with
    | some t => s.symbol t
    | none => s.unexpected

/-- Reads the lexeme that begins at the byte that comes next. -/
def scanToken (s : Scanner) : Option (Lexeme × Scanner) := do
  let (c, s) ← s.advance
  if c = ' ' ∨ c = '\r' ∨ c = '\t' then some (none, s)
  else if c = '\n' then some (none, { s with line := s.line + 1 })
  else if c = '/' then s.slash
  else s.beginning c

/-! The scanner does not go back -/

/-- The second scanner is in the same text, at the same lexeme, and not in front of the first. -/
structure Onward (s s' : Scanner) : Prop where
  bytes : s'.bytes = s.bytes
  start : s'.start = s.start
  curr : s.curr ≤ s'.curr

variable {s s' s'' : Scanner} {l : Lexeme}

theorem Onward.refl (s : Scanner) : Onward s s := ⟨rfl, rfl, Nat.le_refl _⟩

theorem Onward.trans (h : Onward s s') (h' : Onward s' s'') : Onward s s'' :=
  ⟨h'.bytes.trans h.bytes, h'.start.trans h.start, Nat.le_trans h.curr h'.curr⟩

theorem past_onward (s : Scanner) : Onward s s.past := ⟨rfl, rfl, Nat.le_succ _⟩

theorem pastCounting_onward (s : Scanner) : Onward s s.pastCounting :=
  ⟨rfl, rfl, Nat.le_succ _⟩

theorem accept_onward (expected : Char) (s : Scanner) : Onward s (s.accept expected).2 := by
  unfold accept
  split
  · exact past_onward s
  · exact .refl s

theorem skipWhile_onward (p : Char → Bool) (s : Scanner) : Onward s (s.skipWhile p) := by
  induction s using skipWhile.induct p with
  | case1 s more ih =>
    rw [skipWhile, if_pos more]
    exact (pastCounting_onward s).trans ih
  | case2 s last =>
    rw [skipWhile, if_neg last]
    exact .refl s

theorem skipNumeral_onward (s : Scanner) : Onward s s.skipNumeral := by
  unfold skipNumeral
  dsimp only
  split
  · exact ((skipWhile_onward _ s).trans (past_onward _)).trans (skipWhile_onward _ _)
  · exact skipWhile_onward _ s

theorem skipLine_onward (inside : s.curr ≤ s.bytes.size) : Onward s s.skipLine := by
  unfold skipLine
  split
  · exact ⟨rfl, rfl, Nat.le_add_right _ _⟩
  · exact ⟨rfl, rfl, inside⟩

theorem blockComment_onward (h : s.blockComment = some (l, s')) : Onward s s' := by
  unfold blockComment at h
  have ahead := (comment s.bytes s.curr s.line).property
  dsimp only at h
  split at h <;> cases h <;> exact ⟨rfl, rfl, ahead⟩

theorem string_onward (h : s.string = some (l, s')) : Onward s s' := by
  unfold string at h
  dsimp only at h
  split at h
  · obtain ⟨text, _, h⟩ := Option.bind_eq_some_iff.mp h
    cases h
    exact (skipWhile_onward _ s).trans (past_onward _)
  · cases h
    exact skipWhile_onward _ s

theorem number_onward (h : s.number = some (l, s')) : Onward s s' := by
  obtain ⟨text, _, h⟩ := Option.bind_eq_some_iff.mp h
  cases h
  exact skipNumeral_onward s

theorem word_onward (h : s.word = some (l, s')) : Onward s s' := by
  obtain ⟨text, _, h⟩ := Option.bind_eq_some_iff.mp h
  cases h
  exact skipWhile_onward _ s

theorem symbol_onward {t : Symbol} (h : s.symbol t = some (l, s')) : Onward s s' := by
  unfold symbol at h
  split at h
  · cases h
    exact accept_onward _ s
  · cases h
    exact .refl s

theorem slash_onward (h : s.slash = some (l, s')) : Onward s s' := by
  unfold slash at h
  dsimp only at h
  split at h
  · rename_i line
    cases h
    unfold accept at line ⊢
    split at line
    · rename_i more
      rw [if_pos more]
      exact (past_onward s).trans (skipLine_onward more.1)
    · cases line
  · split at h
    · exact ((accept_onward _ s).trans (accept_onward _ _)).trans (blockComment_onward h)
    · exact ((accept_onward _ s).trans (accept_onward _ _)).trans (symbol_onward h)

/-- A character that nothing begins with is gone over from where it begins. -/
theorem unexpected_ahead (h : s.unexpected = some (l, s')) :
    s'.bytes = s.bytes ∧ s.start < s'.curr := by
  obtain ⟨rest, _, h⟩ := Option.bind_eq_some_iff.mp h
  cases h
  exact ⟨rfl, Nat.lt_add_of_pos_right (Char.utf8Size_pos _)⟩

theorem beginning_ahead {c : Char} (begins : s.start < s.curr)
    (h : s.beginning c = some (l, s')) : s'.bytes = s.bytes ∧ s.start < s'.curr := by
  have ahead {s' : Scanner} (h : Onward s s') : s'.bytes = s.bytes ∧ s.start < s'.curr :=
    ⟨h.bytes, Nat.lt_of_lt_of_le begins h.curr⟩
  unfold beginning at h
  split at h
  · exact ahead (string_onward h)
  split at h
  · exact ahead (number_onward h)
  split at h
  · exact ahead (word_onward h)
  split at h
  · exact ahead (symbol_onward h)
  · exact unexpected_ahead h

/-- Every lexeme takes the scanner further. -/
theorem scanToken_ahead (begins : s.start = s.curr) (h : s.scanToken = some (l, s')) :
    s'.bytes = s.bytes ∧ s.start < s'.curr := by
  have past : s.past.start < s.past.curr := Nat.lt_succ_of_le (Nat.le_of_eq begins)
  have ahead {s' : Scanner} (h : Onward s.past s') : s'.bytes = s.bytes ∧ s.start < s'.curr :=
    ⟨h.bytes, Nat.lt_of_lt_of_le past h.curr⟩
  obtain ⟨⟨c, s₁⟩, read, h⟩ := Option.bind_eq_some_iff.mp h
  unfold advance at read
  split at read
  · cases read
    dsimp only at h
    split at h
    · cases h
      exact ahead (.refl _)
    split at h
    · cases h
      exact ahead ⟨rfl, rfl, Nat.le_refl _⟩
    split at h
    · exact ahead (slash_onward h)
    · have begun := beginning_ahead (s := s.past) past h
      exact begun
  · cases read

/-! Items -/

/-- The next item: a token or a fault, or nothing any more. -/
def next (s : Scanner) : Option (Option (Except LexError Token) × Scanner) :=
  if s.bytes.size < s.curr then some (none, s)
  else if s.curr = s.bytes.size then some (some (.ok (Token.eof s.line)), s.past)
  else
    match _read : scanToken { s with start := s.curr } with
    | none => none
    | some (none, s') => next s'
    | some (some (.error e), s') => some (some (.error e), s')
    | some (some (.ok kind), s') => do
      let lexeme ← s'.lexeme?
      some (some (.ok ⟨kind, lexeme, s'.line⟩), s')
termination_by s.bytes.size + 1 - s.curr
decreasing_by
  have ⟨bytes, curr⟩ := scanToken_ahead rfl _read
  rw [bytes]
  simp only at curr ⊢
  omega

/-- The items that the scanner gives when it is asked for so many; nothing where it has no more. -/
def items : Nat → Scanner → Option (List (Option (Except LexError Token)))
  | 0, _ => some []
  | n + 1, s => do
    let (item, s) ← s.next
    let rest ← items n s
    some (item :: rest)

end Scanner

end LoxLang
