import LoxLang.Proofs.Scanning.Lexemes
/-!
What the scanner gives for a text. It goes over one piece after the other and finds in each what the
piece is (`scanToken_reads`), so its items are those of the pieces, with the end token behind them
and nothing behind that (`gives_pieces`). It never breaks off.
-/
namespace LoxLang

open Token (lineBreaks)

/-- What the scanner makes of a piece that ends on a line. -/
def Piece.lexeme (p : Piece) (line : Nat) : Scanner.Lexeme :=
  match p.role with
  | .blank | .comment => none
  | .token kind => some (.ok kind)
  | .fault f => some (.error ⟨f, line⟩)

/-- A piece gives what the scanner makes of it, a token with the text of the piece. -/
theorem Token.ofPiece?_eq (p : Piece) (line : Nat) : Token.ofPiece? p line =
    (p.lexeme line).map (Except.map fun kind => ⟨kind, String.ofList p.text, line⟩) := by
  unfold Token.ofPiece? Piece.lexeme
  cases p.role <;> rfl

namespace Scanner

variable {s : Scanner} {done rest cs : List Char} {c : Char}

/-- The scanner goes over the first piece of the text that comes next. -/
def Reads (s : Scanner) (scanned : Option (Lexeme × Scanner)) (p : Piece) : Prop :=
  scanned = some (p.lexeme (s.line + lineBreaks p.text), s.beyond p.text)

theorem slash_reads (h : At s done ('/' :: cs)) :
    s.Reads s.past.slash (Piece.cut '/' cs).1 := by
  have slash : Ascii '/' := by decide
  have star : Ascii '*' := by decide
  have first : s.past = s.beyond ['/'] := At.past slash (by decide)
  have next : At s.past (done ++ ['/']) cs := h.past_at slash (by decide)
  have alone (noLine : ∀ rest, cs ≠ '/' :: rest) (noBlock : ∀ rest, cs ≠ '*' :: rest) :
      s.Reads (s.past.symbol .slash) (Piece.cut '/' cs).1 := by
    have piece : Piece.cut '/' cs = (⟨.token (.symbol .slash), ['/']⟩, cs) :=
      Piece.cut_of_single (by decide) (by decide) (by decide) (by decide) rfl
        (fun rest _ => noLine rest) (fun rest _ => noBlock rest) fun t rest equal => by cases equal
    rw [piece, first]
    rfl
  unfold Scanner.slash
  dsimp only
  cases cs with
  | nil =>
    rw [accept_nil next, if_neg Bool.false_ne_true, accept_nil next, if_neg Bool.false_ne_true]
    exact alone (fun _ => nofun) fun _ => nofun
  | cons d rest =>
    by_cases line : d = '/'
    · subst line
      have piece : (Piece.cut '/' ('/' :: rest)).1 =
          ⟨.comment, ['/', '/'] ++ rest.takeWhile (· != '\n')⟩ := rfl
      have behind : At (s.past.beyond ['/']) (done ++ ['/'] ++ ['/']) rest := next.beyond
      rw [accept_beyond next slash (by decide), if_pos rfl, if_pos rfl, piece]
      dsimp only
      rw [skipLine_eq behind, first, ← beyond_append, ← beyond_append]
      rfl
    by_cases block : d = '*'
    · subst block
      have behind : At (s.past.beyond ['*']) (done ++ ['/'] ++ ['*']) rest := next.beyond
      rw [accept_beyond next slash (by decide), if_neg line, if_neg Bool.false_ne_true,
        accept_beyond next star (by decide), if_pos rfl, if_pos rfl, blockComment_eq]
      have ended := commentEnd_beyond behind 0
      rw [first, ← beyond_append, ← beyond_append] at ended
      rw [first, ← beyond_append, Piece.cut_block]
      cases found : Piece.afterComment 1 0 rest with
      | some r =>
        rw [found] at ended
        obtain ⟨text, whole, length, closed⟩ := ended
        have inner : rest.take r.1 = text := by
          rw [← whole, length, Nat.zero_add, List.take_left]
        rw [closed, ← beyond_append, Option.elim_some, inner]
        rfl
      | none =>
        rw [found] at ended
        rw [ended]
        rfl
    · rw [accept_beyond next slash (by decide), if_neg line, if_neg Bool.false_ne_true,
        accept_beyond next star (by decide), if_neg block, if_neg Bool.false_ne_true]
      exact alone (fun _ same => line (List.cons.inj same).1)
        fun _ same => block (List.cons.inj same).1

/-- A character that is not ASCII is none of those that the scanner knows. -/
theorem unknown_of_wide (wide : ¬ Ascii c) : Piece.isBlank c = false ∧ c ≠ '/' ∧ c ≠ '"' ∧
    c.isDigit = false ∧ Piece.startsWord c = false ∧ Symbol.ofChar? c = none := by
  have other {x : Char} (ascii : Ascii x) : c ≠ x := fun same => wide (same ▸ ascii)
  have blank : Piece.isBlank c = false := by
    simp [Piece.isBlank, other (x := ' ') (by decide), other (x := '\r') (by decide),
      other (x := '\t') (by decide), other (x := '\n') (by decide)]
  refine ⟨blank, other (by decide), other (by decide),
    Bool.eq_false_iff.mpr fun digit => wide (ascii_of_isDigit digit),
    Bool.eq_false_iff.mpr fun letter => wide (ascii_of_startsWord letter), ?_⟩
  cases symbol : Symbol.ofChar? c with
  | none => rfl
  | some t => exact (wide (ascii_of_ofChar? symbol)).elim

theorem unexpected_reads (h : At s done (c :: cs)) (begins : s.start = s.curr)
    (blank : Piece.isBlank c = false) (slash : c ≠ '/') (quote : c ≠ '"')
    (digit : c.isDigit = false) (letter : Piece.startsWord c = false)
    (symbol : Symbol.ofChar? c = none) : s.Reads s.past.unexpected (Piece.cut c cs).1 := by
  have line : c ≠ '\n' := fun same => by
    rw [same] at blank
    cases blank
  have piece : Piece.cut c cs = (⟨.fault (.unexpected c), [c]⟩, cs) := by
    unfold Piece.cut
    rw [if_neg (by simp [blank]), if_neg (by simpa using quote), if_neg (by simp [digit]),
      if_neg (by simp [letter])]
    split
    · exact (slash rfl).elim
    · exact (slash rfl).elim
    · rw [symbol]
  have none : lineBreaks [c] = 0 := lineBreaks_of_line (by simpa using line)
  rw [piece, unexpected_beyond h begins line, Reads]
  show some (some (Except.error (LexError.mk _ s.line)), _) = some (some (.error ⟨_, s.line + lineBreaks [c]⟩), _)
  rw [none]
  rfl

theorem Piece.cut_of_string {d : Char} {rest : List Char}
    (left : cs.dropWhile (· != '"') = d :: rest) : Piece.cut '"' cs =
      (⟨.token (.string (String.ofList (cs.takeWhile (· != '"')))),
        '"' :: cs.takeWhile (· != '"') ++ ['"']⟩, rest) := by
  unfold Piece.cut
  rw [if_neg (by decide), if_pos (by decide), left]

theorem Piece.cut_of_openString (left : cs.dropWhile (· != '"') = []) :
    Piece.cut '"' cs = (⟨.fault .openString, '"' :: cs⟩, []) := by
  unfold Piece.cut
  rw [if_neg (by decide), if_pos (by decide), left]

theorem beginning_reads (h : At s done (c :: cs)) (begins : s.start = s.curr)
    (blank : Piece.isBlank c = false) (slash : c ≠ '/') (ascii : Ascii c) :
    s.Reads (s.past.beginning c) (Piece.cut c cs).1 := by
  have notBlank : ¬ Piece.isBlank c = true := Bool.eq_false_iff.mp blank
  have line : c ≠ '\n' := fun same => by
    rw [same] at blank
    cases blank
  unfold beginning
  split
  · rename_i quote
    subst quote
    rw [string_beyond h begins]
    cases left : cs.dropWhile (· != '"') with
    | nil =>
      rw [Piece.cut_of_openString left]
      rfl
    | cons d rest =>
      rw [Piece.cut_of_string left]
      rfl
  rename_i quote
  have notQuote : ¬ (c == '"') = true := fun same => quote (eq_of_beq same)
  split
  · rename_i digit
    have piece : (Piece.cut c cs).1 = ⟨.token (.number (Decimal.ofDigits (Piece.numeral (c :: cs)).1
        (Piece.numeral (c :: cs)).2.1)), numeralText (c :: cs)⟩ := by
      unfold Piece.cut
      rw [if_neg notBlank, if_neg notQuote, if_pos digit]
      rfl
    rw [number_beyond h begins digit, piece]
    rfl
  rename_i notDigit
  split
  · rename_i letter
    have piece : (Piece.cut c cs).1 =
        ⟨.token (Piece.wordKind (String.ofList (c :: cs.takeWhile Piece.inWord))),
          c :: cs.takeWhile Piece.inWord⟩ := by
      unfold Piece.cut
      rw [if_neg notBlank, if_neg notQuote, if_neg notDigit, if_pos letter]
    rw [word_beyond h begins letter, piece]
    rfl
  rename_i notLetter
  split
  -- A symbol, of two characters if the second is there.
  · rename_i t one
    have next : At s.past (done ++ [c]) cs := h.past_at ascii line
    have first : s.past = s.beyond [c] := At.past ascii line
    rw [symbol_beyond t next]
    split
    · rename_i t' rest two
      rw [Piece.cut_of_double notBlank notQuote notDigit notLetter one two, first, ← beyond_append]
      rfl
    · rename_i short
      rw [Piece.cut_of_single notBlank notQuote notDigit notLetter one
        (fun _ same => (slash same).elim) (fun _ same => (slash same).elim)
        fun t' rest two same => short t' rest two same, first]
      rfl
  · rename_i symbol
    exact unexpected_reads h begins blank slash quote (Bool.eq_false_iff.mpr notDigit)
      (Bool.eq_false_iff.mpr notLetter) symbol

/-- The scanner goes over the first piece of the text, and finds in it what the piece is. -/
theorem scanToken_reads (h : At s done (c :: cs)) (begins : s.start = s.curr) :
    s.Reads s.scanToken (Piece.cut c cs).1 := by
  have read : s.advance = some (s.peek, s.past) := if_pos h.inside
  unfold scanToken
  rw [read, Option.bind_eq_bind, Option.bind_some]
  dsimp only
  by_cases ascii : Ascii c
  · rw [h.peek_eq ascii]
    split
    · rename_i blank
      have same : Piece.isBlank c = true := by
        rcases blank with rfl | rfl | rfl <;> rfl
      have line : c ≠ '\n' := by
        rcases blank with rfl | rfl | rfl <;> decide
      have piece : Piece.cut c cs = (⟨.blank, [c]⟩, cs) := if_pos same
      rw [piece, At.past ascii line]
      rfl
    rename_i noBlank
    split
    · rename_i break_
      subst break_
      rfl
    rename_i noBreak
    split
    · rename_i slash
      subst slash
      exact slash_reads h
    · rename_i slash
      have blank : Piece.isBlank c = false := by
        obtain ⟨space, other⟩ := not_or.mp noBlank
        obtain ⟨feed, tab⟩ := not_or.mp other
        simp [Piece.isBlank, space, feed, tab, noBreak]
      exact beginning_reads h begins blank slash ascii
  · -- no byte of the character is known, so it is gone over as a whole
    have seen : ¬ Ascii s.peek := by
      have coarse : Coarse fun c => decide (Ascii c) :=
        coarse_of_ascii fun _ known => of_decide_eq_true known
      have same := h.peek coarse
      rw [decide_eq_false ascii] at same
      exact of_decide_eq_false same
    have next : s.past.beginning s.peek = s.past.unexpected := by
      obtain ⟨_, _, quote, digit, letter, symbol⟩ := unknown_of_wide seen
      unfold beginning
      rw [if_neg quote, if_neg (by simp [digit]), if_neg (by simp [letter]), symbol]
    have other {x : Char} (known : Ascii x) : s.peek ≠ x := fun same => seen (same ▸ known)
    obtain ⟨blank, slash, quote, digit, letter, symbol⟩ := unknown_of_wide ascii
    rw [if_neg, if_neg (other (by decide)), if_neg (other (by decide)), next]
    · exact unexpected_reads h begins blank slash quote digit letter symbol
    · rintro (same | same | same)
      · exact other (by decide) same
      · exact other (by decide) same
      · exact other (by decide) same

/-! Items -/

theorem next_behind (behind : s.bytes.size < s.curr) : s.next = some (none, s) := by
  rw [next, if_pos behind]

theorem next_end (h : At s done []) : s.next = some (some (.ok (Token.eof s.line)), s.past) := by
  have size : s.bytes.size = s.curr := h.size
  rw [next, if_neg (by omega), if_pos size.symm]

/-- Inside the text the next item is what the scanner makes of one step, or what comes next behind it. -/
theorem next_step {found : Lexeme} {s' : Scanner} (inside : s.curr < s.bytes.size) :
    scanToken { s with start := s.curr } = some (found, s') → s.next =
      match found with
      | none => s'.next
      | some (.error e) => some (some (.error e), s')
      | some (.ok kind) =>
        s'.lexeme?.bind fun lexeme => some (some (.ok ⟨kind, lexeme, s'.line⟩), s') := by
  intro read
  rw [next, if_neg (Nat.not_lt_of_lt inside), if_neg (Nat.ne_of_lt inside)]
  split <;> rename_i step <;> rw [read] at step <;> cases step <;> rfl

/-- The next item is that of the first piece, or what comes next behind it. -/
theorem next_eq (h : At s done (c :: cs)) :
    s.next =
      match Token.ofPiece? (Piece.cut c cs).1 (s.line + lineBreaks (Piece.cut c cs).1.text) with
      | none => next (beyond { s with start := s.curr } (Piece.cut c cs).1.text)
      | some item => some (some item, beyond { s with start := s.curr } (Piece.cut c cs).1.text) := by
  have here : At { s with start := s.curr } done (c :: cs) := ⟨h.bytes, h.curr⟩
  have whole : At { s with start := s.curr } done
      ((Piece.cut c cs).1.text ++ (Piece.cut c cs).2) := (Piece.cut_append c cs).symm ▸ here
  have text := lexeme?_beyond whole rfl
  rw [next_step h.inside (scanToken_reads here rfl), Token.ofPiece?_eq]
  rcases (Piece.cut c cs).1.lexeme _ with _ | e | kind
  · rfl
  · rfl
  · dsimp only
    rw [text]
    rfl

/-- The scanner gives these items one after the other, and nothing from then on. -/
def Gives (s : Scanner) (xs : List (Except LexError Token)) : Prop :=
  ∀ n, items n s = some ((xs.map some ++ List.replicate n none).take n)

theorem Gives.nothing (behind : s.bytes.size < s.curr) : Gives s [] := by
  intro n
  induction n with
  | zero => rfl
  | succ n ih =>
    rw [items, next_behind behind, Option.bind_eq_bind, Option.bind_some]
    dsimp only
    rw [ih]
    simp [List.replicate_succ]

theorem Gives.cons {s' : Scanner} {x : Except LexError Token} {xs : List (Except LexError Token)}
    (first : s.next = some (some x, s')) (h : Gives s' xs) : Gives s (x :: xs) := by
  intro n
  cases n with
  | zero => rfl
  | succ n =>
    rw [items, first, Option.bind_eq_bind, Option.bind_some]
    dsimp only
    rw [h n]
    have enough : ((xs.map some ++ List.replicate (n + 1) none).take n) =
        (xs.map some ++ List.replicate n none).take n := by
      rw [List.replicate_succ', ← List.append_assoc, List.take_append_of_le_length]
      simp
    simp [enough]

theorem Gives.skip {s' : Scanner} {xs : List (Except LexError Token)} (same : s.next = s'.next)
    (h : Gives s' xs) : Gives s xs := by
  intro n
  cases n with
  | zero => rfl
  | succ n =>
    rw [items, same]
    exact h (n + 1)

/-- The items are those of the pieces that come next, with the end token behind them. -/
theorem gives_pieces (h : At s done rest) :
    Gives s (Token.ofPieces s.line (Piece.pieces rest)) := by
  induction size : rest.length using Nat.strongRecOn generalizing s done rest with
  | ind size ih =>
    subst size
    cases rest with
    | nil =>
      rw [Piece.pieces, Token.ofPieces]
      refine .cons (next_end h) (.nothing ?_)
      have size : s.bytes.size = s.curr := h.size
      exact Nat.lt_succ_of_le (Nat.le_of_eq size)
    | cons c cs =>
      have here : At { s with start := s.curr } done
          ((Piece.cut c cs).1.text ++ (Piece.cut c cs).2) := by
        rw [Piece.cut_append]
        exact ⟨h.bytes, h.curr⟩
      have later := ih _ (Piece.cut_length c cs) here.beyond rfl
      have next := next_eq h
      rw [Piece.pieces, Token.ofPieces]
      split at next
      · rename_i none
        rw [none]
        exact .skip next later
      · rename_i item some_
        rw [some_]
        exact .cons next later

end Scanner

end LoxLang
