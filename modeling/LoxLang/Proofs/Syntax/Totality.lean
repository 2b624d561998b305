import LoxLang.Proofs.Syntax.Acceptance
import LoxLang.Proofs.Syntax.Advancing
/-!
Reading always comes to an end, inside of its tokens. The tokens are looked at by their index, and an index
that is looked at is never behind the first end token.

What is proved:
1. every rule moves from an index to a later one, up to the first end token (`Parse.Forward`);
2. giving up a faulty declaration, walked index by index, looks at no other token and stops where reading
   goes on (`Token.synchronize?_eq`);
3. a declaration that is read in front of the end takes at least one token, faulty or not
   (`Grammar.declaration_consumes`), so the declarations of a program or block and the members of a class
   come to an end (`Grammar.reading_total`).
-/
namespace LoxLang

open Grammar Parse

/-! Indices -/

namespace Token

/-- The tokens are `front`, the first end token `last`, and others. -/
structure Divided (tokens front : List Token) (last : Token) : Prop where
  whole : ∃ others, tokens = front ++ last :: others
  inner : ∀ t ∈ front, t.isEof = false
  ends : last.isEof = true

/-- Tokens that end with an end token are divided by the first one. -/
theorem divided_untilEof {eof : Token} (ends : eof.isEof = true) : ∀ before : List Token,
    Divided (before ++ [eof]) (untilEof (before ++ [eof])).1 (untilEof (before ++ [eof])).2
  | [] => by
    simp only [List.nil_append, untilEof, ends, if_true]
    exact ⟨⟨[], rfl⟩, fun _ mem => absurd mem List.not_mem_nil, ends⟩
  | t :: ts => by
    have rest := divided_untilEof ends ts
    simp only [List.cons_append, untilEof]
    cases first : t.isEof with
    | true =>
      simp only [if_true]
      exact ⟨⟨_, rfl⟩, fun _ mem => absurd mem List.not_mem_nil, first⟩
    | false =>
      simp only [Bool.false_eq_true, if_false]
      obtain ⟨others, whole⟩ := rest.whole
      refine ⟨⟨others, by rw [List.cons_append, ← whole]⟩, ?_, rest.ends⟩
      intro s mem
      rcases List.mem_cons.mp mem with rfl | mem
      · exact first
      · exact rest.inner s mem

section

variable {tokens front : List Token} {last : Token} {i : Nat}

/-- Up to the first end token an index is inside, and the token there is the next one of a reading. -/
theorem Divided.at (h : Divided tokens front last) (le : i ≤ front.length) :
    tokens[i]? = some ((front.drop i).headD last) := by
  obtain ⟨others, rfl⟩ := h.whole
  rcases Nat.lt_or_eq_of_le le with lt | rfl
  · rw [List.getElem?_append_left lt, List.drop_eq_getElem_cons lt]
    exact List.getElem?_eq_getElem lt
  · rw [List.getElem?_append_right (Nat.le_refl _), List.drop_length, Nat.sub_self]
    rfl

/-- The token at an index is the end token just where a reading is at the end. -/
theorem Divided.isEof_at (h : Divided tokens front last) (le : i ≤ front.length) :
    ((front.drop i).headD last).isEof = decide (i = front.length) := by
  rcases Nat.lt_or_eq_of_le le with lt | rfl
  · rw [List.drop_eq_getElem_cons lt, List.headD_cons, h.inner _ (List.getElem_mem lt)]
    exact (decide_eq_false (Nat.ne_of_lt lt)).symm
  · rw [List.drop_length]
    exact h.ends.trans (decide_eq_true rfl).symm

end

/-- The index behind the token at `i`, which stays at an end token; none if it is outside. -/
def advance? (tokens : List Token) (i : Nat) : Option Nat :=
  tokens[i]?.map fun t => if t.isEof then i else i + 1

/-- The index of the next boundary between statements, or of an end token, from `i` on; none if an index
outside is looked at. -/
def boundary? (tokens : List Token) (i : Nat) : Option Nat :=
  match _inside : tokens[i]? with
  | none => none
  | some t =>
    if t.isEof then some i
    else
      match tokens[i - 1]? with
      | none => none
      | some previous =>
        if previous.isSymbol .semicolon || startsStatement t then some i
        else boundary? tokens (i + 1)
termination_by tokens.length - i
decreasing_by
  have := (List.getElem?_eq_some_iff.mp _inside).1
  omega

/-- The index to go on at after a fault at `i`; none if an index outside is looked at. -/
def synchronize? (tokens : List Token) (i : Nat) : Option Nat :=
  advance? tokens i >>= boundary? tokens

section

variable {tokens front : List Token} {last : Token} {i : Nat}

theorem boundary?_eq (h : Divided tokens front last) {previous : Token}
    (behind : tokens[i - 1]? = some previous) (le : i ≤ front.length) :
    ∃ j, boundary? tokens i = some j ∧ i ≤ j ∧ j ≤ front.length ∧
      front.drop j = resumeAfter previous (front.drop i) := by
  -- By induction on the number of tokens in front of the end.
  generalize left : front.length - i = m
  induction m generalizing i previous with
  | zero =>
    have here : i = front.length := by omega
    refine ⟨i, ?_, Nat.le_refl i, le, ?_⟩
    · have looked := h.at le
      rw [boundary?]
      split
      · simp_all
      · rename_i t inside
        rw [looked] at inside
        cases inside
        rw [h.isEof_at le, if_pos (decide_eq_true here)]
    · rw [here, List.drop_length]
      rfl
  | succ m ih =>
    have lt : i < front.length := by omega
    have looked := h.at le
    have notEnd := h.isEof_at le
    rw [decide_eq_false (Nat.ne_of_lt lt)] at notEnd
    rw [List.drop_eq_getElem_cons lt, List.headD_cons] at looked notEnd
    have step : boundary? tokens i =
        if previous.isSymbol .semicolon || startsStatement front[i] then some i
        else boundary? tokens (i + 1) := by
      rw [boundary?]
      split
      · simp_all
      · rename_i t inside
        rw [looked] at inside
        cases inside
        rw [notEnd, behind]
        rfl
    rw [step, List.drop_eq_getElem_cons lt, resumeAfter]
    split
    · exact ⟨i, rfl, Nat.le_refl i, le, List.drop_eq_getElem_cons lt⟩
    · obtain ⟨j, found, after, inside, same⟩ := ih (i := i + 1) looked lt (by omega)
      exact ⟨j, found, by omega, inside, same⟩

/-- After a fault no index outside is looked at, and reading goes on where the walk stops: at a later index,
unless the fault is at the end. -/
theorem synchronize?_eq (h : Divided tokens front last) (le : i ≤ front.length) :
    ∃ j, synchronize? tokens i = some j ∧ i ≤ j ∧ j ≤ front.length ∧ (i < front.length → i < j) ∧
      front.drop j = resume (front.drop i) := by
  have looked := h.at le
  have atEnd := h.isEof_at le
  rw [synchronize?, advance?, looked]
  dsimp only [Option.map_some, bind, Option.bind_some]
  rw [atEnd]
  rcases Nat.lt_or_eq_of_le le with lt | rfl
  · rw [decide_eq_false (Nat.ne_of_lt lt), if_neg (by decide)]
    rw [List.drop_eq_getElem_cons lt, List.headD_cons] at looked
    obtain ⟨j, found, after, inside, same⟩ := boundary?_eq (i := i + 1) h looked lt
    refine ⟨j, found, by omega, inside, fun _ => by omega, ?_⟩
    rw [same, List.drop_eq_getElem_cons lt]
    rfl
  · rw [decide_eq_true rfl, if_pos rfl]
    have previous : ∃ t, tokens[front.length - 1]? = some t :=
      ⟨_, h.at (Nat.sub_le _ _)⟩
    obtain ⟨t, behind⟩ := previous
    obtain ⟨j, found, after, inside, same⟩ := boundary?_eq h behind le
    refine ⟨j, found, after, inside, fun lt => absurd lt (Nat.lt_irrefl _), ?_⟩
    rw [same, List.drop_length]
    rfl

end

end Token

namespace Parse

variable {α : Type} {rule rule' : Parse α} {front : List Token}

/-- From an index of the tokens the rule moves to a later one, and not behind their end. -/
def Forward (front : List Token) (rule : Parse α) : Prop :=
  ∀ i errors d, i ≤ front.length → (rule ⟨front.drop i, errors⟩).cursor? = some d →
    ∃ j, i ≤ j ∧ j ≤ front.length ∧ d.rest = front.drop j

theorem Advances.forward (h : Advances rule) : Forward front rule := by
  intro i errors d le ended
  obtain ⟨passed, whole⟩ := h _ d ended
  dsimp only at whole
  have length := congrArg List.length whole
  simp only [List.length_append, List.length_drop] at length
  refine ⟨i + passed.length, Nat.le_add_right _ _, by omega, ?_⟩
  rw [← List.drop_drop, ← whole, List.drop_left]

/-- With a depth that suffices a rule does not run out of it. -/
theorem Settles.ends {k : Nat} {a : List Token} {Q : List Token → α → Prop} (h : Settles rule a k Q)
    (errors : List SyntaxError) : rule ⟨a, errors⟩ ≠ .starved := by
  intro out
  have settled := h errors
  rwa [out] at settled

/-- A reading that ends is the same at every greater depth. -/
theorem Local.deeper (h : Local [] rule rule') {c : Cursor} (ends : rule c ≠ .starved) :
    rule' c = rule c := by
  have same := (h c [] fun _ _ => .inr rfl).resolve_left ends
  simpa using same

end Parse

namespace Grammar

variable {last : Token} {a ts : List Token} {t : Token} {n : Nat} {inBlock : Bool} {c d : Cursor}

theorem declaration_never_fails (last : Token) (n : Nat) (c : Cursor) {e : SyntaxError} :
    declaration last n c ≠ .fail e d := by
  cases n with
  | zero => nofun
  | succ n =>
    rw [declaration_eq]
    unfold resuming
    cases declarationRule last n c <;> nofun

/-- A declaration takes at least one token, also where it is given up. -/
theorem declaration_consumes {errors : List SyntaxError} {o : Option Stmt}
    (made : declaration last n ⟨t :: ts, errors⟩ = .ok o d) : d.rest <:+ ts := by
  cases n with
  | zero => cases made
  | succ n =>
    have forward := (advances last n).declarationRule ⟨t :: ts, errors⟩
    rw [declaration_eq] at made
    unfold resuming at made
    cases ruled : declarationRule last n ⟨t :: ts, errors⟩ with
    | starved =>
      rw [ruled] at made
      cases made
    | fail e f =>
      rw [ruled] at made forward
      cases made
      have left : f.rest.tail <:+ ts := by
        rcases List.suffix_cons_iff.mp (forward f rfl) with whole | inside
        · rw [whole]
          exact List.suffix_refl _
        · exact (List.tail_suffix _).trans inside
      exact (resume_suffix_tail f.rest).trans left
    | ok s f =>
      rw [ruled] at made forward
      cases made
      -- At a depth that suffices it takes a token, and there it reads the same.
      have settled := (settles last (max n (32 * (t :: ts).length + 20))).declarationRule (t :: ts)
        (Nat.le_max_right _ _) errors
      have local' := (locality [] last (Nat.le_max_left n (32 * (t :: ts).length + 20))).declarationRule
      have ends : declarationRule last n ⟨t :: ts, errors⟩ ≠ .starved := by rw [ruled]; nofun
      rw [local'.2.deeper ends, ruled] at settled
      refine (List.suffix_cons_iff.mp (forward d rfl)).resolve_left fun whole => ?_
      have := settled.1
      rw [whole] at this
      omega

/-- The declarations of a block or a program never fail, and are read up to what closes them. -/
theorem declarations_end (last : Token) (inBlock : Bool) : ∀ (n : Nat) (c : Cursor),
    declarations last n inBlock c = .starved ∨
      ∃ ss d, declarations last n inBlock c = .ok ss d ∧
        (d.rest = [] ∨ inBlock = true ∧ ∃ t ts, d.rest = t :: ts ∧ t.isSymbol .rightBrace = true)
  | 0, _ => .inl rfl
  | n + 1, c => by
    unfold declarations
    rw [bind_apply, looks_over inBlock c]
    dsimp only
    split
    · rename_i ended
      refine .inr ⟨[], c, rfl, ?_⟩
      obtain ⟨_ | ⟨t, ts⟩, errors⟩ := c
      · exact .inl rfl
      · obtain ⟨inside, closes⟩ := Bool.and_eq_true_iff.mp ended
        exact .inr ⟨inside, t, ts, rfl, closes⟩
    · rw [bind_apply]
      cases first : declaration last n c with
      | starved => exact .inl rfl
      | fail e d => exact absurd first (declaration_never_fails last n c)
      | ok o d =>
        dsimp only
        rw [bind_apply]
        rcases declarations_end last inBlock n d with out | ⟨ss, f, made, closed⟩
        · rw [out]
          exact .inl rfl
        · rw [made]
          exact .inr ⟨_, f, rfl, closed⟩

/-- A program is read to its end. -/
theorem declarations_program (last : Token) (front : List Token) :
    ∃ program errors, declarations last (depthFor front) false ⟨front, []⟩ =
        .ok program ⟨[], errors⟩ ∧
      ∀ tokens, Token.untilEof tokens = (front, last) → Stmt.programOfTokens tokens =
        if errors.isEmpty then .ok program else .error errors := by
  have settled := ((settles last _).declarations false front (declarations_depth front)).ends []
  obtain ⟨program, ⟨rest, errors⟩, made, closed⟩ :=
    (declarations_end last false (depthFor front) ⟨front, []⟩).resolve_left settled
  obtain rfl : rest = [] := by simpa using closed
  refine ⟨program, errors, made, fun tokens divided => ?_⟩
  unfold Stmt.programOfTokens
  rw [divided]
  dsimp only
  rw [made]

/-- Tokens that end with an end token are read to an end, as programs and as expressions, and the depth that
reading is given is of no account where it suffices. No token outside is looked at, no rule goes back or
behind the first end token, and each declaration read in front of it takes a token, so that the
declarations of blocks and the members of classes come to an end too. -/
theorem reading_total {eof : Token} (ends : eof.isEof = true) (before : List Token) :
    let tokens := before ++ [eof]
    let front := (Token.untilEof tokens).1
    let last := (Token.untilEof tokens).2
    Token.Divided tokens front last ∧
    (∃ program errors, (∀ n, depthFor front ≤ n →
        declarations last n false ⟨front, []⟩ = .ok program ⟨[], errors⟩) ∧
      Stmt.programOfTokens tokens = if errors.isEmpty then .ok program else .error errors) ∧
    (∃ reply, reply ≠ .starved ∧ (∀ n, depthFor front ≤ n →
        expression last n ⟨front, []⟩ = reply) ∧
      Expr.ofTokens tokens ≠ .error []) ∧
    (∀ n, Every (fun rule _ => Forward front rule) last n n) ∧
    (∀ i ≤ front.length, tokens[i]? = some ((front.drop i).headD last) ∧
      ((front.drop i).headD last).isEof = decide (i = front.length) ∧
      ∃ j, Token.synchronize? tokens i = some j ∧ i ≤ j ∧ j ≤ front.length ∧
        (i < front.length → i < j) ∧ front.drop j = resume (front.drop i)) ∧
    (∀ i < front.length, ∀ n errors,
      (depthFor (front.drop i) ≤ n → declaration last n ⟨front.drop i, errors⟩ ≠ .starved) ∧
      ∀ reply, declaration last n ⟨front.drop i, errors⟩ = reply → reply = .starved ∨
        ∃ o j noted, reply = .ok o ⟨front.drop j, noted⟩ ∧ i < j ∧ j ≤ front.length) ∧
    ∀ i ≤ front.length, ∀ n errors, depthFor (front.drop i) ≤ n →
      (∃ body d, declarations last n true ⟨front.drop i, errors⟩ = .ok body d) ∧
      block last n ⟨front.drop i, errors⟩ ≠ .starved ∧
      members last n ⟨front.drop i, errors⟩ ≠ .starved := by
  intro tokens front last
  have divided : Token.Divided tokens front last := Token.divided_untilEof ends before
  refine ⟨divided, ?_, ?_, fun n => ?_, fun i le => ⟨divided.at le, divided.isEof_at le,
    Token.synchronize?_eq divided le⟩, fun i lt n errors => ⟨fun deep => ?_, ?_⟩,
    fun i le n errors deep => ⟨?_, ?_, ?_⟩⟩
  · obtain ⟨program, errors, made, whole⟩ := declarations_program last front
    refine ⟨program, errors, fun n deep => ?_, ?_⟩
    · have settled : declarations last (depthFor front) false ⟨front, []⟩ ≠ .starved := by
        rw [made]
        nofun
      exact ((locality [] last deep).declarations false).2.deeper settled |>.trans made
    · exact whole tokens rfl
  -- That an expression is read in a depth that suffices comes from the number of tokens alone.
  · have settled := ((settles last (depthFor front)).expression front (by
      simp only [depthFor, depthPerToken]; omega)).ends []
    exact ⟨_, settled, fun n deep => (locality [] last deep).expression.2.deeper settled,
      fun none => Expr.ofTokens_fault none rfl⟩
  · exact (advances last n).imp Advances.forward
  · have whole : front.drop i = front[i] :: front.drop (i + 1) := List.drop_eq_getElem_cons lt
    rw [whole] at deep ⊢
    refine ((settles last n).declaration _ _ ?_).ends errors
    simp only [depthFor, depthPerToken] at deep
    omega
  · rintro reply made
    cases reply with
    | starved => exact .inl rfl
    | fail e d => exact absurd made (declaration_never_fails last n _)
    | ok o d =>
      rw [List.drop_eq_getElem_cons lt] at made
      -- What was passed is counted off the tokens: the first one and those behind it.
      obtain ⟨passed, whole⟩ := declaration_consumes made
      have length := congrArg List.length whole
      simp only [List.length_append, List.length_drop] at length
      refine .inr ⟨o, i + 1 + passed.length, d.errors, ?_, by omega, by omega⟩
      rw [← List.drop_drop, ← whole, List.drop_left]
  · have settled := ((settles last n).declarations true (front.drop i) (by
      simp only [depthFor, depthPerToken] at deep; omega)).ends errors
    obtain ⟨body, d, made, _⟩ := (declarations_end last true n _).resolve_left settled
    exact ⟨body, d, made⟩
  · refine ((settles last n).block (front.drop i) ?_).ends errors
    simp only [depthFor, depthPerToken] at deep
    omega
  · refine ((settles last n).members (front.drop i) ?_).ends errors
    simp only [depthFor, depthPerToken] at deep
    omega

/-- A lone `)` is given up: reading goes on at the end token behind it, and notes the one fault. -/
theorem reading_total_paren :
    let paren : Token := ⟨.symbol .rightParen, ")", 1⟩
    (Token.eof 1).isEof = true ∧
      (∃ j, Token.synchronize? [paren, .eof 1] 0 = some j ∧ 0 < j ∧ j ≤ 1) ∧
      Stmt.programOfTokens [paren, .eof 1] = .error [⟨.expression, paren⟩] := by
  intro paren
  have ends : (Token.eof 1).isEof = true := by decide
  obtain ⟨_, _, _, _, looked, _⟩ := reading_total ends [paren]
  obtain ⟨_, _, j, found, _, inside, later, _⟩ := looked 0 (Nat.zero_le _)
  exact ⟨ends, ⟨j, found, later Nat.one_pos, inside⟩, rfl⟩

end Grammar

end LoxLang
