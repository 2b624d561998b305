import LoxLang.Proofs.Syntax.Fatal
import LoxLang.Proofs.Syntax.Recovery
/-!
What becomes of the tokens at which a declaration is given up. The token of the fault is always skipped, even
if it begins a statement; so reading does not go on in front of that statement, but at the next boundary
behind its first word.

What is proved:
1. the faults that are noted behind a declaration that is given up are those of the tokens behind the
   boundary, read by themselves (`Grammar.GivesUp.reports`);
2. the boundary behind the first word of a simple statement is the end of it (`Single.resume_past`);
3. so where the token of the fault begins a simple statement, the faults of just that statement are missing
   (`Stmt.errors_behind_offender`).
-/
namespace LoxLang

open Grammar Parse

/-! Boundaries -/

section

variable {a b : List Token} {t : Token}

theorem Grammar.resumeAfter_semicolon (ends : t.isSymbol .semicolon = true) (b : List Token) :
    resumeAfter t b = b := by
  cases b <;> simp [resumeAfter, ends]

/-- What is skipped of a simple statement in which no other one begins is all of it. -/
theorem Single.resume_past (h : Single a) (plain : ∀ s ∈ a.tail, startsStatement s = false)
    (b : List Token) : resume (a ++ b) = b := by
  induction h with
  | semicolon ends => exact resumeAfter_semicolon ends b
  | @more t ts within _ _ rest ih =>
    obtain ⟨s, ss, rfl⟩ := List.exists_cons_of_ne_nil rest.ne_nil
    have next : startsStatement s = false := plain s List.mem_cons_self
    have later := ih fun r mem => plain r (List.mem_cons_of_mem s mem)
    show resumeAfter t (s :: (ss ++ b)) = b
    rw [resumeAfter, within, next]
    exact later

end

namespace Grammar

/-! Declarations up to one that is given up -/

variable {last : Token} {c d f : Cursor} {e : SyntaxError} {n k : Nat}

/-- From the cursor declarations are read one after the other, until one is given up with this fault and
the other cursor at the token of the fault. -/
inductive GivesUp (last : Token) : Cursor → SyntaxError → Cursor → Prop where
  | here {n : Nat} {c d : Cursor} {e : SyntaxError} (failed : declarationRule last n c = .fail e d) :
    GivesUp last c e d
  | later {n : Nat} {c d f : Cursor} {s : Stmt} {e : SyntaxError}
    (made : declarationRule last n c = .ok s d) (others : GivesUp last d e f) : GivesUp last c e f

/-- The declarations of a program from the cursor on are read to the end, and these faults are noted. -/
def Reports (last : Token) (c : Cursor) (errors : List SyntaxError) : Prop :=
  ∃ n program, declarations last n false c = .ok program ⟨[], errors⟩

theorem reports_program (last : Token) (front : List Token) :
    ∃ errors, Reports last ⟨front, []⟩ errors ∧ ∀ tokens, Token.untilEof tokens = (front, last) →
      Stmt.syntaxErrors tokens = errors := by
  obtain ⟨program, errors, made, whole⟩ := declarations_program last front
  refine ⟨errors, ⟨_, program, made⟩, fun tokens divided => ?_⟩
  rw [Stmt.syntaxErrors, whole tokens divided]
  cases errors <;> rfl

theorem Reports.unique {es fs : List SyntaxError} (h : Reports last c es) (h' : Reports last c fs) :
    es = fs := by
  obtain ⟨n, p, made⟩ := h
  obtain ⟨k, q, again⟩ := h'
  -- Each reading is repeated at the greater of the two depths, where they are one.
  have left := (locality [] last (Nat.le_max_left n k)).declarations false
  have right := (locality [] last (Nat.le_max_right n k)).declarations false
  have same := (left.2.deeper (by rw [made]; rintro ⟨⟩)).symm.trans
    (right.2.deeper (by rw [again]; rintro ⟨⟩))
  rw [made, again] at same
  cases same
  rfl

theorem Reports.behind {rest : List Token} {errors : List SyntaxError} (h : Reports last ⟨rest, []⟩ errors)
    (before : List SyntaxError) : Reports last ⟨rest, before⟩ (before ++ errors) := by
  obtain ⟨n, program, made⟩ := h
  have same := ((locality [] last (Nat.le_refl n)).declarations false).2 ⟨rest, []⟩ before
    fun _ _ => .inr rfl
  rw [made] at same
  refine ⟨n, program, ?_⟩
  rcases same with out | same
  · cases out
  · simpa [Reply.within] using same

/-- A declaration is read in front of the others, given up or not. -/
theorem Reports.step {o : Option Stmt} {errors : List SyntaxError} (some_ : c.rest ≠ [])
    (first : declaration last n c = .ok o d) (others : Reports last d errors) : Reports last c errors := by
  obtain ⟨k, program, made⟩ := others
  obtain ⟨⟨⟩ | ⟨t, ts⟩, noted⟩ := c
  · exact absurd rfl some_
  have left := (locality [] last (Nat.le_max_left n k)).declaration
  have right := (locality [] last (Nat.le_max_right n k)).declarations false
  have first' := (left.2.deeper (by rw [first]; rintro ⟨⟩)).trans first
  have made' := (right.2.deeper (by rw [made]; rintro ⟨⟩)).trans made
  refine ⟨max n k + 1, o.toList ++ program, ?_⟩
  have ahead : declarations last (max n k + 1) false ⟨t :: ts, noted⟩ =
      (declaration last (max n k) >>= fun first => declarations last (max n k) false >>= fun others =>
        pure (first.toList ++ others)) ⟨t :: ts, noted⟩ := by
    rw [declarations]
    rfl
  rw [ahead, bind_apply, first']
  dsimp only
  rw [bind_apply, made']
  rfl

/-- Where a declaration is given up there are tokens in front of the end. -/
theorem GivesUp.rest_ne_nil (h : GivesUp last c e d) (some_ : d.rest ≠ []) : c.rest ≠ [] := by
  induction h with
  | @here n c d e failed =>
    intro none
    have within := (advances last n).declarationRule c d (by rw [failed]; rfl)
    rw [none, List.suffix_nil] at within
    exact some_ within
  | @later n c d f s e made others ih =>
    exact (shuts (b := []) (fun _ h => by cases h) last n n (Nat.le_refl n)).declarationRule.reads c s d made

/-- Behind a declaration that is given up, the faults are those of the tokens from the boundary on. -/
theorem GivesUp.reports (h : GivesUp last c e d) (some_ : d.rest ≠ []) {errors : List SyntaxError}
    (others : Reports last ⟨resume d.rest, []⟩ errors) : Reports last c (d.errors ++ e :: errors) := by
  induction h with
  | @here n c d e failed =>
    have first : declaration last (n + 1) c = .ok none ⟨resume d.rest, d.errors ++ [e]⟩ := by
      rw [declaration_eq, resuming, failed]
    have whole := others.behind (d.errors ++ [e])
    rw [List.append_assoc] at whole
    exact whole.step ((GivesUp.here failed).rest_ne_nil some_) first
  | @later n c d f s e made later ih =>
    have first : declaration last (n + 1) c = .ok (some s) d := by
      rw [declaration_eq, resuming, made]
    exact (ih some_ others).step ((GivesUp.later made later).rest_ne_nil some_) first

end Grammar

namespace Stmt

/-- Where the declarations in front of `t` are read until one is given up at `t`, the faults that are
reported after that are those of the tokens from the next boundary behind `t` on, whether `t` begins a
statement or not. So if it begins a simple statement, all faults behind that statement are reported and
none of the statement. -/
theorem errors_behind_offender {a b : List Token} {t last : Token} {e : SyntaxError}
    {noted : List SyntaxError} (ends : last.isEof = true) (inner : ∀ s ∈ a ++ t :: b, s.isEof = false)
    (gives : GivesUp last ⟨a ++ t :: b, []⟩ e ⟨t :: b, noted⟩) :
    syntaxErrors (a ++ t :: b ++ [last]) = noted ++ e :: syntaxErrors (resumeAfter t b ++ [last]) ∧
    ∀ s others, t :: b = s ++ others → Simple s → (∀ x ∈ s.tail, startsStatement x = false) →
      Stops (Token.isKeyword .else) others →
      syntaxErrors (a ++ t :: b ++ [last]) = noted ++ e :: syntaxErrors (others ++ [last]) ∧
      syntaxErrors (t :: b ++ [last]) = syntaxErrors (s ++ [last]) ++ syntaxErrors (others ++ [last]) := by
  have innerRest : ∀ s ∈ t :: b, s.isEof = false := fun s mem => inner s (List.mem_append_right a mem)
  have innerResumed : ∀ s ∈ resumeAfter t b, s.isEof = false := fun s mem =>
    innerRest s (List.mem_cons_of_mem t ((resumeAfter_suffix t b).subset mem))
  obtain ⟨all, whole, reported⟩ := reports_program last (a ++ t :: b)
  obtain ⟨errors, resumed, reported'⟩ := reports_program last (resumeAfter t b)
  have skipped : syntaxErrors (a ++ t :: b ++ [last]) =
      noted ++ e :: syntaxErrors (resumeAfter t b ++ [last]) := by
    rw [reported _ (Token.untilEof_append inner ends),
      reported' _ (Token.untilEof_append innerResumed ends)]
    exact whole.unique (gives.reports (List.cons_ne_nil t b) resumed)
  refine ⟨skipped, fun s others divided simple plain stops => ?_⟩
  -- `t` is skipped as the first word of the statement, and nothing in it is a boundary before its end.
  have past : resumeAfter t b = others := by
    show resume (t :: b) = others
    rw [divided]
    exact simple.single.resume_past plain others
  have innerOthers : ∀ x ∈ others, x.isEof = false := fun x mem =>
    innerRest x (divided ▸ List.mem_append_right s mem)
  refine ⟨by rw [skipped, past], ?_⟩
  rw [divided]
  exact simple.syntaxErrors_append ends innerOthers stops

/-- In `x print ; ) ;` the fault of `print ;` is not reported, and that of `) ;` is. -/
theorem errors_behind_offender_print :
    let x : Token := ⟨.identifier, "x", 1⟩
    let print : Token := ⟨.keyword .print, "print", 1⟩
    let semicolon : Token := ⟨.symbol .semicolon, ";", 1⟩
    let paren : Token := ⟨.symbol .rightParen, ")", 1⟩
    (Token.eof 1).isEof = true ∧ (∀ t ∈ [x] ++ print :: [semicolon, paren, semicolon], t.isEof = false) ∧
      GivesUp (.eof 1) ⟨[x] ++ print :: [semicolon, paren, semicolon], []⟩ ⟨.expressionEnd, print⟩
        ⟨print :: [semicolon, paren, semicolon], []⟩ ∧
      syntaxErrors ([x] ++ print :: [semicolon, paren, semicolon] ++ [.eof 1]) =
        [⟨.expressionEnd, print⟩, ⟨.expression, paren⟩] ∧
      syntaxErrors (print :: [semicolon, paren, semicolon] ++ [.eof 1]) =
        [⟨.expression, semicolon⟩, ⟨.expression, paren⟩] := by
  intro x print semicolon paren
  have ends : (Token.eof 1).isEof = true := by decide
  have inner : ∀ t ∈ [x] ++ print :: [semicolon, paren, semicolon], t.isEof = false := by decide
  have gives : GivesUp (.eof 1) ⟨[x] ++ print :: [semicolon, paren, semicolon], []⟩
      ⟨.expressionEnd, print⟩ ⟨print :: [semicolon, paren, semicolon], []⟩ := .here (n := 40) rfl
  have simple : Simple [print, semicolon] := ⟨by decide, [print], semicolon, rfl, by decide, by decide⟩
  obtain ⟨left, apart⟩ := (errors_behind_offender ends inner gives).2 [print, semicolon]
    [paren, semicolon] rfl simple (by decide) (stops_cons.mpr rfl)
  exact ⟨ends, inner, gives, left.trans rfl, apart.trans rfl⟩

/-- In `x print ;` the declaration is given up at `print`, which begins a statement; but the fault of
`print ;` is not reported behind the one there is. -/
theorem statement_at_offender_lost :
    let x : Token := ⟨.identifier, "x", 1⟩
    let print : Token := ⟨.keyword .print, "print", 1⟩
    let semicolon : Token := ⟨.symbol .semicolon, ";", 1⟩
    startsStatement print = true ∧
      GivesUp (.eof 1) ⟨[x] ++ [print, semicolon], []⟩ ⟨.expressionEnd, print⟩ ⟨[print, semicolon], []⟩ ∧
      syntaxErrors ([x] ++ [print, semicolon] ++ [.eof 1]) = [⟨.expressionEnd, print⟩] ∧
      syntaxErrors ([print, semicolon] ++ [.eof 1]) = [⟨.expression, semicolon⟩] ∧
      syntaxErrors ([x] ++ [print, semicolon] ++ [.eof 1]) ≠
        [] ++ ⟨.expressionEnd, print⟩ :: syntaxErrors ([print, semicolon] ++ [.eof 1]) := by
  intro x print semicolon
  exact ⟨rfl, .here (n := 40) rfl, rfl, rfl, by decide⟩

end Stmt

end LoxLang
