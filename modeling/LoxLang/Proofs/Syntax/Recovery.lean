import LoxLang.Proofs.Syntax.Semicolons
import LoxLang.Proofs.Syntax.Totality
/-!
Faults stay in their statement. Tokens that end with their only semicolon and open no braces are read apart
from what follows them, however faulty they are: the faults are those of the tokens alone, and reading goes
on exactly behind the semicolon.

What is proved:
1. a rule that ends a statement looks behind it only for an `else` (`Parse.Shuts`, `Grammar.shuts`);
2. so a declaration read from such tokens is the same with others behind them
   (`Grammar.declaration_apart`), and so are all of them (`Grammar.declarations_apart`);
3. the faults of a sequence of such statements are those of each of them (`Stmt.simple_statements_apart`).
-/
namespace LoxLang

open Grammar Parse

namespace Parse

variable {α β : Type} {rule rule' : Parse α} {cont cont' : α → Parse β} {b : List Token}
  {last : Token} {p : Token → Bool} {fault : SyntaxFault}

/-- What `rule` makes, `rule'` makes with `b` behind the tokens, even if it leaves no token unread. -/
def Closed (b : List Token) (rule rule' : Parse α) : Prop :=
  ∀ c before, (∀ e d, rule c = .fail e d → d.rest ≠ [] ∨ b = []) →
    rule c = .starved ∨ rule' ⟨c.rest ++ b, before ++ c.errors⟩ = (rule c).within b before

/-- What the rule makes, it makes of some token. -/
def Reads (rule : Parse α) : Prop := ∀ c x d, rule c = .ok x d → c.rest ≠ []

/-- The rule ends a statement: it goes forward, makes something of tokens only, and that is not changed by
what stands behind. -/
structure Shuts (b : List Token) (rule rule' : Parse α) : Prop where
  forward : Advances rule
  reads : Reads rule
  closed : Closed b rule rule'

theorem Shuts.starved : Shuts b (starved : Parse α) rule' where
  forward := by rintro c d ⟨⟩
  reads := nofun
  closed _ _ _ := .inl rfl

theorem Closed.pure {x : α} : Closed b (pure x) (pure x) := fun _ _ _ => .inr rfl

theorem Closed.bind (h : Closed b rule rule') (h' : ∀ x, Closed b (cont x) (cont' x)) :
    Closed b (rule >>= cont) (rule' >>= cont') := by
  intro c before left
  have first := h c before
  rw [bind_apply] at left ⊢
  rw [bind_apply]
  cases made : rule c with
  | starved => exact .inl rfl
  | fail e d =>
    rw [made] at first left
    rw [(first (by rintro _ _ ⟨⟩; exact left e d rfl)).resolve_left nofun]
    exact .inr rfl
  | ok x d =>
    rw [made] at first left
    rw [(first (by rintro _ _ ⟨⟩)).resolve_left nofun]
    exact h' x d before left

/-- An `else` that is not there is not accepted, not even at the end. -/
theorem Closed.accept (stops : Stops p b) :
    Closed b (accept p) (accept p) := by
  rintro ⟨a, errors⟩ before _
  refine .inr ?_
  cases a with
  | cons t ts =>
    simp only [Parse.accept, List.cons_append]
    cases p t <;> rfl
  | nil =>
    cases b with
    | nil => rfl
    | cons s ss =>
      simp [Parse.accept, Reply.within, stops s rfl]

theorem Shuts.expect : Shuts b (expect last p fault) (expect last p fault) where
  forward := Advances.compositional.expect
  reads := by
    rintro ⟨_ | ⟨t, ts⟩, errors⟩ x d made
    · cases made
    · exact List.cons_ne_nil t ts
  closed := by
    rintro ⟨a, errors⟩ before left
    refine .inr ?_
    cases a with
    | cons t ts =>
      simp only [Parse.expect, List.cons_append]
      cases p t <;> rfl
    | nil =>
      obtain rfl := (left _ _ rfl).resolve_left fun unread => unread rfl
      rfl

theorem Shuts.after (h : Advances rule ∧ Local b rule rule')
    (h' : ∀ x, Shuts b (cont x) (cont' x)) : Shuts b (rule >>= cont) (rule' >>= cont') where
  forward := h.1.bind fun x => (h' x).forward
  reads := by
    intro c y f made
    rw [bind_apply] at made
    cases first : rule c with
    | ok x d =>
      rw [first] at made
      intro none
      have within := h.1 c d (by rw [first]; rfl)
      rw [none, List.suffix_nil] at within
      exact (h' x).reads d y f made within
    | fail e d =>
      rw [first] at made
      cases made
    | starved =>
      rw [first] at made
      cases made
  closed := by
    intro c before left
    have first := h.2 c before
    rw [bind_apply] at left ⊢
    rw [bind_apply]
    cases made : rule c with
    | starved => exact .inl rfl
    | fail e d =>
      rw [made] at first left
      rw [(first (by rintro _ ⟨⟩; exact left e _ rfl)).resolve_left nofun]
      exact .inr rfl
    | ok x d =>
      rw [made] at first left
      dsimp only at left ⊢
      -- What comes next reads a token, or fails in front of one.
      have unread : cont x d = .starved ∨ d.rest ≠ [] ∨ b = [] := by
        cases second : cont x d with
        | starved => exact .inl rfl
        | ok y f => exact .inr (.inl ((h' x).reads d y f second))
        | fail e f =>
          refine .inr ((left e f second).imp_left fun some none => some ?_)
          have within := (h' x).forward d f (by rw [second]; rfl)
          rwa [none, List.suffix_nil] at within
      rcases unread with out | unread
      · exact .inl out
      rw [(first (by rintro _ ⟨⟩; exact unread)).resolve_left nofun]
      exact (h' x).closed d before left

theorem Shuts.before (h : Shuts b rule rule') (forward : ∀ x, Advances (cont x))
    (h' : ∀ x, Closed b (cont x) (cont' x)) : Shuts b (rule >>= cont) (rule' >>= cont') where
  forward := h.forward.bind forward
  reads := by
    intro c y f made
    rw [bind_apply] at made
    cases first : rule c with
    | ok x d => exact h.reads c x d first
    | fail e d =>
      rw [first] at made
      cases made
    | starved =>
      rw [first] at made
      cases made
  closed := h.closed.bind h'

theorem Shuts.map (h : Shuts b rule rule') {f : α → β} :
    Shuts b (rule >>= fun x => Pure.pure (f x)) (rule' >>= fun x => Pure.pure (f x)) :=
  h.before (fun x => Advances.compositional.pure (f x)) fun _ => .pure

end Parse

namespace Grammar

section

variable (b : List Token) (last : Token)

/-- The rules that end a statement do so at one depth as they do at the other. -/
structure Shuts (n k : Nat) : Prop where
  declarationRule : Parse.Shuts b (declarationRule last n) (declarationRule last k)
  classRule : Parse.Shuts b (classRule last n) (classRule last k)
  function (callee : Callee) : Parse.Shuts b (function last n callee) (function last k callee)
  varRule : Parse.Shuts b (varRule last n) (varRule last k)
  statement : Parse.Shuts b (statement last n) (statement last k)
  forRule : Parse.Shuts b (forRule last n) (forRule last k)
  ifRule : Parse.Shuts b (ifRule last n) (ifRule last k)
  returnRule (keyword : Token) :
    Parse.Shuts b (returnRule last n keyword) (returnRule last k keyword)
  whileRule : Parse.Shuts b (whileRule last n) (whileRule last k)
  expressionRule : Parse.Shuts b (expressionRule last n) (expressionRule last k)
  block : Parse.Shuts b (block last n) (block last k)

theorem Shuts.zero (k : Nat) : Shuts b last 0 k := by
  constructor <;> intros <;> exact .starved

/-- Rules at one depth and at another that is not smaller, with `b` behind the tokens for the second. -/
abbrev Apart (n k : Nat) : Prop :=
  Every (fun rule rule' => Advances rule ∧ Parse.Local b rule rule') last n k

variable {b last} {n k : Nat}

theorem apart_optional (e : Apart b last n k) {p : Token → Bool} {α : Type}
    {cont cont' : Option Expr → Parse α} (h' : ∀ o, Parse.Shuts b (cont o) (cont' o)) :
    Parse.Shuts b (optional last n p cont) (optional last k p cont') := by
  have good := Parse.Local.compositional b
  refine .after good.next fun missing => ?_
  dsimp only
  split
  · exact .after (good.pure none) h'
  · exact .after e.expression fun _ => .after (good.pure _) h'

theorem declarationRule_shuts (h : Shuts b last n k) :
    Parse.Shuts b (declarationRule last (n + 1)) (declarationRule last (k + 1)) := by
  have good := Parse.Local.compositional b
  unfold declarationRule
  refine .after good.accept fun isClass => ?_
  split
  · exact h.classRule
  refine .after good.accept fun isFunction => ?_
  split
  · exact (h.function _).map
  refine .after good.accept fun isVariable => ?_
  split
  · exact h.varRule
  · exact h.statement

theorem classRule_shuts (e : Apart b last n k) :
    Parse.Shuts b (classRule last (n + 1)) (classRule last (k + 1)) :=
  have good := Parse.Local.compositional b
  .after good.expect fun _ => .after good.expect fun _ => .after e.members fun _ => Shuts.expect.map

theorem function_shuts (e : Apart b last n k) (h : Shuts b last n k) (callee : Callee) :
    Parse.Shuts b (function last (n + 1) callee) (function last (k + 1) callee) :=
  have good := Parse.Local.compositional b
  .after good.expect fun _ => .after good.expect fun _ => .after (params_every good e) fun _ =>
    .after good.expect fun _ => h.block.map

theorem varRule_shuts (e : Apart b last n k) :
    Parse.Shuts b (varRule last (n + 1)) (varRule last (k + 1)) := by
  unfold varRule
  refine .after e.declarators fun ⟨first, others⟩ => ?_
  cases others with
  | nil => exact Shuts.expect.map
  | cons => exact Shuts.expect.map

theorem statement_shuts (e : Apart b last n k) (h : Shuts b last n k) :
    Parse.Shuts b (statement last (n + 1)) (statement last (k + 1)) := by
  have good := Parse.Local.compositional b
  unfold statement
  refine .after good.accept fun isFor => ?_
  split
  · exact h.forRule
  refine .after good.accept fun isIf => ?_
  split
  · exact h.ifRule
  refine .after good.accept fun isPrint => ?_
  split
  · exact .after e.expression fun _ => Shuts.expect.map
  refine .after good.take fun isReturn => ?_
  split
  · exact h.returnRule _
  refine .after good.accept fun isWhile => ?_
  split
  · exact h.whileRule
  refine .after good.accept fun isBlock => ?_
  split
  · exact h.block.map
  · exact h.expressionRule

theorem forRule_shuts (e : Apart b last n k) (h : Shuts b last n k) :
    Parse.Shuts b (forRule last (n + 1)) (forRule last (k + 1)) :=
  have good := Parse.Local.compositional b
  .after good.expect fun _ => .after e.forInitial fun _ => apart_optional e fun _ =>
    .after good.expect fun _ => apart_optional e fun _ => .after good.expect fun _ => h.statement.map

theorem ifRule_shuts (stops : Stops (Token.isKeyword .else) b)
    (e : Apart b last n k) (h : Shuts b last n k) :
    Parse.Shuts b (ifRule last (n + 1)) (ifRule last (k + 1)) := by
  have good := Parse.Local.compositional b
  unfold ifRule
  refine .after good.expect fun _ => .after e.expression fun condition =>
    .after good.expect fun _ => h.statement.before (fun whenTrue => ?_) fun whenTrue => ?_
  · refine .bind (Advances.compositional.accept) fun otherwise => ?_
    split
    · exact h.statement.map.forward
    · exact Advances.compositional.pure _
  · refine .bind (.accept stops) fun otherwise => ?_
    split
    · exact h.statement.map.closed
    · exact .pure

theorem returnRule_shuts (e : Apart b last n k) (keyword : Token) :
    Parse.Shuts b (returnRule last (n + 1) keyword) (returnRule last (k + 1) keyword) :=
  apart_optional e fun _ => Shuts.expect.map

theorem whileRule_shuts (e : Apart b last n k) (h : Shuts b last n k) :
    Parse.Shuts b (whileRule last (n + 1)) (whileRule last (k + 1)) :=
  have good := Parse.Local.compositional b
  .after good.expect fun _ => .after e.expression fun _ => .after good.expect fun _ =>
    h.statement.map

theorem expressionRule_shuts (e : Apart b last n k) :
    Parse.Shuts b (expressionRule last (n + 1)) (expressionRule last (k + 1)) :=
  .after e.expression fun _ => Shuts.expect.map

theorem block_shuts (e : Apart b last n k) :
    Parse.Shuts b (block last (n + 1)) (block last (k + 1)) :=
  .after (e.declarations true) fun _ => Shuts.expect.map

/-- A statement is ended without a look at what is behind it, where that is no `else`. -/
theorem shuts (stops : Stops (Token.isKeyword .else) b) (last : Token) :
    ∀ n k, n ≤ k → Shuts b last n k
  | 0, k, _ => .zero b last k
  | n + 1, k + 1, le =>
    have le := Nat.le_of_succ_le_succ le
    have h := shuts stops last n k le
    have e := locality b last le
    { declarationRule := declarationRule_shuts h
      classRule := classRule_shuts e
      function := function_shuts e h
      varRule := varRule_shuts e
      statement := statement_shuts e h
      forRule := forRule_shuts e h
      ifRule := ifRule_shuts stops e h
      returnRule := returnRule_shuts e
      whileRule := whileRule_shuts e h
      expressionRule := expressionRule_shuts e
      block := block_shuts e }

/-! Declarations -/

variable {a : List Token} {errors : List SyntaxError} {o : Option Stmt} {d : Cursor}

/-- Readings of the declarations that end are the same, whatever their depths. -/
theorem declarations_same {inBlock : Bool} {c : Cursor} {before : List SyntaxError}
    (made : declarations last n inBlock c ≠ .starved)
    (again : declarations last k inBlock ⟨c.rest, before ++ c.errors⟩ ≠ .starved) :
    declarations last k inBlock ⟨c.rest, before ++ c.errors⟩ =
      (declarations last n inBlock c).within [] before := by
  have left := ((locality [] last (Nat.le_max_left n k)).declarations inBlock).2
  have right := ((locality [] last (Nat.le_max_right n k)).declarations inBlock).2
  have same := (left c before fun _ _ => .inr rfl).resolve_left made
  rw [List.append_nil] at same
  exact (right.deeper again).symm.trans same

/-- A declaration read from tokens with one semicolon is the same with others behind them. -/
theorem declaration_apart (stops : Stops (Token.isKeyword .else) b) (single : Single a)
    {before : List SyntaxError} (made : declaration last n ⟨a, errors⟩ = .ok o d)
    (again : declaration last k ⟨a ++ b, before ++ errors⟩ ≠ .starved) :
    declaration last k ⟨a ++ b, before ++ errors⟩ = .ok o ⟨d.rest ++ b, before ++ d.errors⟩ := by
  cases n with
  | zero => cases made
  | succ n =>
  have deeper := (locality [] last (Nat.le_max_right (n + 1) k)).declaration.2.deeper again
  obtain ⟨m, deep⟩ : ∃ m, max (n + 1) k = m + 1 := ⟨max (n + 1) k - 1, by omega⟩
  rw [← deeper, deep, declaration_eq]
  rw [declaration_eq] at made
  have rule := (shuts stops last n m (by omega)).declarationRule.closed ⟨a, errors⟩ before
  have breaks := (stays last n).declarationRule a errors
  unfold resuming at made ⊢
  cases ruled : declarationRule last n ⟨a, errors⟩ with
  | starved =>
    rw [ruled] at made
    cases made
  | ok s f =>
    rw [ruled] at made rule
    cases made
    rw [(rule (by rintro _ _ ⟨⟩)).resolve_left nofun]
    rfl
  | fail e f =>
    have inside := breaks e f single ruled
    rw [ruled] at made rule
    cases made
    rw [(rule (by rintro _ _ ⟨⟩; exact .inl inside.ne_nil)).resolve_left nofun]
    simp [Reply.within, inside.resume_append]

/-- The declarations of a program that begins with such tokens are theirs and those of the others. -/
theorem declarations_apart (stops : Stops (Token.isKeyword .else) b) {m : Nat} {ss' : List Stmt}
    {c' : Cursor} (others : declarations last m false ⟨b, []⟩ = .ok ss' c') :
    ∀ (n k : Nat) (a : List Token) (errors before : List SyntaxError) (ss : List Stmt) (c : Cursor),
      a = [] ∨ Single a → declarations last n false ⟨a, errors⟩ = .ok ss c →
      declarations last k false ⟨a ++ b, before ++ errors⟩ ≠ .starved →
      declarations last k false ⟨a ++ b, before ++ errors⟩ =
        .ok (ss ++ ss') ⟨c'.rest, before ++ c.errors ++ c'.errors⟩
  | 0, _, _, _, _, _, _, _, made, _ => by cases made
  | n + 1, 0, _, _, _, _, _, _, _, again => absurd rfl again
  | n + 1, k + 1, [], errors, before, ss, c, _, made, again => by
    cases made
    have second : declarations last m false ⟨b, []⟩ ≠ .starved := by
      intro starved
      rw [others] at starved
      cases starved
    have same := declarations_same second (by simpa using again)
    simpa [others, Reply.within] using same
  | n + 1, k + 1, t :: ts, errors, before, ss, c, single, made, again => by
    have single := single.resolve_left (List.cons_ne_nil t ts)
    -- The first declaration is read alike with the others behind it; from there on it is the same again.
    have ahead (m : Nat) (ts : List Token) (noted : List SyntaxError) :
        declarations last (m + 1) false ⟨t :: ts, noted⟩ =
          (declaration last m >>= fun first => declarations last m false >>= fun others =>
            pure (first.toList ++ others)) ⟨t :: ts, noted⟩ := by
      rw [declarations]
      rfl
    rw [List.cons_append] at again ⊢
    rw [ahead, bind_apply] at made again ⊢
    have forward := (advances last n).declaration ⟨t :: ts, errors⟩
    cases first : declaration last n ⟨t :: ts, errors⟩ with
    | starved =>
      rw [first] at made
      cases made
    | fail e d =>
      rw [first] at made
      cases made
    | ok o d =>
      rw [first] at made forward
      have apart := declaration_apart (k := k) stops single first
        (fun out => by
          rw [← List.cons_append, out] at again
          exact again rfl)
      rw [List.cons_append] at apart
      rw [apart] at again ⊢
      dsimp only at made again ⊢
      rw [bind_apply] at made again ⊢
      cases rest : declarations last n false d with
      | starved =>
        rw [rest] at made
        cases made
      | fail e f =>
        rw [rest] at made
        cases made
      | ok ss₂ f =>
        rw [rest] at made
        cases made
        rw [declarations_apart stops others n k d.rest d.errors before ss₂ c
          (single.suffix (forward d rfl)) rest fun out => by
            rw [out] at again
            exact again rfl]
        simp

end

end Grammar

/-! Statements -/

namespace Stmt

def syntaxErrors (tokens : List Token) : List SyntaxError :=
  match programOfTokens tokens with
  | .ok _ => []
  | .error es => es

/-- Tokens without braces, `for` and end tokens, and with one semicolon, the last token. -/
structure Simple (a : List Token) : Prop where
  plain : ∀ t ∈ a, t.isSymbol .leftBrace = false ∧ t.isSymbol .rightBrace = false ∧
    t.isKeyword .for = false ∧ t.isEof = false
  closed : ∃ front semicolon, a = front ++ [semicolon] ∧
    semicolon.isSymbol .semicolon = true ∧ ∀ t ∈ front, t.isSymbol .semicolon = false

section

variable {a b : List Token} {last : Token}

theorem Simple.single (h : Simple a) : Single a := by
  obtain ⟨front, semicolon, rfl, ends, within⟩ := h.closed
  have plain := h.plain
  clear h
  induction front with
  | nil => exact .semicolon ends
  | cons t ts ih =>
    have first := plain t List.mem_cons_self
    refine .more (within t List.mem_cons_self) first.1 first.2.2.1 ?_
    exact ih (fun s mem => within s (List.mem_cons_of_mem t mem)) fun s mem =>
      plain s (List.mem_cons_of_mem t mem)

/-- The tokens of a simple statement and others make what they make apart. -/
theorem Simple.append (h : Simple a) (ends : last.isEof = true)
    (inner : ∀ t ∈ b, t.isEof = false) (stops : Stops (Token.isKeyword .else) b) :
    ∃ p q es fs, programOfTokens (a ++ [last]) = (if es.isEmpty then .ok p else .error es) ∧
      programOfTokens (b ++ [last]) = (if fs.isEmpty then .ok q else .error fs) ∧
      programOfTokens (a ++ b ++ [last]) =
        if (es ++ fs).isEmpty then .ok (p ++ q) else .error (es ++ fs) := by
  have innerA : ∀ t ∈ a, t.isEof = false := fun t mem => (h.plain t mem).2.2.2
  have innerAB : ∀ t ∈ a ++ b, t.isEof = false := fun t mem =>
    (List.mem_append.mp mem).elim (innerA t) (inner t)
  obtain ⟨p, es, first, wholeA⟩ := declarations_program last a
  obtain ⟨q, fs, second, wholeB⟩ := declarations_program last b
  obtain ⟨r, gs, both, wholeAB⟩ := declarations_program last (a ++ b)
  have apart := declarations_apart stops second _ (depthFor (a ++ b)) a [] [] p _ (.inr h.single)
    first (by rw [List.append_nil, both]; nofun)
  rw [List.append_nil, both] at apart
  cases apart
  exact ⟨p, q, es, fs, wholeA _ (Token.untilEof_append innerA ends),
    wholeB _ (Token.untilEof_append inner ends), wholeAB _ (Token.untilEof_append innerAB ends)⟩

theorem Simple.syntaxErrors_append (h : Simple a) (ends : last.isEof = true)
    (inner : ∀ t ∈ b, t.isEof = false) (stops : Stops (Token.isKeyword .else) b) :
    syntaxErrors (a ++ b ++ [last]) = syntaxErrors (a ++ [last]) ++ syntaxErrors (b ++ [last]) := by
  obtain ⟨p, q, es, fs, first, second, both⟩ := h.append ends inner stops
  simp only [syntaxErrors, first, second, both]
  cases es <;> cases fs <;> rfl

/-- A simple statement neither hides faults of what follows it nor causes any, whatever its own faults are,
and without faults both are read as if apart. So the faults of a sequence of simple statements are those
of each of them. -/
theorem simple_statements_apart (ends : last.isEof = true) (inner : ∀ t ∈ b, t.isEof = false)
    (stops : Stops (Token.isKeyword .else) b) :
    (∀ a, Simple a →
      syntaxErrors (a ++ b ++ [last]) =
        syntaxErrors (a ++ [last]) ++ syntaxErrors (b ++ [last]) ∧
      ∀ p q, programOfTokens (a ++ [last]) = .ok p → programOfTokens (b ++ [last]) = .ok q →
        programOfTokens (a ++ b ++ [last]) = .ok (p ++ q)) ∧
    ∀ statements : List (List Token), (∀ a ∈ statements, Simple a) →
      (∀ a ∈ statements.tail, Stops (Token.isKeyword .else) a) →
      syntaxErrors (statements.flatten ++ b ++ [last]) =
        statements.flatMap (fun a => syntaxErrors (a ++ [last])) ++ syntaxErrors (b ++ [last]) := by
  refine ⟨fun a simple => ⟨simple.syntaxErrors_append ends inner stops, fun p q made made' => ?_⟩,
    fun statements => ?_⟩
  · obtain ⟨p', q', es, fs, first, second, both⟩ := simple.append ends inner stops
    rw [first] at made
    rw [second] at made'
    cases es with
    | cons => cases made
    | nil =>
      cases fs with
      | cons => cases made'
      | nil =>
        cases made
        cases made'
        exact both
  · induction statements with
    | nil =>
      intro _ _
      rfl
    | cons a others ih =>
      intro simple apart
      -- What comes behind the first statement is the next one or `b`; neither begins with `else`.
      have follow : Stops (Token.isKeyword .else) (others.flatten ++ b) := by
        cases others with
        | nil => exact stops
        | cons s _ =>
          obtain ⟨t, ts, rfl⟩ :=
            List.exists_cons_of_ne_nil (simple s (by simp)).single.ne_nil
          exact apart (t :: ts) List.mem_cons_self
      have innerOthers : ∀ t ∈ others.flatten ++ b, t.isEof = false := by
        intro t mem
        rcases List.mem_append.mp mem with mem | mem
        · obtain ⟨s, among, mem⟩ := List.mem_flatten.mp mem
          exact ((simple s (List.mem_cons_of_mem a among)).plain t mem).2.2.2
        · exact inner t mem
      have first := (simple a List.mem_cons_self).syntaxErrors_append ends innerOthers follow
      have rest := ih (fun s mem => simple s (List.mem_cons_of_mem a mem)) fun s mem =>
        apart s (List.mem_of_mem_tail mem)
      rw [List.flatten_cons, List.append_assoc a, first, rest, List.flatMap_cons, List.append_assoc]

/-- In `) ; print ;` each statement has its fault, and in `) ; x ;` the second has none. -/
theorem simple_statements_apart_parens :
    let paren : Token := ⟨.symbol .rightParen, ")", 1⟩
    let semicolon : Token := ⟨.symbol .semicolon, ";", 1⟩
    let print : Token := ⟨.keyword .print, "print", 2⟩
    let x : Token := ⟨.identifier, "x", 2⟩
    (Token.eof 2).isEof = true ∧ Simple [paren, semicolon] ∧
      syntaxErrors [paren, semicolon, print, semicolon, .eof 2] =
        [⟨.expression, paren⟩, ⟨.expression, semicolon⟩] ∧
      syntaxErrors [paren, semicolon, x, semicolon, .eof 2] = [⟨.expression, paren⟩] := by
  intro paren semicolon print x
  have ends : (Token.eof 2).isEof = true := by decide
  have simple : Simple [paren, semicolon] := ⟨by decide, [paren], semicolon, rfl, by decide, by decide⟩
  have apart (b : List Token) (inner : ∀ t ∈ b, t.isEof = false)
      (stops : Stops (Token.isKeyword .else) b) :=
    ((simple_statements_apart ends inner stops).1 _ simple).1
  refine ⟨ends, simple, (apart [print, semicolon] (by decide) ?_).trans rfl,
    (apart [x, semicolon] (by decide) ?_).trans rfl⟩
  · exact stops_cons.mpr rfl
  · exact stops_cons.mpr rfl

end

end Stmt

end LoxLang
