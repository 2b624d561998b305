import LoxLang.Proofs.Syntax.Covering
import LoxLang.Proofs.Syntax.Fatal
/-!
The rules track the relaxed grammar, token by token. A rule that makes something without a fatal fault has
read tokens that derive, and reads them again whatever comes behind the next token. Where its first fatal
fault is found, the tokens read up to there begin something that derives; and whatever comes behind the
token of the fault, the same fault is found there.

`Parse.Tracks` says this of a rule at one depth and of the same rule at another, and is closed under the
ways rules are put together; `Grammar.Tracks` says it of all rules and is carried from depth to depth, one
lemma a rule. Every rule of the grammar can be completed (`Relaxed.completable_rule`), so what is read of
the first part of a rule can be continued through the parts behind it.
-/
namespace LoxLang

open Ebnf Dialect

/-- The tokens derive from a rule written over the relaxed dialect. -/
abbrev Relaxed (e : Ebnf Nonterminal) (u : List Token) : Prop := Ebnf.Derives relaxed.rules e u

namespace Relaxed

variable {e e' e'' : Ebnf Nonterminal} {u : List Token} {p : Token → Bool}

theorem of_seq (h : Relaxed (.seq e e') u) : ∃ v w, Relaxed e v ∧ Relaxed e' w ∧ u = v ++ w := by
  cases h with
  | seq h h' => exact ⟨_, _, h, h', rfl⟩

theorem of_opt (h : Relaxed (.opt e) u) : u = [] ∨ Relaxed e u := by
  cases h with
  | absent => exact .inl rfl
  | present h => exact .inr h

theorem of_rule {n : Nonterminal} (h : Relaxed (.rule n) u) : Relaxed (relaxed.rules n) u := by
  cases h with
  | rule h => exact h

theorem seq_assoc (h : Relaxed (.seq (.seq e e') e'') u) : Relaxed (.seq e (.seq e' e'')) u := by
  obtain ⟨v, w, front, third, rfl⟩ := of_seq h
  obtain ⟨x, y, first, second, rfl⟩ := of_seq front
  rw [List.append_assoc]
  exact .seq first (.seq second third)

/-- What is divided by a token, behind one more of these tokens. -/
theorem many_divided {t : Token} (ht : p t = true)
    (h : Relaxed (.seq e (.many (.seq (.token p) e))) u) :
    Relaxed (.many (.seq (.token p) e)) (t :: u) := by
  obtain ⟨v, w, first, others, rfl⟩ := of_seq h
  exact .more (.seq (.token ht) first) others

def nothing : Ebnf Nonterminal := .atMost 0 name

def Completable (e : Ebnf Nonterminal) : Prop := ∃ u, Relaxed e u

@[simp]
theorem completable_symbol (s : Symbol) : Completable (symbol s) :=
  ⟨[⟨.symbol s, "", 1⟩], .token (by simp [Token.isSymbol, Token.is, Kind.same])⟩

@[simp]
theorem completable_keyword (k : Keyword) : Completable (keyword k) :=
  ⟨[⟨.keyword k, "", 1⟩], .token (by simp [Token.isKeyword, Token.is, Kind.same])⟩

@[simp]
theorem completable_name : Completable Dialect.name := ⟨[⟨.identifier, "", 1⟩], .token rfl⟩

@[simp]
theorem completable_seq : Completable (.seq e e') ↔ Completable e ∧ Completable e' := by
  constructor
  · rintro ⟨u, h⟩
    obtain ⟨v, w, first, second, _⟩ := of_seq h
    exact ⟨⟨v, first⟩, w, second⟩
  · rintro ⟨⟨u, h⟩, v, h'⟩
    exact ⟨u ++ v, .seq h h'⟩

@[simp]
theorem completable_inOrder : ∀ es : List (Ebnf Nonterminal),
    Completable (inOrder es e) ↔ (∀ x ∈ es, Completable x) ∧ Completable e
  | [] => by simp [inOrder]
  | x :: es => by simp [inOrder, completable_inOrder es, and_assoc]

@[simp]
theorem completable_opt : Completable (.opt e) := ⟨[], .absent⟩

@[simp]
theorem completable_many : Completable (.many e) := ⟨[], .done⟩

theorem Completable.left (h : Completable e) : Completable (.alt e e') := by
  obtain ⟨u, h⟩ := h
  exact ⟨u, .left h⟩

theorem Completable.right (h : Completable e') : Completable (.alt e e') := by
  obtain ⟨u, h⟩ := h
  exact ⟨u, .right h⟩

theorem Completable.rule {n : Nonterminal} (h : Completable (relaxed.rules n)) :
    Completable (.rule n) := by
  obtain ⟨u, h⟩ := h
  exact ⟨u, .rule h⟩

/-- There are tokens for every rule of the relaxed grammar. -/
@[simp]
theorem completable_rule (n : Nonterminal) : Completable (.rule n) := by
  -- Up the levels of expressions, each completed by the one below.
  have primary : Completable (.rule .primary) :=
    .rule (.right (.right (.left (completable_keyword .true))))
  have call : Completable (.rule .call) := .rule (by simp [rules, primary])
  have unary : Completable (.rule .unary) := .rule (.right call)
  have operation : ∀ level, Completable (.rule (.operation level)) := by
    have step (level : Level) (h : Completable (.rule level.operands)) :
        Completable (.rule (.operation level)) := .rule (by simp [rules, h])
    have factor := step .factor unary
    have term := step .term factor
    have comparison := step .comparison term
    have equality := step .equality comparison
    have conjunction := step .conjunction equality
    have disjunction := step .disjunction conjunction
    intro level
    cases level <;> assumption
  have ternary : Completable (.rule .ternary) := .rule (by simp [rules, operation])
  have lambda : Completable (.rule .lambda) := .rule (.right ternary)
  have assignment : Completable (.rule .assignment) := .rule (.right lambda)
  have expression : Completable (.rule .expression) := .rule assignment
  have exprStmt : Completable (.rule .exprStmt) := .rule (by simp [rules, expression])
  have statement : Completable (.rule .statement) := .rule (.left exprStmt)
  have block : Completable (.rule .block) := .rule (by simp [rules])
  have function : Completable (.rule .function) := .rule (by simp [rules, block])
  have varItem : Completable (.rule .varItem) := .rule (by simp [rules])
  cases n with
  | program =>
    exact .rule (completable_seq.mpr ⟨completable_many, [.eof 1], .token rfl⟩)
  | declaration => exact .rule (.right (.right (.right statement)))
  | operation level => exact operation level
  | classDecl => exact .rule (by simp [rules])
  | funDecl => exact .rule (by simp [rules, function])
  | varDecl => exact .rule (by simp [rules, varItem])
  | forStmt =>
    have initial : Completable (oneOf [.rule .varDecl, .rule .exprStmt] (symbol .semicolon)) :=
      .right (.left exprStmt)
    exact .rule (by simp [rules, initial, statement])
  | ifStmt => exact .rule (by simp [rules, expression, statement])
  | printStmt => exact .rule (by simp [rules, expression])
  | returnStmt => exact .rule (by simp [rules])
  | whileStmt => exact .rule (by simp [rules, expression, statement])
  | parameters => exact .rule (by simp [rules, divided])
  | arguments => exact .rule (by simp [rules, divided, expression])
  | _ => assumption

end Relaxed

open Relaxed

namespace Parse

variable {α β : Type} {e e' : Ebnf Nonterminal} {last : Token} {rule : Parse α}
  {again : Nat → Parse α} {cont : α → Parse β} {onward : Nat → α → Parse β}

/-- From `a` to `b` the tokens derive, and where they are read in front of the same token, each of the
rules makes `x` of them and notes no fatal fault. -/
def Passes (again : Nat → Parse α) (e : Ebnf Nonterminal) (a : List Token) (x : α)
    (b : List Token) : Prop :=
  ∃ u, a = u ++ b ∧ Relaxed e u ∧
    ∀ k b' errors, b'.head? = b.head? → firstFatal? errors = none →
      ∃ errors', firstFatal? errors' = none ∧ again k ⟨u ++ b', errors⟩ = .ok x ⟨b', errors'⟩

/-- In front of the token of `f` the tokens of `a` can be continued to what derives, and where they are
read in front of the same token, the first fatal fault of each of the rules is `f`. -/
def Sticks (last : Token) (again : Nat → Parse α) (e : Ebnf Nonterminal) (a : List Token)
    (f : SyntaxError) : Prop :=
  ∃ u b, a = u ++ b ∧ b.headD last = f.token ∧ (∃ w, Relaxed e (u ++ w)) ∧
    ∀ k b' errors, b'.head? = b.head? → firstFatal? errors = none →
      (again k ⟨u ++ b', errors⟩).Meets f

/-- What the first rule comes to, the others come to on all tokens that begin alike. -/
structure Tracks (last : Token) (rule : Parse α) (again : Nat → Parse α)
    (e : Ebnf Nonterminal) : Prop where
  keeps : Keeps rule
  keepsAgain (k : Nat) : Keeps (again k)
  fails (c : Cursor) (f : SyntaxError) (d : Cursor) (h : rule c = .fail f d) : f.fault.fatal = true
  passes (a : List Token) (errors : List SyntaxError) (x : α) (c : Cursor)
    (clean : firstFatal? errors = none) (h : rule ⟨a, errors⟩ = .ok x c)
    (mild : firstFatal? c.errors = none) : Passes again e a x c.rest
  sticks (a : List Token) (errors : List SyntaxError) (f : SyntaxError)
    (clean : firstFatal? errors = none) (h : (rule ⟨a, errors⟩).fatal? = some f) :
    Sticks last again e a f

theorem head?_append_same {u b b' : List Token} (same : b'.head? = b.head?) :
    (u ++ b').head? = (u ++ b).head? := by
  cases u with
  | nil => exact same
  | cons t ts => rfl

theorem Tracks.imp (h : Tracks last rule again e) (imp : ∀ u, Relaxed e u → Relaxed e' u) :
    Tracks last rule again e' where
  keeps := h.keeps
  keepsAgain := h.keepsAgain
  fails := h.fails
  passes a errors x c clean made mild := by
    obtain ⟨u, same, derived, reread⟩ := h.passes a errors x c clean made mild
    exact ⟨u, same, imp u derived, reread⟩
  sticks a errors f clean stuck := by
    obtain ⟨u, b, same, here, ⟨w, derived⟩, reread⟩ := h.sticks a errors f clean stuck
    exact ⟨u, b, same, here, ⟨w, imp _ derived⟩, reread⟩

theorem Tracks.starved (keeps : ∀ k, Keeps (again k)) : Tracks last starved again e where
  keeps := .starved
  keepsAgain := keeps
  fails _ _ _ h := by cases h
  passes _ _ _ _ _ h := by cases h
  sticks _ _ _ _ h := by cases h

theorem Tracks.pure {x : α} (h : Relaxed e []) : Tracks last (pure x) (fun _ => pure x) e where
  keeps := .pure
  keepsAgain _ := .pure
  fails _ _ _ h := by cases h
  passes a errors y c clean made mild := by
    cases made
    exact ⟨[], rfl, h, fun k b' errors _ clean => ⟨errors, clean, rfl⟩⟩
  sticks a errors f clean stuck := by
    rw [pure_apply, Reply.fatal?, clean] at stuck
    cases stuck

/-- One rule and behind it another one. What is left of the first part when it is stuck is completed
through the second part. -/
theorem Tracks.bind (h : Tracks last rule again e)
    (h' : ∀ x, Tracks last (cont x) (fun k => onward k x) e') (more : Completable e') :
    Tracks last (rule >>= cont) (fun k => again k >>= onward k) (.seq e e') where
  keeps := h.keeps.bind fun x => (h' x).keeps
  keepsAgain k := (h.keepsAgain k).bind fun x => (h' x).keepsAgain k
  fails c f d failed := by
    rw [bind_apply] at failed
    cases made : rule c with
    | ok x c' =>
      rw [made] at failed
      exact (h' x).fails c' f d failed
    | fail f' c' =>
      rw [made] at failed
      cases failed
      exact h.fails c f d made
    | starved =>
      rw [made] at failed
      cases failed
  passes a errors y d clean made mild := by
    rw [bind_apply] at made
    cases first : rule ⟨a, errors⟩ with
    | ok x c =>
      rw [first] at made
      dsimp only at made
      -- A fatal fault of the first part would still be there.
      have mild' : firstFatal? c.errors = none := by
        cases found : firstFatal? c.errors with
        | none => rfl
        | some f =>
          have kept := (h' x).keeps c f found
          rw [made] at kept
          exact absurd (mild.symm.trans (kept.resolve_left nofun)) nofun
      obtain ⟨u, rfl, derived, reread⟩ := h.passes a errors x c clean first mild'
      obtain ⟨v, rest, derived', reread'⟩ := (h' x).passes c.rest c.errors y d mild' made mild
      refine ⟨u ++ v, ?_, .seq derived derived', fun k b' errors' same clean' => ?_⟩
      · rw [rest, List.append_assoc]
      · have behind : (v ++ b').head? = c.rest.head? := by
          rw [rest]
          exact head?_append_same same
        obtain ⟨noted, cleanHere, ran⟩ := reread k (v ++ b') errors' behind clean'
        obtain ⟨noted', cleanThere, ran'⟩ := reread' k b' noted same cleanHere
        refine ⟨noted', cleanThere, ?_⟩
        dsimp only
        rw [bind_apply, List.append_assoc, ran]
        exact ran'
    | fail f c =>
      rw [first] at made
      cases made
    | starved =>
      rw [first] at made
      cases made
  sticks a errors f clean stuck := by
    -- A fault of the first part stays the first one, whatever the second part makes of it.
    have inFirst (found : (rule ⟨a, errors⟩).fatal? = some f) :
        Sticks last (fun k => again k >>= onward k) (.seq e e') a f := by
      obtain ⟨u, b, same, here, ⟨w, derived⟩, reread⟩ := h.sticks a errors f clean found
      obtain ⟨v, completed⟩ := more
      refine ⟨u, b, same, here, ⟨w ++ v, ?_⟩, fun k b' errors' same' clean' => ?_⟩
      · rw [← List.append_assoc]
        exact .seq derived completed
      · exact meets_bind (reread k b' errors' same' clean') fun x => (h' x).keepsAgain k
    rw [bind_apply] at stuck
    cases first : rule ⟨a, errors⟩ with
    | ok x c =>
      rw [first] at stuck inFirst
      dsimp only at stuck
      cases found : firstFatal? c.errors with
      | some g =>
        have kept := (h' x).keeps c g found
        rcases kept with out | kept
        · rw [out] at stuck
          cases stuck
        · obtain rfl : f = g := Option.some.inj (stuck.symm.trans kept)
          exact inFirst found
      | none =>
        obtain ⟨u, rfl, derived, reread⟩ := h.passes a errors x c clean first found
        obtain ⟨v, b, rest, here, ⟨w, derived'⟩, reread'⟩ :=
          (h' x).sticks c.rest c.errors f found stuck
        refine ⟨u ++ v, b, ?_, here, ⟨w, ?_⟩, fun k b' errors' same clean' => ?_⟩
        · rw [rest, List.append_assoc]
        · rw [List.append_assoc]
          exact .seq derived derived'
        · have behind : (v ++ b').head? = c.rest.head? := by
            rw [rest]
            exact head?_append_same same
          obtain ⟨noted, cleanHere, ran⟩ := reread k (v ++ b') errors' behind clean'
          have met := reread' k b' noted same cleanHere
          dsimp only
          rw [bind_apply, List.append_assoc, ran]
          exact met
    | fail g c =>
      rw [first] at stuck inFirst
      exact inFirst stuck
    | starved =>
      rw [first] at stuck
      cases stuck

theorem Tracks.close (h : Tracks last rule again e)
    (h' : ∀ x, Tracks last (cont x) (fun k => onward k x) nothing) :
    Tracks last (rule >>= cont) (fun k => again k >>= onward k) e := by
  refine (h.bind h' ⟨[], .enough⟩).imp fun u derived => ?_
  obtain ⟨v, w, read, none_, rfl⟩ := of_seq derived
  cases none_
  rwa [List.append_nil]

theorem Tracks.map (h : Tracks last rule again e) (make : α → β) :
    Tracks last (rule >>= fun x => Pure.pure (make x))
      (fun k => again k >>= fun x => Pure.pure (make x)) e :=
  h.close fun _ => .pure .enough

theorem Tracks.look {look : Parse α} {g : Option Token → α} (looks : Looks look g)
    (h : ∀ x, Tracks last (cont x) (fun k => onward k x) e) :
    Tracks last (look >>= cont) (fun k => look >>= onward k) e where
  keeps := looks.keeps.bind fun x => (h x).keeps
  keepsAgain k := looks.keeps.bind fun x => (h x).keepsAgain k
  fails c f d failed := by
    rw [bind_apply, looks c] at failed
    exact (h _).fails c f d failed
  passes a errors y d clean made mild := by
    rw [bind_apply, looks] at made
    obtain ⟨u, rfl, derived, reread⟩ := (h _).passes a errors y d clean made mild
    refine ⟨u, rfl, derived, fun k b' errors' same clean' => ?_⟩
    obtain ⟨noted, mild', ran⟩ := reread k b' errors' same clean'
    refine ⟨noted, mild', ?_⟩
    dsimp only
    rw [bind_apply, looks, head?_append_same same]
    exact ran
  sticks a errors f clean stuck := by
    rw [bind_apply, looks] at stuck
    obtain ⟨u, b, rfl, here, viable, reread⟩ := (h _).sticks a errors f clean stuck
    refine ⟨u, b, rfl, here, viable, fun k b' errors' same clean' => ?_⟩
    dsimp only
    rw [bind_apply, looks, head?_append_same same]
    exact reread k b' errors' same clean'

section

variable {once : Parse α} {g : Token → Option α} {y : α} (steps : Steps once g y)

include steps

theorem steps_left {a : List Token} (none_ : a.head?.bind g = none) (errors : List SyntaxError) :
    (once >>= cont) ⟨a, errors⟩ = cont y ⟨a, errors⟩ := by
  rw [bind_apply]
  cases a with
  | nil => rw [(steps errors).1]
  | cons t ts =>
    rw [(steps errors).2, show g t = none from none_]
    rfl

theorem steps_taken {t : Token} {x : α} (found : g t = some x) (ts : List Token)
    (errors : List SyntaxError) : (once >>= cont) ⟨t :: ts, errors⟩ = cont x ⟨ts, errors⟩ := by
  rw [bind_apply, (steps errors).2, found]
  rfl

/-- A step that reads the next token if it is one of those it is for. -/
theorem Tracks.step
    (taken : ∀ t x, g t = some x → Tracks last (cont x) (fun k => onward k x) e')
    (join : ∀ t x u, g t = some x → Relaxed e' u → Relaxed e (t :: u))
    (left : Tracks last (cont y) (fun k => onward k y) e) :
    Tracks last (once >>= cont) (fun k => once >>= onward k) e := by
  have cases_ (a : List Token) : a.head?.bind g = none ∨ ∃ t ts x, a = t :: ts ∧ g t = some x := by
    cases a with
    | nil => exact .inl rfl
    | cons t ts =>
      cases found : g t with
      | none => exact .inl found
      | some x => exact .inr ⟨t, ts, x, rfl, found⟩
  constructor
  case keeps =>
    rintro ⟨a, errors⟩ f first
    rcases cases_ a with none_ | ⟨t, ts, x, rfl, found⟩
    · rw [steps_left steps none_]
      exact left.keeps _ f first
    · rw [steps_taken steps found]
      exact (taken t x found).keeps _ f first
  case keepsAgain =>
    rintro k ⟨a, errors⟩ f first
    rcases cases_ a with none_ | ⟨t, ts, x, rfl, found⟩
    · rw [steps_left steps none_]
      exact left.keepsAgain k _ f first
    · rw [steps_taken steps found]
      exact (taken t x found).keepsAgain k _ f first
  case fails =>
    rintro ⟨a, errors⟩ f d failed
    rcases cases_ a with none_ | ⟨t, ts, x, rfl, found⟩
    · rw [steps_left steps none_] at failed
      exact left.fails _ f d failed
    · rw [steps_taken steps found] at failed
      exact (taken t x found).fails _ f d failed
  case passes =>
    intro a errors z d clean made mild
    rcases cases_ a with none_ | ⟨t, ts, x, rfl, found⟩
    · rw [steps_left steps none_] at made
      obtain ⟨u, rfl, derived, reread⟩ := left.passes a errors z d clean made mild
      refine ⟨u, rfl, derived, fun k b' errors' same clean' => ?_⟩
      dsimp only
      rw [steps_left steps (by rwa [head?_append_same same])]
      exact reread k b' errors' same clean'
    · rw [steps_taken steps found] at made
      obtain ⟨u, rfl, derived, reread⟩ := (taken t x found).passes ts errors z d clean made mild
      refine ⟨t :: u, rfl, join t x u found derived, fun k b' errors' same clean' => ?_⟩
      dsimp only
      rw [List.cons_append, steps_taken steps found]
      exact reread k b' errors' same clean'
  case sticks =>
    intro a errors f clean stuck
    rcases cases_ a with none_ | ⟨t, ts, x, rfl, found⟩
    · rw [steps_left steps none_] at stuck
      obtain ⟨u, b, rfl, here, viable, reread⟩ := left.sticks a errors f clean stuck
      refine ⟨u, b, rfl, here, viable, fun k b' errors' same clean' => ?_⟩
      dsimp only
      rw [steps_left steps (by rwa [head?_append_same same])]
      exact reread k b' errors' same clean'
    · rw [steps_taken steps found] at stuck
      obtain ⟨u, b, rfl, here, ⟨w, derived⟩, reread⟩ :=
        (taken t x found).sticks ts errors f clean stuck
      refine ⟨t :: u, b, rfl, here, ⟨w, join t x _ found derived⟩, fun k b' errors' same clean' => ?_⟩
      dsimp only
      rw [List.cons_append, steps_taken steps found]
      exact reread k b' errors' same clean'

end

theorem Tracks.next {p : Token → Bool} {cont : Bool → Parse β} {onward : Nat → Bool → Parse β}
    (h : ∀ x, Tracks last (cont x) (fun k => onward k x) e) :
    Tracks last (next p >>= cont) (fun k => next p >>= onward k) e := .look (looks_next p) h

theorem Tracks.peek {cont : Token → Parse β} {onward : Nat → Token → Parse β}
    (h : ∀ x, Tracks last (cont x) (fun k => onward k x) e) :
    Tracks last (peek last >>= cont) (fun k => peek last >>= onward k) e :=
  .look (looks_peek last) h

theorem Tracks.take {p : Token → Bool} {cont : Option Token → Parse β}
    {onward : Nat → Option Token → Parse β} (e' : Ebnf Nonterminal)
    (taken : ∀ t, p t = true → Tracks last (cont (some t)) (fun k => onward k (some t)) e')
    (join : ∀ t u, p t = true → Relaxed e' u → Relaxed e (t :: u))
    (left : Tracks last (cont none) (fun k => onward k none) e) :
    Tracks last (take? p >>= cont) (fun k => take? p >>= onward k) e := by
  have given : ∀ t x, (if p t then some (some t) else none) = some x → p t = true ∧ x = some t := by
    intro t x found
    cases holds : p t with
    | false => simp [holds] at found
    | true => exact ⟨rfl, by simpa [holds, eq_comm] using found⟩
  have read : ∀ t x, (if p t then some (some t) else none) = some x →
      Tracks last (cont x) (fun k => onward k x) e' := fun t x found => by
    obtain ⟨holds, rfl⟩ := given t x found
    exact taken t holds
  exact .step (steps_take p) read (fun t x u found => join t u (given t x found).1) left

theorem Tracks.accept {p : Token → Bool} {cont : Bool → Parse β} {onward : Nat → Bool → Parse β}
    (e' : Ebnf Nonterminal) (taken : Tracks last (cont true) (fun k => onward k true) e')
    (join : ∀ t u, p t = true → Relaxed e' u → Relaxed e (t :: u))
    (left : Tracks last (cont false) (fun k => onward k false) e) :
    Tracks last (accept p >>= cont) (fun k => accept p >>= onward k) e := by
  have given : ∀ t x, (if p t then some true else none) = some x → p t = true ∧ x = true := by
    intro t x found
    cases holds : p t with
    | false => simp [holds] at found
    | true => exact ⟨rfl, by simpa [holds, eq_comm] using found⟩
  have read : ∀ t x, (if p t then some true else none) = some x →
      Tracks last (cont x) (fun k => onward k x) e' := fun t x found => by
    obtain ⟨_, rfl⟩ := given t x found
    exact taken
  exact .step (steps_accept p) read (fun t x u found => join t u (given t x found).1) left

/-- Where a rule fails it has read nothing, and something derives from it. -/
theorem Tracks.fail {fault : SyntaxFault} (fatal : fault.fatal = true) (some_ : Completable e) :
    Tracks last (fail last fault : Parse α) (fun _ => fail last fault) e where
  keeps := .fail
  keepsAgain _ := .fail
  fails c f d failed := by
    cases failed
    exact fatal
  passes _ _ _ _ _ made := by cases made
  sticks a errors f clean stuck := by
    have found : ∀ (b : List Token) (noted : List SyntaxError), firstFatal? noted = none →
        (Parse.fail last fault ⟨b, noted⟩ : Reply α).fatal? = some ⟨fault, b.headD last⟩ :=
      fun b noted clean => firstFatal?_noted clean fatal
    rw [found a errors clean] at stuck
    cases stuck
    refine ⟨[], a, rfl, rfl, some_, fun k b' errors' same clean' => .inr ?_⟩
    rw [List.nil_append, found b' errors' clean', List.headD_eq_head?_getD, same,
      ← List.headD_eq_head?_getD]

theorem Tracks.expect {p : Token → Bool} {fault : SyntaxFault} (fatal : fault.fatal = true)
    (some_ : Completable (.token p)) :
    Tracks last (expect last p fault) (fun _ => expect last p fault) (.token p) := by
  have taken (t : Token) (_ : p t = true) :
      Tracks last (Pure.pure t) (fun _ => Pure.pure t) nothing := .pure .enough
  rw [expect_eq]
  refine .take nothing taken (fun t u holds derived => ?_) (.fail fatal some_)
  cases derived
  exact .token holds

theorem Tracks.report {fault : SyntaxFault} (mild : fault.fatal = false) {t : Token}
    {cont : Unit → Parse β} {onward : Nat → Unit → Parse β}
    (h : Tracks last (cont ()) (fun k => onward k ()) e) :
    Tracks last (report fault t >>= cont) (fun k => report fault t >>= onward k) e := by
  have noted (errors : List SyntaxError) :
      firstFatal? (errors ++ [⟨fault, t⟩]) = firstFatal? errors :=
    firstFatal?_append_mild (firstFatal?_mild mild)
  constructor
  case keeps => exact Keeps.report.bind fun _ => h.keeps
  case keepsAgain => exact fun k => Keeps.report.bind fun _ => h.keepsAgain k
  case fails => exact fun c f d failed => h.fails _ f d failed
  case passes =>
    intro a errors x d clean made mild'
    obtain ⟨u, rfl, derived, reread⟩ := h.passes a _ x d ((noted errors).trans clean) made mild'
    exact ⟨u, rfl, derived, fun k b' errors' same clean' =>
      reread k b' _ same ((noted errors').trans clean')⟩
  case sticks =>
    intro a errors f clean stuck
    obtain ⟨u, b, rfl, here, viable, reread⟩ := h.sticks a _ f ((noted errors).trans clean) stuck
    exact ⟨u, b, rfl, here, viable, fun k b' errors' same clean' =>
      reread k b' _ same ((noted errors').trans clean')⟩

end Parse

end LoxLang
