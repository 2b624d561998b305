import LoxLang.Proofs.Syntax.Beginnings
/-!
The rules settle what the tokens are. With a depth that suffices a rule always comes to an end: it
makes something or fails, never takes back a fault, and what it makes without noting one is what a
reading without faults says.

`Parse.Settles` says this of one rule at one list of tokens and is closed under the ways rules are
put together; `Grammar.Settles` says it of all rules at one depth, and is carried from depth to
depth, one lemma a rule. A rule entered before a token is read needs less depth than the rule it is
entered from; these numbers are all below `depthPerToken`.
-/
namespace LoxLang

namespace Parse

variable {α β : Type}

/-- From the tokens `a` the rule ends, having read at least `k` tokens unless it fails. It takes back
no fault, and what it makes without noting one is a `Q` of the tokens it leaves. -/
def Settles (rule : Parse α) (a : List Token) (k : Nat) (Q : List Token → α → Prop) : Prop :=
  ∀ errors, match rule ⟨a, errors⟩ with
    | .ok x c =>
      c.rest.length + k ≤ a.length ∧ errors <+: c.errors ∧ (c.errors = errors → Q c.rest x)
    | .fail _ c => c.rest.length ≤ a.length ∧ errors <+: c.errors
    | .starved => False

variable {rule : Parse α} {a : List Token} {k l : Nat} {Q R : List Token → α → Prop}
  {S : List Token → β → Prop} {p : Token → Bool} {last : Token} {fault : SyntaxFault}

theorem Settles.imp (h : Settles rule a k Q) (imp : ∀ b x, Q b x → R b x) :
    Settles rule a k R := by
  intro errors
  have h := h errors
  cases hr : rule ⟨a, errors⟩ with
  | ok x c =>
    rw [hr] at h
    exact ⟨h.1, h.2.1, fun same => imp _ _ (h.2.2 same)⟩
  | fail e c =>
    rw [hr] at h
    exact h
  | starved =>
    rw [hr] at h
    exact h

theorem Settles.fewer (h : Settles rule a k Q) (le : l ≤ k) : Settles rule a l Q := by
  intro errors
  have h := h errors
  cases hr : rule ⟨a, errors⟩ with
  | ok x c =>
    rw [hr] at h
    exact ⟨by have := h.1; omega, h.2⟩
  | fail e c =>
    rw [hr] at h
    exact h
  | starved =>
    rw [hr] at h
    exact h

theorem Settles.pure {x : α} (h : Q a x) : Settles (pure x) a 0 Q :=
  fun _ => ⟨Nat.le_refl _, List.prefix_refl _, fun _ => h⟩

theorem Settles.bind {cont : α → Parse β} (h : Settles rule a k Q)
    (h' : ∀ x b, b.length + k ≤ a.length →
      Settles (cont x) b (l - k) fun c y => Q b x → S c y) :
    Settles (rule >>= cont) a l S := by
  intro errors
  have first := h errors
  rw [bind_apply]
  cases hr : rule ⟨a, errors⟩ with
  | starved =>
    rw [hr] at first
    exact first
  | fail e c =>
    rw [hr] at first
    exact first
  | ok x c =>
    rw [hr] at first
    obtain ⟨len, kept, made⟩ := first
    have second := h' x c.rest len c.errors
    dsimp only
    cases hn : cont x c with
    | starved =>
      rw [hn] at second
      exact second
    | fail e d =>
      rw [hn] at second
      exact ⟨by have := second.1; omega, kept.trans second.2⟩
    | ok y d =>
      rw [hn] at second
      refine ⟨by have := second.1; omega, kept.trans second.2.1, fun same => ?_⟩
      -- Nothing is noted on the way if nothing is noted in the end.
      have none : c.errors = errors := by
        refine (kept.eq_of_length_le ?_).symm
        rw [← same]
        exact second.2.1.length_le
      exact second.2.2 (same.trans none.symm) (made none)

theorem Settles.noted {t : Token} {cont : Unit → Parse β} {R : List Token → β → Prop}
    (h : Settles (cont ()) a l R) : Settles (report fault t >>= cont) a l S := by
  intro errors
  have h := h (errors ++ [⟨fault, t⟩])
  have kept : errors <+: errors ++ [⟨fault, t⟩] := List.prefix_append _ _
  rw [bind_apply]
  simp only [report]
  cases hr : cont () ⟨a, errors ++ [⟨fault, t⟩]⟩ with
  | ok x c =>
    rw [hr] at h
    refine ⟨h.1, kept.trans h.2.1, fun same => ?_⟩
    have := h.2.1.length_le
    simp only [same, List.length_append, List.length_singleton] at this
    omega
  | fail e c =>
    rw [hr] at h
    exact ⟨h.1, kept.trans h.2⟩
  | starved =>
    rw [hr] at h
    exact h

theorem Settles.ahead {rule rule' : Parse β} {t : Token} {b : List Token}
    (h : Settles rule' b (l - 1) S) (eq : ∀ errors, rule ⟨t :: b, errors⟩ = rule' ⟨b, errors⟩) :
    Settles rule (t :: b) l S := by
  intro errors
  have h := h errors
  rw [eq]
  cases hr : rule' ⟨b, errors⟩ with
  | ok x c =>
    rw [hr] at h
    exact ⟨by have := h.1; simp only [List.length_cons]; omega, h.2⟩
  | fail e c =>
    rw [hr] at h
    exact ⟨Nat.le_succ_of_le h.1, h.2⟩
  | starved =>
    rw [hr] at h
    exact h

theorem Settles.here {rule rule' : Parse β} (h : Settles rule' a l S)
    (eq : ∀ errors, rule ⟨a, errors⟩ = rule' ⟨a, errors⟩) : Settles rule a l S := by
  intro errors
  rw [eq]
  exact h errors

theorem Settles.peek {cont : Token → Parse β} (h : Settles (cont (a.headD last)) a l S) :
    Settles (peek last >>= cont) a l S :=
  h.here fun _ => rfl

theorem Settles.expect {cont : Token → Parse β}
    (h : ∀ t b, a = t :: b → b.length < a.length → p t = true → Settles (cont t) b (l - 1) S) :
    Settles (expect last p fault >>= cont) a l S := by
  cases a with
  | nil => exact fun _ => ⟨Nat.le_refl _, List.prefix_refl _⟩
  | cons t b =>
    cases ht : p t with
    | false =>
      intro errors
      rw [bind_apply]
      simp only [Parse.expect, ht]
      exact ⟨Nat.le_refl _, List.prefix_refl _⟩
    | true =>
      refine (h t b rfl (Nat.lt_succ_self _) ht).ahead fun errors => ?_
      simp [bind_apply, Parse.expect, ht]

theorem Settles.take {cont : Option Token → Parse β}
    (taken : ∀ t b, a = t :: b → b.length < a.length → p t = true →
      Settles (cont (some t)) b (l - 1) S)
    (left : Stops p a → Settles (cont none) a l S) : Settles (take? p >>= cont) a l S := by
  cases a with
  | nil => exact (left stops_nil).here fun _ => rfl
  | cons t b =>
    cases ht : p t with
    | false =>
      refine (left (stops_cons.mpr ht)).here fun errors => ?_
      simp [bind_apply, take?, ht]
    | true =>
      refine (taken t b rfl (Nat.lt_succ_self _) ht).ahead fun errors => ?_
      simp [bind_apply, take?, ht]

theorem Settles.accept {cont : Bool → Parse β}
    (taken : ∀ t b, a = t :: b → b.length < a.length → p t = true →
      Settles (cont true) b (l - 1) S)
    (left : Stops p a → Settles (cont false) a l S) : Settles (accept p >>= cont) a l S := by
  cases a with
  | nil => exact (left stops_nil).here fun _ => rfl
  | cons t b =>
    cases ht : p t with
    | false =>
      refine (left (stops_cons.mpr ht)).here fun errors => ?_
      simp [bind_apply, Parse.accept, ht]
    | true =>
      refine (taken t b rfl (Nat.lt_succ_self _) ht).ahead fun errors => ?_
      simp [bind_apply, Parse.accept, ht]

theorem Settles.next {cont : Bool → Parse β} (h : ∀ x, Settles (cont x) a l S) :
    Settles (next p >>= cont) a l S := by
  cases a with
  | nil => exact (h false).here fun _ => rfl
  | cons t b => exact (h (p t)).here fun _ => rfl

theorem Settles.fail : Settles (fail last fault : Parse β) a l S :=
  fun _ => ⟨Nat.le_refl _, List.prefix_refl _⟩

end Parse

/-- The depth that the operands of a level need before a token is read. -/
def Level.depth : Level → Nat
  | .disjunction => 12
  | .conjunction => 10
  | .equality => 8
  | .comparison => 6
  | .term => 4
  | .factor => 2

theorem Level.depth_tighter {level tighter : Level} (h : level.tighter? = some tighter) :
    tighter.depth + 2 = level.depth := by
  cases level <;> cases h <;> rfl

theorem Level.two_le_depth (level : Level) : 2 ≤ level.depth := by
  cases level <;> decide

theorem Level.depth_le (level : Level) : level.depth ≤ 12 := by
  cases level <;> decide

namespace Grammar

open Parse Reading

section

variable {α : Type} {a : List Token} {l : Nat} {S : List Token → α → Prop}

theorem settles_over {inBlock : Bool} {cont : Bool → Parse α}
    (ended : a = [] → Settles (cont true) a l S)
    (closed : ∀ t b, a = t :: b → inBlock = true → t.isSymbol .rightBrace = true →
      Settles (cont true) a l S)
    (going : ∀ t b, a = t :: b → Settles (cont false) a l S) :
    Settles (declarationsOver inBlock >>= cont) a l S := by
  cases a with
  | nil => exact (ended rfl).here fun _ => rfl
  | cons t b =>
    cases ht : inBlock && t.isSymbol .rightBrace with
    | false =>
      refine (going t b rfl).here fun errors => ?_
      simp [bind_apply, declarationsOver, ht]
    | true =>
      have both := Bool.and_eq_true_iff.mp ht
      refine (closed t b rfl both.1 both.2).here fun errors => ?_
      simp [bind_apply, declarationsOver, ht]

theorem settles_atom {cont : Option Expr → Parse α}
    (found : ∀ t b e, a = t :: b → atom? t = some e → Settles (cont (some e)) b (l - 1) S)
    (other : Settles (cont none) a l S) : Settles (atom >>= cont) a l S := by
  cases a with
  | nil => exact other.here fun _ => rfl
  | cons t b =>
    cases ht : atom? t with
    | none =>
      refine other.here fun errors => ?_
      simp [bind_apply, atom, ht]
    | some e =>
      refine (found t b e rfl ht).ahead fun errors => ?_
      simp [bind_apply, atom, ht]

theorem settles_excess {fault : SyntaxFault} {count : Nat} {last : Token} {rule : Parse α}
    (h : Settles rule a l S) :
    Settles (Grammar.counted last fault count rule) a l fun b x => count < maxArity ∧ S b x := by
  unfold Grammar.counted
  dsimp only
  split
  · exact .peek (.noted h)
  · rename_i room
    exact h.imp fun b x made => ⟨Nat.lt_of_not_le room, made⟩

end

theorem excess_room {fault : SyntaxFault} {count : Nat} {t : Token} (room : count < maxArity) :
    excess fault count t = [] :=
  if_neg (Nat.not_le_of_lt room)

section

variable (last : Token)

/-- All rules settle what the tokens are at this depth, where it suffices for so many tokens. -/
structure Settles (n : Nat) : Prop where
  moreParams (count : Nat) (a : List Token) (deep : 32 * a.length + 1 ≤ n) :
    Parse.Settles (moreParams last n count) a 0 fun b names => Names count a b names []
  expression (a : List Token) (deep : 32 * a.length + 17 ≤ n) :
    Parse.Settles (expression last n) a 0 fun b e => Expression a b e []
  lambda (a : List Token) (deep : 32 * a.length + 16 ≤ n) :
    Parse.Settles (lambda last n) a 0 fun b e => Lambda a b e []
  lambdaBody (a : List Token) (deep : 32 * a.length + 18 ≤ n) :
    Parse.Settles (lambdaBody last n) a 0 fun b body => LambdaBody a b body []
  ternary (a : List Token) (deep : 32 * a.length + 15 ≤ n) :
    Parse.Settles (ternary last n) a 0 fun b e => Ternary a b e []
  operation (level : Level) (a : List Token) (deep : 32 * a.length + level.depth + 2 ≤ n) :
    Parse.Settles (operation last n level) a 0 fun b e => Operation level a b e []
  operand (level : Level) (a : List Token) (deep : 32 * a.length + level.depth + 1 ≤ n) :
    Parse.Settles (operand last n level) a 0 fun b e => Operand level a b e []
  moreOperation (level : Level) (left : Expr) (a : List Token) (deep : 32 * a.length + 1 ≤ n) :
    Parse.Settles (moreOperation last n level left) a 0 fun b e => Operators level left a b e []
  unary (a : List Token) (deep : 32 * a.length + 2 ≤ n) :
    Parse.Settles (unary last n) a 0 fun b e => Unary a b e []
  moreCall (callee : Expr) (a : List Token) (deep : 32 * a.length + 1 ≤ n) :
    Parse.Settles (moreCall last n callee) a 0 fun b e => Calls callee a b e []
  moreArguments (count : Nat) (a : List Token) (deep : 32 * a.length + 18 ≤ n) :
    Parse.Settles (moreArguments last n count) a 0 fun b es => Arguments count a b es []
  primary (a : List Token) (deep : 32 * a.length + 1 ≤ n) :
    Parse.Settles (primary last n) a 0 fun b e => Primary a b e []
  declaration (t : Token) (a : List Token) (deep : 32 * (t :: a).length + 21 ≤ n) :
    Parse.Settles (declaration last n) (t :: a) 1 fun b o =>
      ∃ s, o = some s ∧ Declaration (t :: a) b s []
  declarationRule (a : List Token) (deep : 32 * a.length + 20 ≤ n) :
    Parse.Settles (declarationRule last n) a 1 fun b s => Declaration a b s []
  classRule (a : List Token) (deep : 32 * a.length + 1 ≤ n) :
    Parse.Settles (classRule last n) a 0 fun b s =>
      ∀ word, word.isKeyword .class = true → Declaration (word :: a) b s []
  members (a : List Token) (deep : 32 * a.length + 2 ≤ n) :
    Parse.Settles (members last n) a 0 fun b fs => Members a b fs []
  function (callee : Callee) (a : List Token) (deep : 32 * a.length + 1 ≤ n) :
    Parse.Settles (function last n callee) a 1 fun b code => Code a b code []
  varRule (a : List Token) (deep : 32 * a.length + 2 ≤ n) :
    Parse.Settles (varRule last n) a 0 fun b s => Variables a b s []
  declarators (a : List Token) (deep : 32 * a.length + 1 ≤ n) :
    Parse.Settles (declarators last n) a 0 fun b ds => Declarators a b ds []
  statement (a : List Token) (deep : 32 * a.length + 19 ≤ n) :
    Parse.Settles (statement last n) a 1 fun b s => Statement a b s []
  forRule (a : List Token) (deep : 32 * a.length + 1 ≤ n) :
    Parse.Settles (forRule last n) a 0 fun b s =>
      ∀ word, word.isKeyword .for = true → Statement (word :: a) b s []
  forInitial (a : List Token) (deep : 32 * a.length + 19 ≤ n) :
    Parse.Settles (forInitial last n) a 0 fun b o => Initial a b o []
  ifRule (a : List Token) (deep : 32 * a.length + 1 ≤ n) :
    Parse.Settles (ifRule last n) a 0 fun b s =>
      ∀ word, word.isKeyword .if = true → Statement (word :: a) b s []
  returnRule (word : Token) (a : List Token) (deep : 32 * a.length + 18 ≤ n) :
    Parse.Settles (returnRule last n word) a 0 fun b s =>
      word.isKeyword .return = true → Statement (word :: a) b s []
  whileRule (a : List Token) (deep : 32 * a.length + 1 ≤ n) :
    Parse.Settles (whileRule last n) a 0 fun b s =>
      ∀ word, word.isKeyword .while = true → Statement (word :: a) b s []
  expressionRule (a : List Token) (deep : 32 * a.length + 18 ≤ n) :
    Parse.Settles (expressionRule last n) a 1 fun b s =>
      ∃ e semicolon, s = .expression e ∧ semicolon.isSymbol .semicolon = true ∧
        Expression a (semicolon :: b) e []
  block (a : List Token) (deep : 32 * a.length + 23 ≤ n) :
    Parse.Settles (block last n) a 0 fun b body => Block a b body []
  declarations (inBlock : Bool) (a : List Token) (deep : 32 * a.length + 22 ≤ n) :
    Parse.Settles (declarations last n inBlock) a 0 fun b ss => Declarations inBlock a b ss []

theorem Settles.zero : Settles last 0 := by
  constructor <;> intros <;> omega

variable {last} {n : Nat}

theorem moreParams_settles (h : Settles last n) (count : Nat) (a : List Token)
    (deep : 32 * a.length + 1 ≤ n + 1) :
    Parse.Settles (moreParams last (n + 1) count) a 0 fun b names => Names count a b names [] := by
  rw [moreParams_eq]
  have rest : Parse.Settles (paramsFrom last n count) a 0 fun b names =>
      count < maxArity → Names count a b names [] := by
    refine .expect ?_
    rintro name b rfl len hn
    refine .accept ?_ fun stops => ?_
    · rintro comma c rfl lenc hc
      refine (h.moreParams (count + 1) c (by omega)).bind fun names d _ => .pure ?_
      intro others room
      have := Names.more hn hc others
      rwa [excess_room room] at this
    · refine .pure fun room => ?_
      have : Names count (name :: b) b [name] _ := .last hn stops
      rwa [excess_room room] at this
  exact (settles_excess rest).imp fun b names made => made.2 made.1

theorem params_settles (h : Settles last n) (a : List Token) (deep : 32 * a.length + 1 ≤ n) :
    Parse.Settles (params last n) a 0 fun b names =>
      ∃ closed, closed.isSymbol .rightParen = true ∧ Params a (closed :: b) names [] := by
  unfold params
  refine .next fun empty => ?_
  dsimp only
  split
  · refine (Parse.Settles.pure (Q := fun b names => b = a ∧ names = []) ⟨rfl, rfl⟩).bind
      fun names b _ => .expect ?_
    rintro closed c rfl _ hc
    refine .pure ?_
    rintro ⟨rfl, rfl⟩
    exact ⟨closed, hc, .none⟩
  · refine (h.moreParams 0 a deep).bind fun names b _ => .expect ?_
    rintro closed c rfl _ hc
    exact .pure fun made => ⟨closed, hc, .some made⟩

theorem expression_settles (h : Settles last n) (a : List Token)
    (deep : 32 * a.length + 17 ≤ n + 1) :
    Parse.Settles (Grammar.expression last (n + 1)) a 0 fun b e => Expression a b e [] := by
  unfold Grammar.expression
  refine (h.lambda a (by omega)).bind fun target b len => .take ?_ ?_
  · rintro equals c rfl lenc he
    refine (h.expression c (by omega)).bind fun value d _ => ?_
    -- Behind a target the tree and the faults are those of a reading; anything else is noted.
    split
    · exact .pure fun value target => .assign target he value
    · exact .pure fun value target => .assign target he value
    · exact .noted (R := fun _ _ => True) (.pure trivial)
  · intro stops
    exact .pure fun target => .plain target stops

theorem lambda_settles (h : Settles last n) (a : List Token)
    (deep : 32 * a.length + 16 ≤ n + 1) :
    Parse.Settles (Grammar.lambda last (n + 1)) a 0 fun b e => Lambda a b e [] := by
  unfold Grammar.lambda
  refine .take ?_ fun _ => ?_
  · rintro keyword b rfl len hk
    refine .expect ?_
    rintro opened c rfl lenc ho
    refine (params_settles h c (by omega)).bind fun names d lend => ?_
    refine (h.lambdaBody d (by omega)).bind fun body e _ => .pure ?_
    rintro body ⟨closed, hc, params⟩
    exact .function hk ho params hc body
  · exact (h.ternary a (by omega)).imp fun b e made => .ternary made

theorem lambdaBody_settles (h : Settles last n) (a : List Token)
    (deep : 32 * a.length + 18 ≤ n + 1) :
    Parse.Settles (Grammar.lambdaBody last (n + 1)) a 0 fun b body => LambdaBody a b body [] := by
  unfold Grammar.lambdaBody
  refine .accept ?_ fun _ => ?_
  · rintro opened b rfl len ho
    exact (h.block b (by omega)).imp fun c body made => .block ho made
  refine .take ?_ fun _ => ?_
  · rintro keyword b rfl len hk
    refine .noted (R := fun _ _ => True) (.peek ?_)
    exact (h.expression b (by omega)).bind fun value c _ => .pure fun _ => trivial
  · refine .peek ((h.expression a (by omega)).bind fun value c _ => .pure fun made => ?_)
    obtain ⟨t, ts, rfl, _⟩ := made.begins
    exact .expression made

theorem ternary_settles (h : Settles last n) (a : List Token)
    (deep : 32 * a.length + 15 ≤ n + 1) :
    Parse.Settles (Grammar.ternary last (n + 1)) a 0 fun b e => Ternary a b e [] := by
  unfold Grammar.ternary
  have enough := Level.depth_le .disjunction
  refine (h.operation .disjunction a (by omega)).bind fun condition b len => .accept ?_ ?_
  · rintro question c rfl lenc hq
    refine (h.ternary c (by omega)).bind fun whenTrue d lend => .expect ?_
    rintro colon e rfl lene hc
    refine (h.ternary e (by omega)).bind fun whenFalse f _ => .pure ?_
    exact fun whenFalse whenTrue condition => .choice condition hq whenTrue hc whenFalse
  · exact fun stops => .pure fun condition => .plain condition stops

theorem operation_settles (h : Settles last n) (level : Level) (a : List Token)
    (deep : 32 * a.length + level.depth + 2 ≤ n + 1) :
    Parse.Settles (Grammar.operation last (n + 1) level) a 0 fun b e =>
      Operation level a b e [] := by
  unfold Grammar.operation
  refine (h.operand level a (by omega)).bind fun left b len => ?_
  exact (h.moreOperation level left b (by omega)).imp fun c e made left => .chain left made

theorem operand_settles (h : Settles last n) (level : Level) (a : List Token)
    (deep : 32 * a.length + level.depth + 1 ≤ n + 1) :
    Parse.Settles (Grammar.operand last (n + 1) level) a 0 fun b e => Operand level a b e [] := by
  unfold Grammar.operand
  have enough := level.two_le_depth
  cases hl : level.tighter? with
  | some tighter =>
    have shallower := Level.depth_tighter hl
    exact (h.operation tighter a (by omega)).imp fun b e made => .tighter hl made
  | none => exact (h.unary a (by omega)).imp fun b e made => .unary hl made

theorem moreOperation_settles (h : Settles last n) (level : Level) (left : Expr) (a : List Token)
    (deep : 32 * a.length + 1 ≤ n + 1) :
    Parse.Settles (Grammar.moreOperation last (n + 1) level left) a 0 fun b e =>
      Operators level left a b e [] := by
  unfold Grammar.moreOperation
  have enough := level.depth_le
  refine .take ?_ fun stops => .pure (.done stops)
  rintro op b rfl len ho
  refine (h.operand level b (by omega)).bind fun right c lenc => ?_
  exact (h.moreOperation level _ c (by omega)).imp fun d e made right => .more ho right made

theorem unary_settles (h : Settles last n) (a : List Token) (deep : 32 * a.length + 2 ≤ n + 1) :
    Parse.Settles (Grammar.unary last (n + 1)) a 0 fun b e => Unary a b e [] := by
  unfold Grammar.unary
  refine .take ?_ fun _ => ?_
  · rintro op b rfl len ho
    exact (h.unary b (by omega)).bind fun right c _ => .pure fun right => .operator ho right
  · refine (h.primary a (by omega)).bind fun callee b len => ?_
    exact (h.moreCall callee b (by omega)).imp fun c e made callee => .call callee made

theorem moreCall_settles (h : Settles last n) (callee : Expr) (a : List Token)
    (deep : 32 * a.length + 1 ≤ n + 1) :
    Parse.Settles (Grammar.moreCall last (n + 1) callee) a 0 fun b e => Calls callee a b e [] := by
  unfold Grammar.moreCall
  refine .accept ?_ fun notCall => .accept ?_ fun notProperty => .pure (.done notCall notProperty)
  · rintro opened b rfl len ho
    refine .next fun empty => ?_
    -- The rest of the calls, behind arguments read from `b` to `c`.
    have rest (values : List Expr) (c : List Token) (lenc : c.length ≤ b.length) :
        Parse.Settles (closeCall last n callee values) c 0 fun d e =>
            Passed b c values [] → Calls callee (opened :: b) d e [] := by
      refine .expect ?_
      rintro closed d rfl lend hc
      refine (h.moreCall _ d (by omega)).imp fun e made calls passed => ?_
      exact .call ho passed hc calls
    dsimp only
    split
    · refine (Parse.Settles.pure (Q := fun c values => c = b ∧ values = []) ⟨rfl, rfl⟩).bind
        fun values c lenc => (rest values c lenc).imp fun d e made => ?_
      rintro ⟨rfl, rfl⟩
      exact made .none
    · refine (h.moreArguments 0 b (by omega)).bind fun values c lenc => ?_
      exact (rest values c lenc).imp fun d e made values => made (.some values)
  · rintro dot b rfl len hd
    refine .expect ?_
    rintro name c rfl lenc hn
    exact (h.moreCall _ c (by omega)).imp fun d e made => .property hd hn made

theorem moreArguments_settles (h : Settles last n) (count : Nat) (a : List Token)
    (deep : 32 * a.length + 18 ≤ n + 1) :
    Parse.Settles (Grammar.moreArguments last (n + 1) count) a 0 fun b es =>
      Arguments count a b es [] := by
  rw [moreArguments_eq]
  have rest : Parse.Settles (argumentsFrom last n count) a 0 fun b es =>
      count < maxArity → Arguments count a b es [] := by
    refine (h.expression a (by omega)).bind fun value b len => .accept ?_ fun stops => ?_
    · rintro comma c rfl lenc hc
      refine (h.moreArguments (count + 1) c (by omega)).bind fun values d _ => .pure ?_
      intro others first room
      obtain ⟨t, ts, rfl, _⟩ := first.begins
      have := Arguments.more first hc others
      rwa [excess_room room] at this
    · refine .pure fun first room => ?_
      obtain ⟨t, ts, rfl, _⟩ := first.begins
      have : Arguments count (t :: ts) b [value] _ := .last first stops
      rwa [excess_room room] at this
  exact (settles_excess rest).imp fun b es made => made.2 made.1

theorem primary_settles (h : Settles last n) (a : List Token)
    (deep : 32 * a.length + 1 ≤ n + 1) :
    Parse.Settles (Grammar.primary last (n + 1)) a 0 fun b e => Primary a b e [] := by
  unfold Grammar.primary
  refine settles_atom ?_ ?_
  · rintro t b e rfl he
    exact .pure (.atom he)
  · refine .accept ?_ fun _ => .fail
    rintro opened b rfl len ho
    refine (h.expression b (by omega)).bind fun inner c lenc => .expect ?_
    rintro closed d rfl _ hc
    exact .pure fun inner => .group ho inner hc

theorem length_resumeAfter : ∀ (previous : Token) (ts : List Token),
    (resumeAfter previous ts).length ≤ ts.length
  | _, [] => Nat.le_refl _
  | previous, t :: ts => by
    unfold resumeAfter
    split
    · exact Nat.le_refl _
    · exact Nat.le_succ_of_le (length_resumeAfter t ts)

/-- Resuming behind a fault gives up at least one token. -/
theorem length_resume {ts : List Token} {k : Nat} (h : ts.length ≤ k + 1) :
    (resume ts).length ≤ k := by
  cases ts with
  | nil => exact Nat.zero_le _
  | cons t ts =>
    have := length_resumeAfter t ts
    simp only [List.length_cons] at h
    simp only [resume]
    omega

theorem declaration_settles (h : Settles last n) (t : Token) (a : List Token)
    (deep : 32 * (t :: a).length + 21 ≤ n + 1) :
    Parse.Settles (Grammar.declaration last (n + 1)) (t :: a) 1 fun b o =>
      ∃ s, o = some s ∧ Declaration (t :: a) b s [] := by
  intro errors
  have settles := h.declarationRule (t :: a) (by omega) errors
  unfold Grammar.declaration
  cases hr : Grammar.declarationRule last n ⟨t :: a, errors⟩ with
  | ok s c =>
    rw [hr] at settles
    exact ⟨settles.1, settles.2.1, fun same => ⟨s, rfl, settles.2.2 same⟩⟩
  | fail e c =>
    rw [hr] at settles
    refine ⟨Nat.succ_le_succ (length_resume settles.1), ?_, fun same => ?_⟩
    · exact settles.2.trans (List.prefix_append _ _)
    · -- The fault that is given up is noted.
      have := settles.2.length_le
      have := congrArg List.length same
      simp only [List.length_append, List.length_singleton] at this
      omega
  | starved =>
    rw [hr] at settles
    exact settles

theorem declarationRule_settles (h : Settles last n) (a : List Token)
    (deep : 32 * a.length + 20 ≤ n + 1) :
    Parse.Settles (Grammar.declarationRule last (n + 1)) a 1 fun b s => Declaration a b s [] := by
  unfold Grammar.declarationRule
  refine .accept ?_ fun _ => .accept ?_ fun _ => .accept ?_ fun _ => ?_
  · rintro word b rfl len hw
    exact (h.classRule b (by omega)).imp fun c s made => made word hw
  · rintro word b rfl len hw
    refine ((h.function .function b (by omega)).fewer (Nat.zero_le _)).bind fun code c _ => ?_
    exact .pure fun code => .ofFunction hw code
  · rintro word b rfl len hw
    exact (h.varRule b (by omega)).imp fun c s made => .ofVariables hw made
  · exact (h.statement a (by omega)).imp fun b s made => .statement made

theorem classRule_settles (h : Settles last n) (a : List Token)
    (deep : 32 * a.length + 1 ≤ n + 1) :
    Parse.Settles (Grammar.classRule last (n + 1)) a 0 fun b s =>
      ∀ word, word.isKeyword .class = true → Declaration (word :: a) b s [] := by
  unfold Grammar.classRule
  refine .expect ?_
  rintro name b rfl len hn
  refine .expect ?_
  rintro opened c rfl lenc ho
  refine (h.members c (by omega)).bind fun fs d lend => .expect ?_
  rintro closed e rfl _ hc
  exact .pure fun members word hw => .ofClass hw hn ho members hc

theorem members_settles (h : Settles last n) (a : List Token)
    (deep : 32 * a.length + 2 ≤ n + 1) :
    Parse.Settles (Grammar.members last (n + 1)) a 0 fun b fs => Members a b fs [] := by
  unfold Grammar.members
  refine settles_over ?_ ?_ ?_
  · rintro rfl
    exact .pure .ended
  · rintro t b rfl _ hc
    exact .pure (.closed hc)
  rintro t b rfl
  refine .accept ?_ fun _ => ?_
  · rintro word c eq len hw
    obtain ⟨rfl, rfl⟩ := List.cons.inj eq
    refine (h.function .method b (by omega)).bind fun code d lend => ?_
    refine (h.members d (by omega)).bind fun fs e _ => .pure fun others code => ?_
    exact .ofClass hw code others
  · refine (h.function .method (t :: b) (by omega)).bind fun code d lend => ?_
    refine (h.members d (by omega)).bind fun fs e _ => .pure fun others code => ?_
    exact .ofInstances code others

theorem function_settles (h : Settles last n) (callee : Callee) (a : List Token)
    (deep : 32 * a.length + 1 ≤ n + 1) :
    Parse.Settles (Grammar.function last (n + 1) callee) a 1 fun b code => Code a b code [] := by
  unfold Grammar.function
  refine .expect ?_
  rintro name b rfl len hn
  refine .expect ?_
  rintro opened c rfl lenc ho
  refine (params_settles h c (by omega)).bind fun names d lend => .expect ?_
  rintro brace e rfl lene hb
  refine (h.block e (by omega)).bind fun body f _ => .pure ?_
  rintro body ⟨closed, hc, params⟩
  exact .mk hn ho params hc hb body

theorem varRule_settles (h : Settles last n) (a : List Token)
    (deep : 32 * a.length + 2 ≤ n + 1) :
    Parse.Settles (Grammar.varRule last (n + 1)) a 0 fun b s => Variables a b s [] := by
  unfold Grammar.varRule
  refine (h.declarators a (by omega)).bind fun ds b len => .expect ?_
  rintro semicolon c rfl _ hs
  obtain ⟨first, others⟩ := ds
  cases others with
  | nil => exact .pure fun declarators => .mk declarators hs
  | cons => exact .pure fun declarators => .mk declarators hs

theorem declarators_settles (h : Settles last n) (a : List Token)
    (deep : 32 * a.length + 1 ≤ n + 1) :
    Parse.Settles (Grammar.declarators last (n + 1)) a 0 fun b ds => Declarators a b ds [] := by
  unfold Grammar.declarators
  refine .expect ?_
  rintro name b rfl len hn
  -- What follows the first declarator, which ends in front of `c`.
  have rest (initial : Option Expr) (c : List Token) (lenc : c.length ≤ b.length) :
      Parse.Settles (declaratorsBehind last n ⟨name, initial⟩) c 0 fun d ds =>
          Item (name :: b) c ⟨name, initial⟩ [] → Declarators (name :: b) d ds [] := by
    refine .accept ?_ fun stops => .pure fun first => .last first stops
    rintro comma d rfl lend hc
    refine (h.declarators d (by omega)).bind fun ds e _ => .pure fun others first => ?_
    exact .more first hc others
  refine .accept ?_ fun stops => ?_
  · rintro equals c rfl lenc he
    refine (h.expression c (by omega)).bind fun value d lend => ?_
    refine (Parse.Settles.pure (Q := fun e o => e = d ∧ o = some value) ⟨rfl, rfl⟩).bind
      fun o e lene => (rest o e (by omega)).imp fun f ds made => ?_
    rintro ⟨rfl, rfl⟩ value
    exact made (.initial hn he value)
  · refine (Parse.Settles.pure (Q := fun e o => e = b ∧ o = none) ⟨rfl, rfl⟩).bind
      fun o e lene => (rest o e (by omega)).imp fun f ds made => ?_
    rintro ⟨rfl, rfl⟩
    exact made (.bare hn stops)

theorem statement_settles (h : Settles last n) (a : List Token)
    (deep : 32 * a.length + 19 ≤ n + 1) :
    Parse.Settles (Grammar.statement last (n + 1)) a 1 fun b s => Statement a b s [] := by
  unfold Grammar.statement
  refine .accept ?_ fun _ => .accept ?_ fun _ => .accept ?_ fun _ => .take ?_ fun _ =>
    .accept ?_ fun _ => .accept ?_ fun _ => ?_
  · rintro word b rfl len hw
    exact (h.forRule b (by omega)).imp fun c s made => made word hw
  · rintro word b rfl len hw
    exact (h.ifRule b (by omega)).imp fun c s made => made word hw
  · rintro word b rfl len hw
    refine (h.expression b (by omega)).bind fun value c lenc => .expect ?_
    rintro semicolon d rfl _ hs
    exact .pure fun value => .ofPrint hw value hs
  · rintro word b rfl len hw
    exact (h.returnRule word b (by omega)).imp fun c s made => made hw
  · rintro word b rfl len hw
    exact (h.whileRule b (by omega)).imp fun c s made => made word hw
  · rintro opened b rfl len ho
    exact (h.block b (by omega)).bind fun body c _ => .pure fun body => .ofBlock ho body
  · refine (h.expressionRule a (by omega)).imp fun b s made => ?_
    obtain ⟨e, semicolon, rfl, hs, value⟩ := made
    exact .ofExpression value hs

theorem optional_settles (h : Settles last n) (p : Token → Bool) (a : List Token)
    (deep : 32 * a.length + 17 ≤ n) {α : Type} {l : Nat} {S : List Token → α → Prop}
    {cont : Option Expr → Parse α}
    (h' : ∀ o b, b.length ≤ a.length → Parse.Settles (cont o) b l fun c x => Maybe a b o [] → S c x) :
    Parse.Settles (optional last n p cont) a l S := by
  refine .next fun missing => ?_
  dsimp only
  split
  · refine (Parse.Settles.pure (Q := fun b o => b = a ∧ o = none) ⟨rfl, rfl⟩).bind
      fun o b len => (h' o b (by omega)).imp fun c x made => ?_
    rintro ⟨rfl, rfl⟩
    exact made .missing
  · refine (h.expression a deep).bind fun value b len => ?_
    refine (Parse.Settles.pure (Q := fun c o => c = b ∧ o = some value) ⟨rfl, rfl⟩).bind
      fun o c lenc => (h' o c (by omega)).imp fun d x made => ?_
    rintro ⟨rfl, rfl⟩ value
    exact made (.given value)

theorem forRule_settles (h : Settles last n) (a : List Token)
    (deep : 32 * a.length + 1 ≤ n + 1) :
    Parse.Settles (Grammar.forRule last (n + 1)) a 0 fun b s =>
      ∀ word, word.isKeyword .for = true → Statement (word :: a) b s [] := by
  unfold Grammar.forRule
  refine .expect ?_
  rintro opened b rfl len ho
  refine (h.forInitial b (by omega)).bind fun initial c lenc => ?_
  refine optional_settles h _ c (by omega) fun condition d lend => .expect ?_
  rintro semicolon e rfl lene hs
  refine optional_settles h _ e (by omega) fun increment f lenf => .expect ?_
  rintro closed g rfl leng hc
  refine ((h.statement g (by omega)).fewer (Nat.zero_le _)).bind fun body i _ => .pure ?_
  intro body increment condition initial word hw
  exact .ofFor hw ho initial condition hs increment hc body

theorem forInitial_settles (h : Settles last n) (a : List Token)
    (deep : 32 * a.length + 19 ≤ n + 1) :
    Parse.Settles (Grammar.forInitial last (n + 1)) a 0 fun b o => Initial a b o [] := by
  unfold Grammar.forInitial
  refine .accept ?_ fun _ => .accept ?_ fun _ => ?_
  · rintro semicolon b rfl _ hs
    exact .pure (.none hs)
  · rintro word b rfl len hw
    exact (h.varRule b (by omega)).bind fun s c _ => .pure fun made => .ofVariables hw made
  · refine ((h.expressionRule a (by omega)).fewer (Nat.zero_le _)).bind fun s b _ => .pure ?_
    rintro ⟨e, semicolon, rfl, hs, value⟩
    exact .ofExpression value hs

theorem ifRule_settles (h : Settles last n) (a : List Token)
    (deep : 32 * a.length + 1 ≤ n + 1) :
    Parse.Settles (Grammar.ifRule last (n + 1)) a 0 fun b s =>
      ∀ word, word.isKeyword .if = true → Statement (word :: a) b s [] := by
  unfold Grammar.ifRule
  refine .expect ?_
  rintro opened b rfl len ho
  refine (h.expression b (by omega)).bind fun condition c lenc => .expect ?_
  rintro closed d rfl lend hc
  refine ((h.statement d (by omega)).fewer (Nat.zero_le _)).bind fun whenTrue e lene => ?_
  refine .accept ?_ fun stops => .pure ?_
  · rintro other f rfl lenf he
    refine ((h.statement f (by omega)).fewer (Nat.zero_le _)).bind fun whenFalse g _ => .pure ?_
    intro whenFalse whenTrue condition word hw
    exact .ofIfElse hw ho condition hc whenTrue he whenFalse
  · intro whenTrue condition word hw
    exact .ofIf hw ho condition hc whenTrue stops

theorem returnRule_settles (h : Settles last n) (word : Token) (a : List Token)
    (deep : 32 * a.length + 18 ≤ n + 1) :
    Parse.Settles (Grammar.returnRule last (n + 1) word) a 0 fun b s =>
      word.isKeyword .return = true → Statement (word :: a) b s [] := by
  unfold Grammar.returnRule
  refine optional_settles h _ a (by omega) fun value b len => .expect ?_
  rintro semicolon c rfl _ hs
  exact .pure fun value hw => .ofReturn hw value hs

theorem whileRule_settles (h : Settles last n) (a : List Token)
    (deep : 32 * a.length + 1 ≤ n + 1) :
    Parse.Settles (Grammar.whileRule last (n + 1)) a 0 fun b s =>
      ∀ word, word.isKeyword .while = true → Statement (word :: a) b s [] := by
  unfold Grammar.whileRule
  refine .expect ?_
  rintro opened b rfl len ho
  refine (h.expression b (by omega)).bind fun condition c lenc => .expect ?_
  rintro closed d rfl lend hc
  refine ((h.statement d (by omega)).fewer (Nat.zero_le _)).bind fun body e _ => .pure ?_
  exact fun body condition word hw => .ofWhile hw ho condition hc body

theorem expressionRule_settles (h : Settles last n) (a : List Token)
    (deep : 32 * a.length + 18 ≤ n + 1) :
    Parse.Settles (Grammar.expressionRule last (n + 1)) a 1 fun b s =>
      ∃ e semicolon, s = .expression e ∧ semicolon.isSymbol .semicolon = true ∧
        Expression a (semicolon :: b) e [] := by
  unfold Grammar.expressionRule
  refine (h.expression a (by omega)).bind fun value b len => .expect ?_
  rintro semicolon c rfl _ hs
  exact .pure fun made => ⟨value, semicolon, rfl, hs, made⟩

theorem block_settles (h : Settles last n) (a : List Token)
    (deep : 32 * a.length + 23 ≤ n + 1) :
    Parse.Settles (Grammar.block last (n + 1)) a 0 fun b body => Block a b body [] := by
  unfold Grammar.block
  refine (h.declarations true a (by omega)).bind fun body b len => .expect ?_
  rintro closed c rfl _ hc
  exact .pure fun made => .mk made hc

theorem declarations_settles (h : Settles last n) (inBlock : Bool) (a : List Token)
    (deep : 32 * a.length + 22 ≤ n + 1) :
    Parse.Settles (Grammar.declarations last (n + 1) inBlock) a 0 fun b ss =>
      Declarations inBlock a b ss [] := by
  unfold Grammar.declarations
  refine settles_over ?_ ?_ ?_
  · rintro rfl
    exact .pure .ended
  · rintro t b rfl rfl hc
    exact .pure (.closed hc)
  · rintro t b rfl
    refine (h.declaration t b (by omega)).bind fun first c len => ?_
    refine (h.declarations inBlock c (by omega)).bind fun others d _ => .pure ?_
    rintro others ⟨s, rfl, first⟩
    exact .more first others

/-- All rules settle what the tokens are at every depth. -/
theorem settles (last : Token) : ∀ n, Settles last n
  | 0 => .zero last
  | n + 1 =>
    have h := settles last n
    { moreParams := moreParams_settles h
      expression := expression_settles h
      lambda := lambda_settles h
      lambdaBody := lambdaBody_settles h
      ternary := ternary_settles h
      operation := operation_settles h
      operand := operand_settles h
      moreOperation := moreOperation_settles h
      unary := unary_settles h
      moreCall := moreCall_settles h
      moreArguments := moreArguments_settles h
      primary := primary_settles h
      declaration := declaration_settles h
      declarationRule := declarationRule_settles h
      classRule := classRule_settles h
      members := members_settles h
      function := function_settles h
      varRule := varRule_settles h
      declarators := declarators_settles h
      statement := statement_settles h
      forRule := forRule_settles h
      forInitial := forInitial_settles h
      ifRule := ifRule_settles h
      returnRule := returnRule_settles h
      whileRule := whileRule_settles h
      expressionRule := expressionRule_settles h
      block := block_settles h
      declarations := declarations_settles h }

end

end Grammar

end LoxLang
