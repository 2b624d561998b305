import LoxLang.Proofs.Syntax.Beginnings
/-!
Readings are derivations. The tokens that a reading goes over derive from the rule of its name in the
relaxed dialect, and in the documented one too if the reading has no faults.

`Covers` puts a rule between two token lists, as readings are, so that the rules of the table are put
together from left to right.
-/
namespace LoxLang

open Ebnf

namespace Ebnf

variable {N : Type} {G : N → Ebnf N} {e : Ebnf N}

theorem Derives.snoc {many : Ebnf N} {u v : List Token} (h : Derives G many u) :
    many = .many e → Derives G e v → Derives G many (u ++ v) := by
  induction h with
  | done =>
    rintro ⟨⟩ h'
    simpa using Derives.more h' .done
  | more h _ _ ih =>
    rintro ⟨⟩ h'
    rw [List.append_assoc]
    exact .more h (ih rfl h')
  | _ => rintro ⟨⟩

end Ebnf

/-- From `a` to `b` the tokens derive from the rule `e`. -/
def Covers (d : Dialect) (e : Ebnf Nonterminal) (a b : List Token) : Prop :=
  ∃ u, a = u ++ b ∧ Ebnf.Derives d.rules e u

namespace Covers

variable {d : Dialect} {e f : Ebnf Nonterminal} {n : Nonterminal} {a b c : List Token} {t : Token}
  {p : Token → Bool}

theorem token (h : p t = true) : Covers d (.token p) (t :: b) b := ⟨[t], rfl, .token h⟩

theorem rule (h : Covers d (d.rules n) a b) : Covers d (.rule n) a b := by
  obtain ⟨u, rfl, h⟩ := h
  exact ⟨u, rfl, .rule h⟩

theorem seq (h : Covers d e a b) (h' : Covers d f b c) : Covers d (.seq e f) a c := by
  obtain ⟨u, rfl, h⟩ := h
  obtain ⟨v, rfl, h'⟩ := h'
  exact ⟨u ++ v, (List.append_assoc _ _ _).symm, .seq h h'⟩

theorem of_seq (h : Covers d (.seq e f) a c) : ∃ b, Covers d e a b ∧ Covers d f b c := by
  obtain ⟨w, rfl, h⟩ := h
  cases h with
  | seq h h' => exact ⟨_, ⟨_, List.append_assoc _ _ _, h⟩, ⟨_, rfl, h'⟩⟩

theorem left (h : Covers d e a b) : Covers d (.alt e f) a b := by
  obtain ⟨u, rfl, h⟩ := h
  exact ⟨u, rfl, .left h⟩

theorem right (h : Covers d f a b) : Covers d (.alt e f) a b := by
  obtain ⟨u, rfl, h⟩ := h
  exact ⟨u, rfl, .right h⟩

theorem absent : Covers d (.opt e) b b := ⟨[], rfl, .absent⟩

theorem present (h : Covers d e a b) : Covers d (.opt e) a b := by
  obtain ⟨u, rfl, h⟩ := h
  exact ⟨u, rfl, .present h⟩

theorem done : Covers d (.many e) b b := ⟨[], rfl, .done⟩

theorem more (h : Covers d e a b) (h' : Covers d (.many e) b c) : Covers d (.many e) a c := by
  obtain ⟨u, rfl, h⟩ := h
  obtain ⟨v, rfl, h'⟩ := h'
  exact ⟨u ++ v, (List.append_assoc _ _ _).symm, .more h h'⟩

theorem enough {bound : Nat} : Covers d (.atMost bound e) b b := ⟨[], rfl, .enough⟩

theorem another {bound : Nat} (h : Covers d e a b) (h' : Covers d (.atMost bound e) b c) :
    Covers d (.atMost (bound + 1) e) a c := by
  obtain ⟨u, rfl, h⟩ := h
  obtain ⟨v, rfl, h'⟩ := h'
  exact ⟨u ++ v, (List.append_assoc _ _ _).symm, .another h h'⟩

theorem snoc (h : Covers d (.rule n) a b) (hn : d.rules n = .seq e (.many f))
    (h' : Covers d f b c) : Covers d (.rule n) a c := by
  obtain ⟨u, rfl, h⟩ := h
  obtain ⟨w, rfl, h'⟩ := h'
  cases h with
  | rule h =>
    rw [hn] at h
    cases h with
    | seq h hm =>
      refine ⟨_, (List.append_assoc _ w c).symm, .rule ?_⟩
      rw [hn, List.append_assoc]
      exact .seq h (hm.snoc rfl h')

end Covers

namespace Dialect

/-- What stands between parentheses behind `count` others, divided by commas. -/
def dividedFrom (d : Dialect) (count : Nat) (e : Ebnf Nonterminal) : Ebnf Nonterminal :=
  .seq e (match d with
    | documented => .atMost (maxArity - 1 - count) (.seq (symbol .comma) e)
    | relaxed => .many (.seq (symbol .comma) e))

variable {d : Dialect} {e : Ebnf Nonterminal} {count : Nat} {a b c : List Token}

theorem covers_dividedFrom_last (h : Covers d e a b) : Covers d (d.dividedFrom count e) a b := by
  refine h.seq ?_
  cases d with
  | documented => exact .enough
  | relaxed => exact .done

theorem covers_dividedFrom_more {comma : Token} (room : d = documented → count + 1 < maxArity)
    (h : Covers d e a (comma :: b)) (hc : comma.isSymbol .comma = true)
    (h' : Covers d (d.dividedFrom (count + 1) e) b c) : Covers d (d.dividedFrom count e) a c := by
  refine h.seq ?_
  obtain ⟨b', first, others⟩ := h'.of_seq
  have next : Covers d (.seq (symbol .comma) e) (comma :: b) b' := .seq (.token hc) first
  cases d with
  | documented =>
    -- Only this dialect counts, and there is room for one more.
    have one : maxArity - 1 - count = maxArity - 1 - (count + 1) + 1 := by
      have := room rfl
      omega
    dsimp only
    rw [one]
    exact .another next others
  | relaxed => exact .more next others

theorem room_of_clean {fault : SyntaxFault} {t : Token} (clean : d.Clean (excess fault count t)) :
    d = documented → count < maxArity := by
  intro eq
  have := clean eq
  unfold excess at this
  split at this
  · cases this
  · rename_i room
    exact Nat.lt_of_not_le room

theorem clean_excess {fault : SyntaxFault} {t : Token} (room : d = documented → count < maxArity) :
    d.Clean (excess fault count t) := by
  intro eq
  exact if_neg (Nat.not_le_of_lt (room eq))

end Dialect

namespace Reading

open Grammar Dialect

variable {d : Dialect}

/-- Behind `a` an expression stands that can be assigned to, if its tree can. -/
def Assignable (d : Dialect) (e : Expr) (a b : List Token) : Prop := match e with
  | .variable name _ => a = name :: b ∧ name.isIdentifier = true
  | .property _ name => ∃ dot : Token, dot.isSymbol .dot = true ∧ name.isIdentifier = true ∧
      Covers d (.rule .call) a (dot :: name :: b)
  | _ => True

theorem Names.room : ∀ {count a b names vs}, Names count a b names vs → d.Clean vs →
    d = documented → count < maxArity
  | _, _, _, _, _, .last _ _, clean => room_of_clean clean
  | _, _, _, _, _, .more _ _ _, clean => room_of_clean (clean_append.mp clean).1

theorem Names.covers : ∀ {count a b names vs}, Names count a b names vs → d.Clean vs →
    Covers d (d.dividedFrom count name) a b
  | _, _, _, _, _, .last h _, _ => covers_dividedFrom_last (.token h)
  | _, _, _, _, _, .more h hc others, clean => by
    have clean := (clean_append.mp clean).2
    exact covers_dividedFrom_more (others.room clean) (.token h) hc (others.covers clean)

theorem Params.covers : ∀ {a b names vs}, Params a b names vs → d.Clean vs →
    Covers d (.opt (.rule .parameters)) a b
  | _, _, _, _, .none, _ => .absent
  | _, _, _, _, .some h, clean => .present (.rule (h.covers clean))

theorem covers_operator {level : Level} {op : Token} {b : List Token}
    (h : level.isOperator op = true) : Covers d level.operators (op :: b) b := by
  obtain ⟨kind, lexeme, line⟩ := op
  unfold Level.isOperator at h
  split at h
  case h_1 eq =>
    cases eq
    exact .token rfl
  case h_2 eq =>
    cases eq
    exact .token rfl
  case h_3 eq =>
    cases eq
    simp only [Bool.or_eq_true, beq_iff_eq] at h
    rcases h with rfl | rfl
    · exact .left (.token rfl)
    · exact .right (.token rfl)
  case h_4 eq =>
    cases eq
    simp only [Bool.or_eq_true, beq_iff_eq] at h
    rcases h with ((rfl | rfl) | rfl) | rfl
    · exact .left (.token rfl)
    · exact .right (.left (.token rfl))
    · exact .right (.right (.left (.token rfl)))
    · exact .right (.right (.right (.token rfl)))
  case h_5 eq =>
    cases eq
    simp only [Bool.or_eq_true, beq_iff_eq] at h
    rcases h with rfl | rfl
    · exact .left (.token rfl)
    · exact .right (.token rfl)
  case h_6 eq =>
    cases eq
    simp only [Bool.or_eq_true, beq_iff_eq] at h
    rcases h with (rfl | rfl) | rfl
    · exact .left (.token rfl)
    · exact .right (.left (.token rfl))
    · exact .right (.right (.token rfl))
  case h_7 => cases h

theorem covers_unaryOperator {op : Token} {b : List Token} (h : isUnaryOperator op = true) :
    Covers d (.alt (symbol .bang) (symbol .minus)) (op :: b) b := by
  rcases Bool.or_eq_true_iff.mp h with h | h
  · exact .left (.token h)
  · exact .right (.token h)

/-- The expression of a single token is primary, and can be assigned to if it is a name. -/
theorem covers_atom {t : Token} {b : List Token} {e : Expr} (h : atom? t = some e) :
    Covers d (.rule .primary) (t :: b) b ∧ Assignable d e (t :: b) b := by
  obtain ⟨kind, lexeme, line⟩ := t
  refine ⟨.rule ?_, ?_⟩
  · unfold atom? at h
    split at h
    case h_1 eq => cases eq; exact .right (.right (.right (.left (.token rfl))))
    case h_2 eq => cases eq; exact .right (.right (.left (.token rfl)))
    case h_3 eq => cases eq; exact .right (.right (.right (.right (.left (.token rfl)))))
    case h_4 eq => cases eq; exact .left (.token rfl)
    case h_5 eq => cases eq; exact .right (.left (.token rfl))
    case h_6 eq => cases eq; exact .right (.right (.right (.right (.right (.left (.token rfl))))))
    case h_7 eq =>
      cases eq
      exact .right (.right (.right (.right (.right (.right (.left (.token rfl)))))))
    case h_8 => cases h
  · unfold atom? at h
    split at h
    case h_7 eq =>
      cases eq
      cases h
      exact ⟨rfl, rfl⟩
    all_goals
      cases h
      try trivial

theorem assignable_join {level : Level} {left right : Expr} {op : Token} {a b : List Token} :
    Assignable d (level.join left op right) a b := by
  cases level
  all_goals trivial

theorem operands_of_tighter {level tighter : Level} (h : level.tighter? = some tighter) :
    level.operands = .operation tighter := by
  cases level <;> cases h <;> rfl

theorem operands_of_tightest {level : Level} (h : level.tighter? = none) :
    level.operands = .unary := by
  cases level with
  | factor => rfl
  | _ => cases h

theorem covers_target {target : Expr} {equals : Token} {a b : List Token}
    (h : Covers d (.rule .lambda) a (equals :: b)) (assignable : Assignable d target a (equals :: b))
    (he : equals.isSymbol .equal = true) (clean : d.Clean (target.targetFaults equals)) :
    Covers d d.target a b := by
  cases d with
  | relaxed => exact h.seq (.token he)
  | documented =>
    -- What is no fault to assign to is a name or a property, and these the dialect writes out.
    cases target with
    | «variable» name depth =>
      obtain ⟨rfl, hn⟩ := assignable
      exact Covers.absent.seq ((Covers.token hn).seq (.token he))
    | property object name =>
      obtain ⟨dot, hd, hn, call⟩ := assignable
      exact (Covers.present (call.seq (.token hd))).seq ((Covers.token hn).seq (.token he))
    | _ => cases clean rfl

mutual

theorem Expression.covers : ∀ {a b e vs}, Expression a b e vs → d.Clean vs →
    Covers d (.rule .assignment) a b
  | _, _, _, _, .plain h _, clean => .rule (.right (Lambda.covers h clean).1)
  | _, _, _, _, .assign h he hv, clean => by
    have ⟨first, clean⟩ := clean_append.mp clean
    have ⟨second, target⟩ := clean_append.mp clean
    have left := Lambda.covers h first
    exact .rule (.left ((covers_target left.1 left.2 he target).seq (Expression.covers hv second)))

theorem Lambda.covers : ∀ {a b e vs}, Lambda a b e vs → d.Clean vs →
    Covers d (.rule .lambda) a b ∧ Assignable d e a b
  | _, _, _, _, .function hk ho hp hc hb, clean => by
    have ⟨first, second⟩ := clean_append.mp clean
    refine ⟨.rule (.left ?_), trivial⟩
    refine (Covers.token hk).seq ((Covers.token ho).seq ((hp.covers first).seq ?_))
    exact (Covers.token hc).seq (LambdaBody.covers hb second)
  | _, _, _, _, .ternary h, clean => by
    have := Ternary.covers h clean
    exact ⟨.rule (.right this.1), this.2⟩

theorem LambdaBody.covers : ∀ {a b body vs}, LambdaBody a b body vs → d.Clean vs →
    Covers d (.alt (.rule .block) d.bodyExpression) a b
  | _, _, _, _, .block ho h, clean => .left (.rule ((Covers.token ho).seq (Block.covers h clean)))
  | _, _, _, _, .expression h, clean => by
    have value : Covers d (.rule .expression) _ _ := .rule (Expression.covers h clean)
    cases d with
    | documented => exact .right value
    | relaxed => exact .right (Covers.absent.seq value)
  | _, _, _, _, .returning hk h, clean => by
    have value : Covers d (.rule .expression) _ _ := .rule (Expression.covers h clean.of_cons)
    cases d with
    | documented => cases clean rfl
    | relaxed => exact .right ((Covers.present (.token hk)).seq value)

theorem Ternary.covers : ∀ {a b e vs}, Ternary a b e vs → d.Clean vs →
    Covers d (.rule .ternary) a b ∧ Assignable d e a b
  | _, _, _, _, .plain h _, clean => by
    have := Operation.covers h clean
    exact ⟨.rule (this.1.seq .absent), this.2⟩
  | _, _, _, _, .choice h hq ht hc hf, clean => by
    have ⟨first, clean⟩ := clean_append.mp clean
    have ⟨second, third⟩ := clean_append.mp clean
    refine ⟨.rule ((Operation.covers h first).1.seq (.present ?_)), trivial⟩
    refine (Covers.token hq).seq ((Ternary.covers ht second).1.seq ((Covers.token hc).seq ?_))
    exact (Ternary.covers hf third).1

theorem Operation.covers : ∀ {level a b e vs}, Operation level a b e vs → d.Clean vs →
    Covers d (.rule (.operation level)) a b ∧ Assignable d e a b
  | _, _, _, _, _, .chain h hr, clean => by
    have ⟨first, second⟩ := clean_append.mp clean
    have operand := Operand.covers h first
    exact Operators.covers hr second (.rule (operand.1.seq .done)) operand.2

theorem Operand.covers : ∀ {level a b e vs}, Operand level a b e vs → d.Clean vs →
    Covers d (.rule level.operands) a b ∧ Assignable d e a b
  | _, _, _, _, _, .tighter hl h, clean => by
    rw [operands_of_tighter hl]
    exact Operation.covers h clean
  | _, _, _, _, _, .unary hl h, clean => by
    rw [operands_of_tightest hl]
    exact Unary.covers h clean

theorem Operators.covers : ∀ {level left a b e vs}, Operators level left a b e vs → d.Clean vs →
    ∀ {a₀}, Covers d (.rule (.operation level)) a₀ a → Assignable d left a₀ a →
      Covers d (.rule (.operation level)) a₀ b ∧ Assignable d e a₀ b
  | _, _, _, _, _, _, .done _, _, _, before, assignable => ⟨before, assignable⟩
  | _, _, _, _, _, _, .more ho h hr, clean, _, before, _ => by
    have ⟨first, second⟩ := clean_append.mp clean
    have step := (covers_operator ho).seq (Operand.covers h first).1
    exact Operators.covers hr second (before.snoc rfl step) assignable_join

theorem Unary.covers : ∀ {a b e vs}, Unary a b e vs → d.Clean vs →
    Covers d (.rule .unary) a b ∧ Assignable d e a b
  | _, _, _, _, .operator ho h, clean =>
    ⟨.rule (.left ((covers_unaryOperator ho).seq (Unary.covers h clean).1)), trivial⟩
  | _, _, _, _, .call h hr, clean => by
    have ⟨first, second⟩ := clean_append.mp clean
    have primary := Primary.covers h first
    have call := Calls.covers hr second (.rule (primary.1.seq .done)) primary.2
    exact ⟨.rule (.right call.1), call.2⟩

theorem Calls.covers : ∀ {callee a b e vs}, Calls callee a b e vs → d.Clean vs →
    ∀ {a₀}, Covers d (.rule .call) a₀ a → Assignable d callee a₀ a →
      Covers d (.rule .call) a₀ b ∧ Assignable d e a₀ b
  | _, _, _, _, _, .done _ _, _, _, before, assignable => ⟨before, assignable⟩
  | _, _, _, _, _, .call ho ha hc hr, clean, _, before, _ => by
    have ⟨first, second⟩ := clean_append.mp clean
    refine Calls.covers hr second (before.snoc rfl (.left ?_)) trivial
    exact (Covers.token ho).seq ((Passed.covers ha first).seq (.token hc))
  | _, _, _, _, _, .property hd hn hr, clean, _, before, _ => by
    refine Calls.covers hr clean (before.snoc rfl (.right ?_)) ⟨_, hd, hn, before⟩
    exact (Covers.token hd).seq (.token hn)

theorem Passed.covers : ∀ {a b es vs}, Passed a b es vs → d.Clean vs →
    Covers d (.opt (.rule .arguments)) a b
  | _, _, _, _, .none, _ => .absent
  | _, _, _, _, .some h, clean => .present (.rule (Arguments.covers h clean).2)

theorem Arguments.covers : ∀ {count a b es vs}, Arguments count a b es vs → d.Clean vs →
    (d = documented → count < maxArity) ∧ Covers d (d.dividedFrom count (.rule .expression)) a b
  | _, _, _, _, _, .last h _, clean => by
    have ⟨first, second⟩ := clean_append.mp clean
    exact ⟨room_of_clean first, covers_dividedFrom_last (.rule (Expression.covers h second))⟩
  | _, _, _, _, _, .more h hc others, clean => by
    have ⟨first, clean⟩ := clean_append.mp clean
    have ⟨second, third⟩ := clean_append.mp clean
    have ⟨room, others⟩ := Arguments.covers others third
    refine ⟨room_of_clean first, ?_⟩
    exact covers_dividedFrom_more room (.rule (Expression.covers h second)) hc others

theorem Primary.covers : ∀ {a b e vs}, Primary a b e vs → d.Clean vs →
    Covers d (.rule .primary) a b ∧ Assignable d e a b
  | _, _, _, _, .atom h, _ => covers_atom h
  | _, _, _, _, .group ho h hc, clean => by
    have group := (Covers.token ho).seq
      ((Covers.rule (Expression.covers h clean) (n := .expression)).seq (.token hc))
    refine ⟨.rule ?_, trivial⟩
    exact .right (.right (.right (.right (.right (.right (.right group))))))

theorem Declaration.covers : ∀ {a b s vs}, Declaration a b s vs → d.Clean vs →
    Covers d (.rule .declaration) a b
  | _, _, _, _, .ofClass hw hn ho h hc, clean => by
    have members := Members.covers h clean
    refine .rule (.left (.rule ((Covers.token hw).seq ((Covers.token hn).seq ?_))))
    exact (Covers.token ho).seq (members.seq (.token hc))
  | _, _, _, _, .ofFunction hw h, clean =>
    .rule (.right (.left (.rule ((Covers.token hw).seq (Code.covers h clean)))))
  | _, _, _, _, .ofVariables hw h, clean =>
    .rule (.right (.right (.left (Variables.covers h clean hw))))
  | _, _, _, _, .statement h, clean =>
    .rule (.right (.right (.right (Statement.covers h clean))))

theorem Members.covers : ∀ {a b fs vs}, Members a b fs vs → d.Clean vs →
    Covers d (.many (.seq (.opt (keyword .class)) (.rule .function))) a b
  | _, _, _, _, .ended, _ => .done
  | _, _, _, _, .closed _, _ => .done
  | _, _, _, _, .ofClass hw h others, clean => by
    have ⟨first, second⟩ := clean_append.mp clean
    have member := (Covers.present (.token hw)).seq (Code.covers h first)
    exact .more member (Members.covers others second)
  | _, _, _, _, .ofInstances h others, clean => by
    have ⟨first, second⟩ := clean_append.mp clean
    exact .more (Covers.absent.seq (Code.covers h first)) (Members.covers others second)

theorem Code.covers : ∀ {a b code vs}, Code a b code vs → d.Clean vs →
    Covers d (.rule .function) a b
  | _, _, _, _, .mk hn ho hp hc hb h, clean => by
    have ⟨first, second⟩ := clean_append.mp clean
    refine .rule ((Covers.token hn).seq ((Covers.token ho).seq ((hp.covers first).seq ?_)))
    exact (Covers.token hc).seq (.rule ((Covers.token hb).seq (Block.covers h second)))

theorem Variables.covers : ∀ {a b s vs}, Variables a b s vs → d.Clean vs →
    ∀ {word : Token}, word.isKeyword .var = true → Covers d (.rule .varDecl) (word :: a) b
  | _, _, _, _, .mk h hs, clean, _, hw => by
    obtain ⟨c, first, others⟩ := Declarators.covers h clean
    exact .rule ((Covers.token hw).seq (first.seq (others.seq (.token hs))))

theorem Declarators.covers : ∀ {a b ds vs}, Declarators a b ds vs → d.Clean vs →
    ∃ c, Covers d (.rule .varItem) a c ∧
      Covers d (.many (.seq (symbol .comma) (.rule .varItem))) c b
  | _, _, _, _, .last h _, clean => ⟨_, Item.covers h clean, .done⟩
  | _, _, _, _, .more h hc ho, clean => by
    have ⟨first, second⟩ := clean_append.mp clean
    obtain ⟨c, item, others⟩ := Declarators.covers ho second
    exact ⟨_, Item.covers h first, .more ((Covers.token hc).seq item) others⟩

theorem Item.covers : ∀ {a b item vs}, Item a b item vs → d.Clean vs →
    Covers d (.rule .varItem) a b
  | _, _, _, _, .bare hn _, _ => .rule ((Covers.token hn).seq .absent)
  | _, _, _, _, .initial hn he h, clean => by
    have value : Covers d (.rule .expression) _ _ := .rule (Expression.covers h clean)
    exact .rule ((Covers.token hn).seq (.present ((Covers.token he).seq value)))

theorem Statement.covers : ∀ {a b s vs}, Statement a b s vs → d.Clean vs →
    Covers d (.rule .statement) a b
  | _, _, _, _, .ofExpression h hs, clean => by
    have value : Covers d (.rule .expression) _ _ := .rule (Expression.covers h clean)
    exact .rule (.left (.rule (value.seq (.token hs))))
  | _, _, _, _, .ofFor hw ho hi hn hs hx hc hb, clean => by
    have ⟨first, clean⟩ := clean_append.mp clean
    have ⟨second, clean⟩ := clean_append.mp clean
    have ⟨third, fourth⟩ := clean_append.mp clean
    refine .rule (.right (.left (.rule ?_)))
    refine (Covers.token hw).seq ((Covers.token ho).seq ((Initial.covers hi first).seq ?_))
    refine (Maybe.covers hn second).seq ((Covers.token hs).seq ((Maybe.covers hx third).seq ?_))
    exact (Covers.token hc).seq (Statement.covers hb fourth)
  | _, _, _, _, .ofIf hw ho h hc ht _, clean => by
    have ⟨first, second⟩ := clean_append.mp clean
    have value : Covers d (.rule .expression) _ _ := .rule (Expression.covers h first)
    refine .rule (.right (.right (.left (.rule ?_))))
    refine (Covers.token hw).seq ((Covers.token ho).seq (value.seq ((Covers.token hc).seq ?_)))
    exact (Statement.covers ht second).seq .absent
  | _, _, _, _, .ofIfElse hw ho h hc ht he hf, clean => by
    have ⟨first, clean⟩ := clean_append.mp clean
    have ⟨second, third⟩ := clean_append.mp clean
    have value : Covers d (.rule .expression) _ _ := .rule (Expression.covers h first)
    refine .rule (.right (.right (.left (.rule ?_))))
    refine (Covers.token hw).seq ((Covers.token ho).seq (value.seq ((Covers.token hc).seq ?_)))
    refine (Statement.covers ht second).seq (.present ((Covers.token he).seq ?_))
    exact Statement.covers hf third
  | _, _, _, _, .ofPrint hw h hs, clean => by
    have value : Covers d (.rule .expression) _ _ := .rule (Expression.covers h clean)
    refine .rule (.right (.right (.right (.left (.rule ?_)))))
    exact (Covers.token hw).seq (value.seq (.token hs))
  | _, _, _, _, .ofReturn hw h hs, clean => by
    refine .rule (.right (.right (.right (.right (.left (.rule ?_))))))
    exact (Covers.token hw).seq ((Maybe.covers h clean).seq (.token hs))
  | _, _, _, _, .ofWhile hw ho h hc hb, clean => by
    have ⟨first, second⟩ := clean_append.mp clean
    have value : Covers d (.rule .expression) _ _ := .rule (Expression.covers h first)
    refine .rule (.right (.right (.right (.right (.right (.left (.rule ?_)))))))
    refine (Covers.token hw).seq ((Covers.token ho).seq (value.seq ((Covers.token hc).seq ?_)))
    exact Statement.covers hb second
  | _, _, _, _, .ofBlock ho h, clean => by
    refine .rule (.right (.right (.right (.right (.right (.right (.rule ?_)))))))
    exact (Covers.token ho).seq (Block.covers h clean)

theorem Initial.covers : ∀ {a b o vs}, Initial a b o vs → d.Clean vs →
    Covers d (oneOf [.rule .varDecl, .rule .exprStmt] (symbol .semicolon)) a b
  | _, _, _, _, .none hs, _ => .right (.right (.token hs))
  | _, _, _, _, .ofVariables hw h, clean => .left (Variables.covers h clean hw)
  | _, _, _, _, .ofExpression h hs, clean => by
    have value : Covers d (.rule .expression) _ _ := .rule (Expression.covers h clean)
    exact .right (.left (.rule (value.seq (.token hs))))

theorem Maybe.covers : ∀ {a b o vs}, Maybe a b o vs → d.Clean vs →
    Covers d (.opt (.rule .expression)) a b
  | _, _, _, _, .missing, _ => .absent
  | _, _, _, _, .given h, clean => .present (.rule (Expression.covers h clean))

theorem Block.covers : ∀ {a b body vs}, Block a b body vs → d.Clean vs →
    Covers d (.seq (.many (.rule .declaration)) (symbol .rightBrace)) a b
  | _, _, _, _, .mk h hc, clean => (Declarations.covers h clean).seq (.token hc)

theorem Declarations.covers : ∀ {inBlock a b ss vs}, Declarations inBlock a b ss vs → d.Clean vs →
    Covers d (.many (.rule .declaration)) a b
  | _, _, _, _, _, .ended, _ => .done
  | _, _, _, _, _, .closed _, _ => .done
  | _, _, _, _, _, .more h others, clean => by
    have ⟨first, second⟩ := clean_append.mp clean
    exact .more (Declaration.covers h first) (Declarations.covers others second)

end

/-- What is read to the end derives in the relaxed dialect, and in the documented one without faults. -/
theorem Program.derives {front : List Token} {last : Token} {program : List Stmt}
    {vs : List SyntaxError} (h : Program front program vs) (ends : last.isEof = true)
    (clean : d.Clean vs) : d.Derives .program (front ++ [last]) := by
  obtain ⟨u, rfl, derived⟩ := Declarations.covers h clean
  rw [List.append_nil]
  exact .rule (.seq derived (.token ends))

end Reading

end LoxLang
