import LoxLang.Proofs.Syntax.Uniform
/-!
Reading goes forward, and sees nothing of what it does not reach. A rule ends at a cursor over the last
of the tokens it was given (`Grammar.advances`). Where it leaves a token unread, it does the same whatever
stands behind the tokens, whatever faults were noted before and at every greater depth
(`Grammar.locality`); so the depth of a reading that ends is of no account (`Grammar.deeper`).
-/
namespace LoxLang

namespace Reply

variable {α β : Type}

/-- The cursor that reading ends with, unless it runs out of depth. -/
def cursor? : Reply α → Option Cursor
  | .ok _ c => some c
  | .fail _ c => some c
  | .starved => none

/-- The same with these tokens behind the others and these faults noted before the others. -/
def within (behind : List Token) (before : List SyntaxError) : Reply α → Reply α
  | .ok x c => .ok x ⟨c.rest ++ behind, before ++ c.errors⟩
  | .fail e c => .fail e ⟨c.rest ++ behind, before ++ c.errors⟩
  | .starved => .starved

@[simp]
theorem within_nil (r : Reply α) : r.within [] [] = r := by
  cases r <;> simp [within]

end Reply

namespace Grammar

theorem resumeAfter_suffix : ∀ (previous : Token) (a : List Token), resumeAfter previous a <:+ a
  | _, [] => List.suffix_refl _
  | previous, t :: ts => by
    unfold resumeAfter
    split
    · exact List.suffix_refl _
    · exact (resumeAfter_suffix t ts).trans (List.suffix_cons t ts)

theorem resume_suffix_tail : ∀ a : List Token, resume a <:+ a.tail
  | [] => List.suffix_refl _
  | t :: ts => resumeAfter_suffix t ts

theorem resume_suffix (a : List Token) : resume a <:+ a :=
  (resume_suffix_tail a).trans (List.tail_suffix a)

/-- A boundary that is found stays where it is whatever stands behind. -/
theorem resumeAfter_append (b : List Token) : ∀ (previous : Token) (a : List Token),
    resumeAfter previous a ≠ [] → resumeAfter previous (a ++ b) = resumeAfter previous a ++ b
  | _, [] => fun found => absurd rfl found
  | previous, t :: ts => by
    intro found
    rw [List.cons_append]
    unfold resumeAfter at found ⊢
    split at found
    · rename_i here
      rw [if_pos here, if_pos here]
      rfl
    · rename_i there
      rw [if_neg there, if_neg there]
      exact resumeAfter_append b t ts found

theorem resume_append {a : List Token} (b : List Token) (found : resume a ≠ []) :
    resume (a ++ b) = resume a ++ b := by
  cases a with
  | nil => exact absurd rfl found
  | cons t ts => exact resumeAfter_append b t ts found

end Grammar

namespace Parse

variable {α β : Type} {rule rule' : Parse α} {cont cont' : α → Parse β} {b : List Token}

/-- Reading ends at a cursor over the last of its tokens. -/
def Advances (rule : Parse α) : Prop := ∀ c d, (rule c).cursor? = some d → d.rest <:+ c.rest

theorem Advances.bind (h : Advances rule) (h' : ∀ x, Advances (cont x)) :
    Advances (rule >>= cont) := by
  intro c d ended
  have first := h c
  rw [bind_apply] at ended
  cases made : rule c with
  | ok x e =>
    rw [made] at first ended
    exact (h' x e d ended).trans (first e rfl)
  | fail e f =>
    rw [made] at first ended
    exact first d ended
  | starved =>
    rw [made] at ended
    cases ended

theorem Advances.steps {g : Token → Option α} {y : α} (h : Steps rule g y) : Advances rule := by
  rintro ⟨a, errors⟩ d ended
  cases a with
  | nil =>
    rw [(h errors).1] at ended
    cases ended
    exact List.suffix_refl _
  | cons t ts =>
    rw [(h errors).2] at ended
    cases made : g t with
    | none =>
      rw [made] at ended
      cases ended
      exact List.suffix_refl _
    | some x =>
      rw [made] at ended
      cases ended
      exact List.suffix_cons t ts

theorem Advances.resuming (h : Advances rule) : Advances (resuming rule) := by
  intro c d ended
  have first := h c
  unfold Parse.resuming at ended
  cases made : rule c with
  | ok x e =>
    rw [made] at first ended
    exact first d ended
  | fail e f =>
    rw [made] at first ended
    cases ended
    exact (Grammar.resume_suffix _).trans (first f rfl)
  | starved =>
    rw [made] at ended
    cases ended

theorem Advances.compositional : Compositional fun rule _ => Advances rule where
  starved _ := by rintro c d ⟨⟩
  pure := by
    rintro _ x c d ⟨⟩
    exact List.suffix_refl _
  bind := Advances.bind
  report := by
    rintro fault t c d ⟨⟩
    exact List.suffix_refl _
  fail := by
    rintro _ last fault c d ⟨⟩
    exact List.suffix_refl _
  looks h := by
    intro c d ended
    rw [h c] at ended
    cases ended
    exact List.suffix_refl _
  steps := Advances.steps
  resuming := Advances.resuming

/-- The rule `rule'` does what `rule` does with other faults noted before, and with `b` behind the tokens
if some token is left unread. -/
def Local (b : List Token) (rule rule' : Parse α) : Prop :=
  ∀ c before, (∀ d, (rule c).cursor? = some d → d.rest ≠ [] ∨ b = []) →
    rule c = .starved ∨ rule' ⟨c.rest ++ b, before ++ c.errors⟩ = (rule c).within b before

theorem Local.pure {x : α} : Local b (pure x) (pure x) := fun _ _ _ => .inr rfl

theorem Local.bind (h : Local b rule rule') (h' : ∀ x, Local b (cont x) (cont' x))
    (forward : ∀ x, Advances (cont x)) : Local b (rule >>= cont) (rule' >>= cont') := by
  intro c before left
  have first := h c before
  rw [bind_apply] at left ⊢
  rw [bind_apply]
  cases made : rule c with
  | starved => exact .inl rfl
  | fail e d =>
    rw [made] at first left
    rw [(first left).resolve_left nofun]
    exact .inr rfl
  | ok x d =>
    rw [made] at first left
    dsimp only at left ⊢
    by_cases out : cont x d = .starved
    · exact .inl out
    -- What the whole leaves unread, its first part has left.
    have unread : d.rest ≠ [] ∨ b = [] := by
      obtain ⟨f, ended⟩ : ∃ f, (cont x d).cursor? = some f := by
        cases second : cont x d with
        | ok y f => exact ⟨f, rfl⟩
        | fail e f => exact ⟨f, rfl⟩
        | starved => exact absurd second out
      refine (left f ended).imp_left fun some none => some ?_
      have within := forward x d f ended
      rwa [none, List.suffix_nil] at within
    rw [(first (by rintro _ ⟨⟩; exact unread)).resolve_left nofun]
    exact h' x d before left

theorem Local.report {fault : SyntaxFault} {t : Token} :
    Local b (report fault t) (report fault t) := by
  intro c before _
  exact .inr (by simp [Parse.report, Reply.within])

theorem Local.looks {g : Option Token → α} (h : Looks rule g) : Local b rule rule := by
  intro c before left
  rw [h, h] at *
  refine .inr ?_
  rcases left c rfl with unread | rfl
  · obtain ⟨t, ts, same⟩ := List.exists_cons_of_ne_nil unread
    simp [Reply.within, same]
  · simp [Reply.within]

theorem Local.fail {last : Token} {fault : SyntaxFault} :
    Local b (fail last fault : Parse α) (fail last fault) := by
  intro c before left
  refine .inr ?_
  rcases left c rfl with unread | rfl
  · obtain ⟨t, ts, same⟩ := List.exists_cons_of_ne_nil unread
    simp [Parse.fail, Reply.within, same]
  · simp [Parse.fail, Reply.within]

theorem Local.steps {g : Token → Option α} {y : α} (h : Steps rule g y) : Local b rule rule := by
  rintro ⟨a, errors⟩ before left
  refine .inr ?_
  cases a with
  | nil =>
    rw [(h errors).1] at left ⊢
    obtain rfl := (left _ rfl).resolve_left fun unread => unread rfl
    exact (h (before ++ errors)).1
  | cons t ts =>
    dsimp only [List.cons_append]
    rw [(h errors).2, (h (before ++ errors)).2]
    cases g t <;> rfl

theorem Local.resuming (h : Local b rule rule') : Local b (resuming rule) (resuming rule') := by
  intro c before left
  have first := h c before
  unfold Parse.resuming at left ⊢
  cases made : rule c with
  | starved => exact .inl rfl
  | ok x d =>
    rw [made] at first left
    rw [(first left).resolve_left nofun]
    exact .inr rfl
  | fail e d =>
    rw [made] at first left
    have resumed := left _ rfl
    have unread : d.rest ≠ [] ∨ b = [] := by
      refine resumed.imp_left fun some none => some ?_
      simp [none, Grammar.resume]
    rw [(first (by rintro _ ⟨⟩; exact unread)).resolve_left nofun]
    refine .inr ?_
    rcases resumed with some | rfl
    · simp [Reply.within, Grammar.resume_append b some]
    · simp [Reply.within]

theorem Local.compositional (b : List Token) :
    Compositional fun rule rule' => Advances rule ∧ Local b rule rule' where
  starved rule := ⟨Advances.compositional.starved rule, fun _ _ _ => .inl rfl⟩
  pure x := ⟨Advances.compositional.pure x, .pure⟩
  bind h h' := ⟨h.1.bind fun x => (h' x).1, h.2.bind (fun x => (h' x).2) fun x => (h' x).1⟩
  report fault t := ⟨Advances.compositional.report fault t, .report⟩
  fail last fault := ⟨Advances.compositional.fail last fault, .fail⟩
  looks h := ⟨Advances.compositional.looks h, .looks h⟩
  steps h := ⟨.steps h, .steps h⟩
  resuming h := ⟨h.1.resuming, h.2.resuming⟩

end Parse

namespace Grammar

open Parse

theorem advances (last : Token) (n : Nat) : Every (fun rule _ => Advances rule) last n n :=
  every Advances.compositional last n n (Nat.le_refl n)

/-- No rule sees what it does not reach, and more depth changes nothing. -/
theorem locality (b : List Token) (last : Token) {n k : Nat} (le : n ≤ k) :
    Every (fun rule rule' => Advances rule ∧ Parse.Local b rule rule') last n k :=
  every (Parse.Local.compositional b) last n k le

end Grammar

end LoxLang
