import LoxLang.Machine
/-!
Two runs abreast. A `Bond` says of which pairs of machines something is known and which of them are later
states of which. `Bond.Abreast` says of two runs that from such machines they come to the same end, in
machines of which the same is known, or that one of them uses up its depth where it may (`Pace`).

What is proved: the relation is closed under the ways runs are put together, with one rule for each, and
one for a step that the left run takes on its own (`Bond.Abreast.leads`).
-/
namespace LoxLang

/-- Which of two runs may use up the depth it was given before the other one comes to an end. -/
structure Pace where
  first : Prop
  second : Prop

/-- What a run comes to, with its state changed on the way back. -/
def Outcome.leave {α : Type} (back : Machine → Machine) : Outcome α → Outcome α
  | .ok a m => .ok a (back m)
  | .fail e m => .fail e (back m)
  | .starved => .starved

theorem Outcome.leave_id {α : Type} (o : Outcome α) : o.leave id = o := by
  cases o <;> rfl

/-- What a name is bound to, so many environments outwards or in the outermost one. -/
def Machine.named? (m : Machine) (x : String) (depth : Option Nat) : Option Value :=
  depth.elim (m.environments.find? Machine.globals x) fun d => m.environments.findAt? m.current d x

/-- The environment that binds a name there. -/
def Machine.holding? (m : Machine) (x : String) (depth : Option Nat) : Option Nat :=
  depth.elim (m.environments.holder? Machine.globals x) fun d =>
    m.environments.holderAt? m.current d x

theorem Run.lookUp_apply (name : Token) (depth : Option Nat) (m : Machine) :
    lookUp name depth m = (m.named? name.lexeme depth).elim
      (.fail (.runtime ⟨.undefinedVariable, name⟩) m) (.ok · m) := by
  cases depth with
  | none =>
    simp only [lookUp, Machine.named?, Option.elim_none]
    cases m.environments.find? Machine.globals name.lexeme <;> rfl
  | some d =>
    simp only [lookUp, Machine.named?, Option.elim_some]
    cases m.environments.findAt? m.current d name.lexeme <;> rfl

theorem Run.assign_apply (name : Token) (depth : Option Nat) (v : Value) (m : Machine) :
    assign name depth v m = (m.holding? name.lexeme depth).elim
      (.fail (.runtime ⟨.undefinedVariable, name⟩) m)
      fun e => .ok () { m with environments := m.environments.define e name.lexeme v } := by
  cases depth with
  | none =>
    simp only [assign, Machine.holding?, Option.elim_none]
    cases m.environments.holder? Machine.globals name.lexeme <;> rfl
  | some d =>
    simp only [assign, Machine.holding?, Option.elim_some]
    cases m.environments.holderAt? m.current d name.lexeme <;> rfl

/-- Pairs of machines of which something is known, and the order in which they follow each other. -/
structure Bond (P : Type) where
  left : P → Machine
  right : P → Machine
  Like : P → Prop
  Follows : P → P → Prop
  refl : ∀ p, Follows p p
  trans : ∀ {p p' p''}, Follows p p' → Follows p' p'' → Follows p p''

namespace Bond

variable {P : Type} {α α' β β' : Type}

/-- Both runs have values of which something is known, or both fail in the same way, or one of them
uses up its depth. -/
inductive Ends (b : Bond P) (t : Pace) (p : P) (Q : α → α' → P → Prop) :
    Outcome α → Outcome α' → Prop
  | ok {a : α} {a' : α'} (p' : P) : b.Like p' → b.Follows p p' → Q a a' p' →
    Ends b t p Q (.ok a (b.left p')) (.ok a' (b.right p'))
  | fail (e : Failure) (p' : P) : b.Like p' → b.Follows p p' →
    Ends b t p Q (.fail e (b.left p')) (.fail e (b.right p'))
  | starved : Ends b t p Q .starved .starved
  | early {o' : Outcome α'} : t.first → Ends b t p Q .starved o'
  | late {o : Outcome α} : t.second → Ends b t p Q o .starved

/-- Two runs that come to the same end. -/
def Abreast (b : Bond P) (t : Pace) (p : P) (r : Run α) (r' : Run α') (Q : α → α' → P → Prop) : Prop :=
  b.Ends t p Q (r (b.left p)) (r' (b.right p))

variable {b : Bond P} {t : Pace} {p p' : P} {Q : α → α' → P → Prop}

theorem Ends.after {o : Outcome α} {o' : Outcome α'} (follows : b.Follows p p')
    (h : b.Ends t p' Q o o') : b.Ends t p Q o o' := by
  cases h with
  | ok p₁ like follows' q => exact .ok p₁ like (b.trans follows follows') q
  | fail e p₁ like follows' => exact .fail e p₁ like (b.trans follows follows')
  | starved => exact .starved
  | early may => exact .early may
  | late may => exact .late may

namespace Abreast

theorem weaken {t' : Pace} {r : Run α} {r' : Run α'} {Q' : α → α' → P → Prop}
    (h : b.Abreast t p r r' Q) (first : t.first → t'.first) (second : t.second → t'.second)
    (h' : ∀ a a' p', Q a a' p' → Q' a a' p') : b.Abreast t' p r r' Q' := by
  unfold Abreast at *
  generalize r (b.left p) = o, r' (b.right p) = o' at h
  cases h with
  | ok p₁ like follows q => exact .ok p₁ like follows (h' _ _ p₁ q)
  | fail e p₁ like follows => exact .fail e p₁ like follows
  | starved => exact .starved
  | early may => exact .early (first may)
  | late may => exact .late (second may)

/-- A run that may use up its depth where another pace allows it. -/
theorem paced {t' : Pace} {r : Run α} {r' : Run α'} (h : b.Abreast t p r r' Q)
    (first : t.first → t'.first) (second : t.second → t'.second) : b.Abreast t' p r r' Q :=
  h.weaken first second fun _ _ _ q => q

theorem pure {a : α} {a' : α'} (like : b.Like p) (q : Q a a' p) :
    b.Abreast t p (pure a) (pure a') Q := .ok p like (b.refl p) q

theorem fail {e : Failure} {r : Run α} {r' : Run α'} (like : b.Like p)
    (h : r (b.left p) = .fail e (b.left p)) (h' : r' (b.right p) = .fail e (b.right p)) :
    b.Abreast t p r r' Q := by
  unfold Abreast
  rw [h, h']
  exact .fail e p like (b.refl p)

theorem step {r : Run α} {r' : Run α'} {a : α} {a' : α'} (p' : P)
    (h : r (b.left p) = .ok a (b.left p')) (h' : r' (b.right p) = .ok a' (b.right p'))
    (like : b.Like p') (follows : b.Follows p p') (q : Q a a' p') : b.Abreast t p r r' Q := by
  unfold Abreast
  rw [h, h']
  exact .ok p' like follows q

/-- A name that is looked up is bound to values of which something is known, or not bound at all. -/
theorem lookUp {name : Token} {depth depth' : Option Nat} {Q : Value → Value → P → Prop}
    (like : b.Like p) (found : Option.Rel (Q · · p) ((b.left p).named? name.lexeme depth)
      ((b.right p).named? name.lexeme depth')) :
    b.Abreast t p (Run.lookUp name depth) (Run.lookUp name depth') Q := by
  unfold Abreast
  rw [Run.lookUp_apply, Run.lookUp_apply]
  generalize (b.left p).named? name.lexeme depth = o, (b.right p).named? name.lexeme depth' = o'
    at found
  cases found with
  | some q => exact .ok p like (b.refl p) q
  | none => exact .fail _ p like (b.refl p)

theorem bind {r : Run α} {r' : Run α'} {next : α → Run β} {next' : α' → Run β'}
    {Q' : β → β' → P → Prop} (h : b.Abreast t p r r' Q)
    (h' : ∀ a a' p', b.Like p' → b.Follows p p' → Q a a' p' →
      b.Abreast t p' (next a) (next' a') Q') : b.Abreast t p (r >>= next) (r' >>= next') Q' := by
  unfold Abreast at *
  rw [Run.bind_apply, Run.bind_apply]
  generalize r (b.left p) = o, r' (b.right p) = o' at h
  cases h with
  | ok p₁ like follows q => exact (h' _ _ p₁ like follows q).after follows
  | fail e p₁ like follows => exact .fail e p₁ like follows
  | starved => exact .starved
  | early may => exact .early may
  | late may => exact .late may

theorem leads {r : Run α} {a : α} {next : α → Run β} {r' : Run β'} {Q' : β → β' → P → Prop} (p' : P)
    (h : r (b.left p) = .ok a (b.left p')) (still : b.right p' = b.right p)
    (follows : b.Follows p p') (rest : b.Abreast t p' (next a) r' Q') :
    b.Abreast t p (r >>= next) r' Q' := by
  unfold Abreast at *
  rw [Run.bind_apply, h, ← still]
  exact rest.after follows

theorem early {r : Run α} {r' : Run α'} (may : t.first) (h : r (b.left p) = .starved) :
    b.Abreast t p r r' Q := by
  unfold Abreast
  rw [h]
  exact .early may

theorem late {r : Run α} {r' : Run α'} (may : t.second) (h : r' (b.right p) = .starved) :
    b.Abreast t p r r' Q := by
  unfold Abreast
  rw [h]
  exact .late may

/-- Two runs between a change of their states and the way back from it. -/
theorem entered {r : Run α} {r' : Run α'} {back back' : Machine → Machine}
    {Q' : α → α' → P → Prop} (h : b.Abreast t p' r r' Q)
    (leave : ∀ p₁, b.Like p₁ → b.Follows p' p₁ → ∃ p₂, b.left p₂ = back (b.left p₁) ∧
      b.right p₂ = back' (b.right p₁) ∧ b.Like p₂ ∧ b.Follows p p₂ ∧
        ∀ a a', Q a a' p₁ → Q' a a' p₂) :
    b.Ends t p Q' ((r (b.left p')).leave back) ((r' (b.right p')).leave back') := by
  unfold Abreast at h
  generalize r (b.left p') = o, r' (b.right p') = o' at h
  cases h with
  | ok p₁ like follows q =>
    obtain ⟨p₂, left, right, like₂, follows₂, known⟩ := leave p₁ like follows
    rw [Outcome.leave, Outcome.leave, ← left, ← right]
    exact .ok p₂ like₂ follows₂ (known _ _ q)
  | fail e p₁ like follows =>
    obtain ⟨p₂, left, right, like₂, follows₂, -⟩ := leave p₁ like follows
    rw [Outcome.leave, Outcome.leave, ← left, ← right]
    exact .fail e p₂ like₂ follows₂
  | starved => exact .starved
  | early may => exact .early may
  | late may => exact .late may

end Abreast

end Bond

end LoxLang
