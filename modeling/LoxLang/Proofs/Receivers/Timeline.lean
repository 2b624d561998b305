import LoxLang.Proofs.Receivers.Keeping
import LoxLang.Proofs.Running.Depth
/-!
The states of a session are in one line. A mark tells of the state in which it was noted, of the states
in which the evaluation of its expression ends, and of the state in which a call begins (`Mark.Moment`).

What is proved: of any two states that the marks of a run tell of, one may come to be the other, and
all of them lie between the state the run starts in and the state it ends in (`InLine`, and `inLineAll`
for whatever runs); the states in which the marks were noted come in that order. The run may have been
given too little depth to end; what the marks tell of is then the beginning of what is told with more
depth, and is compared with the states in which runs of any depth end.
-/
namespace LoxLang

variable {α β : Type} {limit : Option Nat} {m m' m'' : Machine}

/-! States -/

structure Machine.SameHeap (m m' : Machine) : Prop where
  environments : m'.environments = m.environments
  instances : m'.instances = m.instances

theorem Machine.SameHeap.before (h : m.SameHeap m') : m.Before m' :=
  .of_eq h.environments (by rw [h.instances])

def Outcome.mapState (f : Machine → Machine) : Outcome α → Outcome α
  | .ok a m => .ok a (f m)
  | .fail e m => .fail e (f m)
  | .starved => .starved

theorem Outcome.state?_mapState (f : Machine → Machine) (o : Outcome α) :
    (o.mapState f).state? = o.state?.map f := by
  cases o <;> rfl

/-- Answers of greater and greater depth: all that have ended are one. -/
theorem Outcome.unique {R : Nat → Outcome α} (agree : ∀ n k, n ≤ k → R n = .starved ∨ R k = R n)
    {n k : Nat} {a b : Machine} (ended : (R n).state? = some a) (ended' : (R k).state? = some b) :
    R n = R k := by
  rcases Nat.le_total n k with le | le
  · rcases agree n k le with none | same
    · rw [none] at ended
      cases ended
    · exact same.symm
  · rcases agree k n le with none | same
    · rw [none] at ended'
      cases ended'
    · exact same

/-! Marks and states -/

/-- What is evaluated before a call begins. -/
def Run.beforeCall (limit : Option Nat) (n : Nat) (callee : Expr) (arguments : List Expr) :
    Run (Value × List Value) := do
  let v ← evaluate limit n callee
  let vs ← evaluateAll limit n arguments
  pure (v, vs)

namespace Mark

def state : Mark → Machine
  | reached _ _ m => m
  | accessed _ _ _ m => m

/-- The states a mark tells of. -/
inductive Moment (limit : Option Nat) : Mark → Machine → Prop
  | noted (mark : Mark) : Moment limit mark mark.state
  /-- The evaluation of the expression has ended. -/
  | ended {p : Site} {e : Expr} {m m' : Machine} {n : Nat} :
    (Run.evaluate limit n e m).state? = some m' → Moment limit (reached p (.expression e) m) m'
  /-- The callee and the arguments are evaluated. -/
  | called {p : Site} {callee : Expr} {paren : Token} {arguments : List Expr} {m m' : Machine}
    {n : Nat} : (Run.beforeCall limit n callee arguments m).state? = some m' →
      Moment limit (reached p (.expression (.call callee paren arguments)) m) m'

/-- The state is faithful, and an expression that is reached in it names nothing `this`. -/
def Faithful (mark : Mark) : Prop :=
  mark.state.Faithful ∧
    ∀ p e m, mark = reached p (.expression e) m → Keyword.this.word ∉ e.names

end Mark

/-- A state that some of the marks tells of. -/
def Passes (limit : Option Nat) (marks : List Mark) (m : Machine) : Prop :=
  ∃ mark ∈ marks, mark.Moment limit m

/-- Of any two states that the marks tell of, one may come to be the other, and those in which they were
noted come in that order, the latest first. -/
structure Timeline (limit : Option Nat) (marks : List Mark) : Prop where
  faithful : ∀ mark ∈ marks, mark.Faithful
  order : marks.Pairwise fun later earlier => earlier.state.Before later.state
  line : ∀ a b, Passes limit marks a → Passes limit marks b → a.Before b ∨ b.Before a

theorem Passes.not_nil : ¬ Passes limit [] m := fun ⟨_, mem, _⟩ => by cases mem

theorem Passes.append {marks marks' : List Mark} :
    Passes limit (marks ++ marks') m ↔ Passes limit marks m ∨ Passes limit marks' m := by
  simp only [Passes, List.mem_append, or_and_right, exists_or]

theorem Passes.singleton {mark : Mark} : Passes limit [mark] m ↔ mark.Moment limit m := by
  simp only [Passes, List.mem_singleton, exists_eq_left]

namespace Timeline

theorem nil : Timeline limit [] where
  faithful _ mem := by cases mem
  order := .nil
  line _ _ passes := absurd passes Passes.not_nil

theorem append {marks marks' : List Mark} (h : Timeline limit marks) (h' : Timeline limit marks')
    (order : ∀ mark ∈ marks, ∀ mark' ∈ marks', mark'.state.Before mark.state)
    (later : ∀ a b, Passes limit marks' a → Passes limit marks b → a.Before b ∨ b.Before a) :
    Timeline limit (marks ++ marks') := by
  refine ⟨fun mark mem => ?_, List.pairwise_append.mpr ⟨h.order, h'.order, order⟩,
    fun a b first second => ?_⟩
  · rcases List.mem_append.mp mem with mem | mem
    · exact h.faithful mark mem
    · exact h'.faithful mark mem
  · rcases Passes.append.mp first with first | first <;>
      rcases Passes.append.mp second with second | second
    · exact h.line a b first second
    · exact (later b a second first).symm
    · exact later a b first second
    · exact h'.line a b first second

/-- All that is told of first comes before what is told of then. -/
theorem append_of_before {marks marks' : List Mark} (h : Timeline limit marks)
    (h' : Timeline limit marks')
    (later : ∀ a b, Passes limit marks' a → Passes limit marks b → a.Before b) :
    Timeline limit (marks ++ marks') := by
  refine h.append h' (fun mark mem mark' mem' => ?_) fun a b first second => ?_
  · exact later _ _ ⟨mark', mem', .noted mark'⟩ ⟨mark, mem, .noted mark⟩
  · exact .inl (later a b first second)

end Timeline

/-! Runs in line -/

/-- What a watched run notes, the latest first. -/
def Watched.Notes (w : Watched α) (g : Log) (m : Machine) (new : List Mark) : Prop :=
  (w g m).2.marks = new ++ g.marks

/-- A watched run that starts in a state, beside the run of any depth. What it notes is in one line,
between the state it starts in and the state in which a run that is deep enough ends. -/
structure InLine (limit : Option Nat) (m : Machine) (w : Watched α) (R : Nat → Run α) : Prop where
  agree : ∀ n k, n ≤ k → R n m = .starved ∨ R k m = R n m
  same : ∀ g a, (w g m).1.state? = some a → ∃ n, R n m = (w g m).1
  forward : ∀ n m', (R n m).state? = some m' → m.Before m'
  exists_notes : ∀ g, ∃ new, w.Notes g m new
  line : ∀ g new, w.Notes g m new → Timeline limit new
  above : ∀ g new, w.Notes g m new → ∀ a, Passes limit new a → m.Before a
  below : ∀ g new, w.Notes g m new → ∀ a, Passes limit new a →
    ∀ n m', (R n m).state? = some m' → a.Before m'

/-- A state on the way of a run: all that the run notes comes before it or after it. -/
structure Cut (limit : Option Nat) (m : Machine) (w : Watched α) (R : Nat → Run α) (a : Machine) :
    Prop where
  after : m.Before a
  apart : ∀ g new, w.Notes g m new → ∀ b, Passes limit new b → b.Before a ∨ a.Before b
  before : ∀ n m', (R n m).state? = some m' → a.Before m'

variable {w : Watched α} {R : Nat → Run α} {next : α → Watched β} {S : Nat → α → Run β}

theorem Watched.Notes.unique {g : Log} {new new' : List Mark} (h : w.Notes g m new)
    (h' : w.Notes g m new') : new = new' :=
  List.append_cancel_right (h.symm.trans h')

/-- A watched run goes on after a value, and stops otherwise. -/
theorem Watched.bind_cases (w : Watched α) (next : α → Watched β) (g : Log) (m : Machine) :
    (∃ a m₁ g₁, w g m = (.ok a m₁, g₁) ∧ (w >>= next) g m = next a g₁ m₁) ∨
      (∃ f m₁ g₁, w g m = (.fail f m₁, g₁) ∧ (w >>= next) g m = (.fail f m₁, g₁)) ∨
        ∃ g₁, w g m = (.starved, g₁) ∧ (w >>= next) g m = (.starved, g₁) := by
  show (∃ a m₁ g₁, w g m = (.ok a m₁, g₁) ∧ Watched.bind w next g m = next a g₁ m₁) ∨
    (∃ f m₁ g₁, w g m = (.fail f m₁, g₁) ∧ Watched.bind w next g m = (.fail f m₁, g₁)) ∨
      ∃ g₁, w g m = (.starved, g₁) ∧ Watched.bind w next g m = (.starved, g₁)
  unfold Watched.bind
  cases eq : w g m with
  | mk outcome g₁ =>
    cases outcome with
    | ok a m₁ => exact .inl ⟨a, m₁, g₁, rfl, rfl⟩
    | fail f m₁ => exact .inr (.inl ⟨f, m₁, g₁, rfl, rfl⟩)
    | starved => exact .inr (.inr ⟨g₁, rfl, rfl⟩)

namespace InLine

/-- All depths within which a run ends give it the same end. -/
theorem unique (h : InLine limit m w R) {n k : Nat} {a b : Machine}
    (ended : (R n m).state? = some a) (ended' : (R k m).state? = some b) : R n m = R k m :=
  Outcome.unique h.agree ended ended'

theorem silent {R : Nat → Run α} (agree : ∀ n k, n ≤ k → R n m = .starved ∨ R k m = R n m)
    (same : ∀ g a, (w g m).1.state? = some a → ∃ n, R n m = (w g m).1)
    (forward : ∀ n m', (R n m).state? = some m' → m.Before m') (silent : ∀ g, w.Notes g m []) :
    InLine limit m w R where
  agree := agree
  same := same
  forward := forward
  exists_notes g := ⟨[], silent g⟩
  line g new notes := (silent g).unique notes ▸ .nil
  above g new notes a passes := by
    rw [← (silent g).unique notes] at passes
    exact absurd passes Passes.not_nil
  below g new notes a passes := by
    rw [← (silent g).unique notes] at passes
    exact absurd passes Passes.not_nil

theorem unmarked {r : Run α} (erases : Watched.Erases w r) (silent : ∀ g, w.Notes g m [])
    (forward : ∀ m', (r m).state? = some m' → m.Before m') : InLine limit m w fun _ => r :=
  .silent (fun _ _ _ => .inr rfl) (fun g _ _ => ⟨0, (erases g m).symm⟩) (fun _ => forward) silent

theorem lift {r : Run α} (forward : ∀ m', (r m).state? = some m' → m.Before m') :
    InLine limit m (Watched.lift r) fun _ => r :=
  unmarked (.lift r) (fun _ => rfl) forward

theorem pure (a : α) : InLine limit m (pure a : Watched α) fun _ => pure a :=
  lift fun m' ended => by cases ended; exact .refl m

theorem fault (token : Token) (f : RuntimeFault) :
    InLine limit m (Watched.lift (Run.fault token f : Run α)) fun _ => Run.fault token f :=
  lift fun m' ended => by cases ended; exact .refl m

theorem starved (agree : ∀ n k, n ≤ k → R n m = .starved ∨ R k m = R n m)
    (forward : ∀ n m', (R n m).state? = some m' → m.Before m') :
    InLine limit m (Watched.lift Run.starved) R :=
  .silent agree (fun _ _ ended => by cases ended) forward fun _ => rfl

theorem succ (h : InLine limit m w fun n => R (n + 1)) (none : R 0 m = .starved) :
    InLine limit m w R := by
  have deep {n : Nat} {m' : Machine} (ended : (R n m).state? = some m') :
      ∃ k, (R (k + 1) m).state? = some m' := by
    cases n with
    | zero =>
      rw [none] at ended
      cases ended
    | succ k => exact ⟨k, ended⟩
  refine ⟨fun n k le => ?_, fun g a ended => ?_, fun n m' ended => ?_, h.exists_notes, h.line,
    h.above, fun g new notes a passes n m' ended => ?_⟩
  · cases n with
    | zero => exact .inl none
    | succ n =>
      obtain ⟨k, rfl⟩ : ∃ j, k = j + 1 := ⟨k - 1, by omega⟩
      exact h.agree n k (Nat.le_of_succ_le_succ le)
  · obtain ⟨n, same⟩ := h.same g a ended
    exact ⟨n + 1, same⟩
  · obtain ⟨k, ended⟩ := deep ended
    exact h.forward k m' ended
  · obtain ⟨k, ended⟩ := deep ended
    exact h.below g new notes a passes k m' ended

/-! One run after another -/

/-- What comes before the end of the first of two runs comes before the end of both. -/
theorem before_of_bind
    (h' : ∀ n a m', R n m = .ok a m' → InLine limit m' (next a) fun k => S k a) {b : Machine}
    (first : ∀ n m', (R n m).state? = some m' → b.Before m') :
    ∀ n m', ((R n >>= S n) m).state? = some m' → b.Before m' := by
  intro n m' ended
  rcases Run.ended_bind ended with ⟨f, failed⟩ | ⟨a, m₁, found, second⟩
  · exact first n m' (by rw [failed]; rfl)
  · exact (first n m₁ (by rw [found]; rfl)).trans ((h' n a m₁ found).forward n m' second)

/-- If the first of two runs has a value, both end in what the second ends in. -/
theorem second_of_bind (h : InLine limit m w R) {n k : Nat} {a : α} {m₁ : Machine}
    (found : R n m = .ok a m₁) (ended : ((R k >>= S k) m).state? = some m') :
    (S k a m₁).state? = some m' := by
  have first : (R n m).state? = some m₁ := by rw [found]; rfl
  rcases Run.ended_bind ended with ⟨f, failed⟩ | ⟨a', m₂, found', second⟩
  · have same := h.unique first (k := k) (b := m') (by rw [failed]; rfl)
    rw [found, failed] at same
    cases same
  · have same := h.unique first (k := k) (b := m₂) (by rw [found']; rfl)
    rw [found, found'] at same
    cases same
    exact second

/-- What two runs note is what the first notes, and what the second notes if it is come to. -/
theorem notes_bind (h : InLine limit m w R)
    (h' : ∀ n a m', R n m = .ok a m' → InLine limit m' (next a) fun k => S k a) (g : Log) :
    ∃ new new₁, (w >>= next).Notes g m new ∧ w.Notes g m new₁ ∧
      (new = new₁ ∨ ∃ n x m₁ g₁ new₂, R n m = .ok x m₁ ∧ (next x).Notes g₁ m₁ new₂ ∧
        new = new₂ ++ new₁) := by
  obtain ⟨new₁, notes⟩ := h.exists_notes g
  rcases Watched.bind_cases w next g m with
    ⟨x, m₁, g₁, first, rest⟩ | ⟨f, m₁, g₁, first, rest⟩ | ⟨g₁, first, rest⟩
  · obtain ⟨n, found⟩ := h.same g m₁ (by rw [first]; rfl)
    rw [first] at found
    obtain ⟨new₂, notes₂⟩ := (h' n x m₁ found).exists_notes g₁
    refine ⟨new₂ ++ new₁, new₁, ?_, notes, .inr ⟨n, x, m₁, g₁, new₂, found, notes₂, rfl⟩⟩
    unfold Watched.Notes at *
    rw [first] at notes
    rw [rest, notes₂, notes, List.append_assoc]
  · refine ⟨new₁, new₁, ?_, notes, .inl rfl⟩
    unfold Watched.Notes at *
    rw [rest, ← notes, first]
  · refine ⟨new₁, new₁, ?_, notes, .inl rfl⟩
    unfold Watched.Notes at *
    rw [rest, ← notes, first]

theorem bind (h : InLine limit m w R)
    (h' : ∀ n a m', R n m = .ok a m' → InLine limit m' (next a) fun k => S k a) :
    InLine limit m (w >>= next) fun n => R n >>= S n := by
  have ended_of_ok {n : Nat} {x : α} {m₁ : Machine} (found : R n m = .ok x m₁) :
      (R n m).state? = some m₁ := by rw [found]; rfl
  refine ⟨fun n k le => ?_, fun g b ended => ?_, before_of_bind h' h.forward, fun g => ?_,
    fun g new notes => ?_, fun g new notes b passes => ?_, fun g new notes b passes k m' ended => ?_⟩
  · simp only [Run.bind_apply]
    rcases h.agree n k le with none | same
    · exact .inl (by rw [none])
    · rw [same]
      cases eq : R n m with
      | ok a m₁ => exact (h' n a m₁ eq).agree n k le
      | fail f m₁ => exact .inr rfl
      | starved => exact .inl rfl
  · rcases Watched.bind_cases w next g m with
      ⟨a, m₁, g₁, first, rest⟩ | ⟨f, m₁, g₁, first, rest⟩ | ⟨g₁, first, rest⟩
    · obtain ⟨n, found⟩ := h.same g m₁ (by rw [first]; rfl)
      rw [first] at found
      rw [rest] at ended ⊢
      obtain ⟨k, found'⟩ := (h' n a m₁ found).same g₁ b ended
      -- A depth that is enough for both.
      have more := h.agree n (max n k) (Nat.le_max_left n k)
      have more' := (h' n a m₁ found).agree k (max n k) (Nat.le_max_right n k)
      rw [found] at more
      rw [found'] at more'
      refine ⟨max n k, ?_⟩
      rw [Run.bind_apply, more.resolve_left nofun]
      refine more'.resolve_left fun none => ?_
      rw [none] at ended
      cases ended
    · obtain ⟨n, found⟩ := h.same g m₁ (by rw [first]; rfl)
      rw [first] at found
      rw [rest]
      exact ⟨n, by rw [Run.bind_apply, found]⟩
    · rw [rest] at ended
      cases ended
  · obtain ⟨new, _, notes, _⟩ := h.notes_bind h' g
    exact ⟨new, notes⟩
  · obtain ⟨_, new₁, notes', first, only | ⟨n, x, m₁, g₁, new₂, found, second, both⟩⟩ :=
      h.notes_bind h' g
    · obtain rfl := (notes.unique notes').trans only
      exact h.line g _ first
    · obtain rfl := (notes.unique notes').trans both
      refine ((h' n x m₁ found).line g₁ new₂ second).append_of_before (h.line g new₁ first) ?_
      intro a b passes passes'
      have until_ := h.below g new₁ first a passes n m₁ (ended_of_ok found)
      exact until_.trans ((h' n x m₁ found).above g₁ new₂ second b passes')
  · obtain ⟨_, new₁, notes', first, only | ⟨n, x, m₁, g₁, new₂, found, second, both⟩⟩ :=
      h.notes_bind h' g
    · obtain rfl := (notes.unique notes').trans only
      exact h.above g _ first b passes
    · obtain rfl := (notes.unique notes').trans both
      rcases Passes.append.mp passes with passes | passes
      · have until_ := h.forward n m₁ (ended_of_ok found)
        exact until_.trans ((h' n x m₁ found).above g₁ new₂ second b passes)
      · exact h.above g new₁ first b passes
  · obtain ⟨_, new₁, notes', first, only | ⟨n, x, m₁, g₁, new₂, found, second, both⟩⟩ :=
      h.notes_bind h' g
    · obtain rfl := (notes.unique notes').trans only
      exact before_of_bind h' (h.below g _ first b passes) k m' ended
    · obtain rfl := (notes.unique notes').trans both
      rcases Passes.append.mp passes with passes | passes
      · exact (h' n x m₁ found).below g₁ new₂ second b passes k m' (h.second_of_bind found ended)
      · exact before_of_bind h' (h.below g new₁ first b passes) k m' ended

/-- A run that starts in a state with the same environments and instances, and leaves those of the
state it ends in alone. -/
theorem around {w' : Watched α} {R' : Nat → Run α} {enter : Machine} (leave : Machine → Machine)
    (h : InLine limit enter w R) (same : m.SameHeap enter)
    (still : ∀ a : Machine, a.SameHeap (leave a))
    (watched : ∀ g, w' g m = ((w g enter).1.mapState leave, (w g enter).2))
    (unwatched : ∀ n, R' n m = (R n enter).mapState leave) : InLine limit m w' R' := by
  have back {n : Nat} {m' : Machine} (ended : (R' n m).state? = some m') :
      ∃ m₁, (R n enter).state? = some m₁ ∧ m₁.Before m' := by
    rw [unwatched, Outcome.state?_mapState, Option.map_eq_some_iff] at ended
    obtain ⟨m₁, inside, rfl⟩ := ended
    exact ⟨m₁, inside, (still m₁).before⟩
  have inner {g : Log} {new : List Mark} (notes : w'.Notes g m new) : w.Notes g enter new := by
    unfold Watched.Notes at *
    rwa [watched] at notes
  refine ⟨fun n k le => ?_, fun g a ended => ?_, fun n m' ended => ?_, fun g => ?_,
    fun g new notes => h.line g new (inner notes),
    fun g new notes a passes => same.before.trans (h.above g new (inner notes) a passes),
    fun g new notes a passes n m' ended => ?_⟩
  · rw [unwatched, unwatched]
    rcases h.agree n k le with none | same
    · exact .inl (by rw [none]; rfl)
    · exact .inr (by rw [same])
  · rw [watched] at ended ⊢
    rw [Outcome.state?_mapState, Option.map_eq_some_iff] at ended
    obtain ⟨m₁, inside, _⟩ := ended
    obtain ⟨n, found⟩ := h.same g m₁ inside
    exact ⟨n, by rw [unwatched, found]⟩
  · obtain ⟨m₁, inside, later⟩ := back ended
    exact (same.before.trans (h.forward n m₁ inside)).trans later
  · obtain ⟨new, notes⟩ := h.exists_notes g
    refine ⟨new, ?_⟩
    unfold Watched.Notes at *
    rw [watched, notes]
  · obtain ⟨m₁, inside, later⟩ := back ended
    exact (h.below g new (inner notes) a passes n m₁ inside).trans later

theorem within {e : Nat} (h : InLine limit { m with current := e } w R) :
    InLine limit m (Watched.within e w) fun n => Run.within e (R n) := by
  have same : m.SameHeap { m with current := e } := ⟨rfl, rfl⟩
  apply around (fun a => { a with current := m.current }) h same fun _ => ⟨rfl, rfl⟩
  · intro g
    unfold Watched.within
    rcases w g { m with current := e } with ⟨_ | _ | _, _⟩ <;> rfl
  · intro n
    unfold Run.within
    dsimp only
    cases R n { m with current := e } <;> rfl

theorem asCall {most : Option Nat} {paren : Token}
    (h : InLine limit { m with callDepth := m.callDepth + 1 } w R) :
    InLine limit m (Watched.asCall most paren w) fun n => Run.asCall most paren (R n) := by
  have same : m.SameHeap { m with callDepth := m.callDepth + 1 } := ⟨rfl, rfl⟩
  by_cases full : most.any (· ≤ m.callDepth) = true
  · apply around id (.fault paren .stackOverflow) ⟨rfl, rfl⟩ fun _ => ⟨rfl, rfl⟩
    · exact fun g => if_pos full
    · exact fun n => if_pos full
  · apply around (fun a => { a with callDepth := a.callDepth - 1 }) h same fun _ => ⟨rfl, rfl⟩
    · intro g
      unfold Watched.asCall
      rw [if_neg full]
      rcases w g { m with callDepth := m.callDepth + 1 } with ⟨_ | _ | _, _⟩ <;> rfl
    · intro n
      unfold Run.asCall
      rw [if_neg full]
      cases R n { m with callDepth := m.callDepth + 1 } <;> rfl

end InLine

/-! States on the way -/

namespace Cut

theorem start (h : InLine limit m w R) : Cut limit m w R m where
  after := .refl m
  apart g new notes b passes := .inr (h.above g new notes b passes)
  before := h.forward

theorem ended (h : InLine limit m w R) {n : Nat} {a : Machine}
    (ended : (R n m).state? = some a) : Cut limit m w R a := by
  refine ⟨h.forward n a ended, fun g new notes b passes => ?_, fun k m' ended' => ?_⟩
  · exact .inl (h.below g new notes b passes n a ended)
  · rw [h.unique ended ended', ended'] at ended
    cases ended
    exact .refl a

theorem first (h : InLine limit m w R)
    (h' : ∀ n a m', R n m = .ok a m' → InLine limit m' (next a) fun k => S k a) {n : Nat}
    {a : Machine} (ended : (R n m).state? = some a) :
    Cut limit m (w >>= next) (fun n => R n >>= S n) a := by
  have cut := Cut.ended h ended
  refine ⟨cut.after, fun g new notes b passes => ?_, InLine.before_of_bind h' cut.before⟩
  obtain ⟨_, new₁, notes', first, only | ⟨k, x, m₁, g₁, new₂, found, second, both⟩⟩ :=
    h.notes_bind h' g
  · obtain rfl := (notes.unique notes').trans only
    exact cut.apart g _ first b passes
  · obtain rfl := (notes.unique notes').trans both
    rcases Passes.append.mp passes with passes | passes
    · have until_ := cut.before k m₁ (by rw [found]; rfl)
      exact .inr (until_.trans ((h' k x m₁ found).above g₁ new₂ second b passes))
    · exact cut.apart g new₁ first b passes

theorem second (h : InLine limit m w R)
    (h' : ∀ n a m', R n m = .ok a m' → InLine limit m' (next a) fun k => S k a) {n : Nat} {x : α}
    {m₁ a : Machine} (found : R n m = .ok x m₁) (cut : Cut limit m₁ (next x) (fun k => S k x) a) :
    Cut limit m (w >>= next) (fun n => R n >>= S n) a := by
  have ended : (R n m).state? = some m₁ := by rw [found]; rfl
  refine ⟨(h.forward n m₁ ended).trans cut.after, fun g new notes b passes => ?_,
    fun k m' ended' => cut.before k m' (h.second_of_bind found ended')⟩
  have earlier {new₁ : List Mark} (first : w.Notes g m new₁) (passes : Passes limit new₁ b) :
      b.Before a := (h.below g new₁ first b passes n m₁ ended).trans cut.after
  obtain ⟨_, new₁, notes', first, only | ⟨k, y, m₂, g₁, new₂, found', second, both⟩⟩ :=
    h.notes_bind h' g
  · obtain rfl := (notes.unique notes').trans only
    exact .inl (earlier first passes)
  · obtain rfl := (notes.unique notes').trans both
    rcases Passes.append.mp passes with passes | passes
    · have same := h.unique ended (k := k) (b := m₂) (by rw [found']; rfl)
      rw [found, found'] at same
      cases same
      exact cut.apart g₁ new₂ second b passes
    · exact .inl (earlier first passes)

end Cut

/-! Nodes -/

namespace InLine

/-- A mark that tells of states on the way of the run that follows. -/
theorem note {w' : Watched α} {mark : Mark} (h : InLine limit m w R) (faithful : mark.Faithful)
    (here : mark.state = m)
    (own : ∀ a b, mark.Moment limit a → mark.Moment limit b → a.Before b ∨ b.Before a)
    (cuts : ∀ a, mark.Moment limit a → Cut limit m w R a)
    (noted : ∀ g, w' g m = w { g with marks := mark :: g.marks } m) : InLine limit m w' R := by
  have single : Timeline limit [mark] := by
    refine ⟨fun k mem => List.mem_singleton.mp mem ▸ faithful, List.pairwise_singleton _ _,
      fun a b first second => ?_⟩
    exact own a b (Passes.singleton.mp first) (Passes.singleton.mp second)
  have split {g : Log} {new : List Mark} (notes : w'.Notes g m new) :
      ∃ new', w.Notes { g with marks := mark :: g.marks } m new' ∧ new = new' ++ [mark] := by
    obtain ⟨new', notes'⟩ := h.exists_notes { g with marks := mark :: g.marks }
    refine ⟨new', notes', ?_⟩
    unfold Watched.Notes at *
    rw [noted, notes'] at notes
    exact (List.append_cancel_right (notes.symm.trans (by simp)))
  refine ⟨h.agree, fun g a ended => ?_, h.forward, fun g => ?_, fun g new notes => ?_,
    fun g new notes a passes => ?_, fun g new notes a passes n m' ended => ?_⟩
  · rw [noted] at ended ⊢
    exact h.same _ a ended
  · obtain ⟨new, notes⟩ := h.exists_notes { g with marks := mark :: g.marks }
    refine ⟨new ++ [mark], ?_⟩
    unfold Watched.Notes at *
    rw [noted, notes, List.append_assoc]
    rfl
  · obtain ⟨new', notes', rfl⟩ := split notes
    refine (h.line _ new' notes').append single (fun later mem k only => ?_) fun a b first second => ?_
    · rw [List.mem_singleton.mp only, here]
      exact h.above _ new' notes' _ ⟨later, mem, .noted later⟩
    · exact ((cuts a (Passes.singleton.mp first)).apart _ new' notes' b second).symm
  · obtain ⟨new', notes', rfl⟩ := split notes
    rcases Passes.append.mp passes with passes | passes
    · exact h.above _ new' notes' a passes
    · exact (cuts a (Passes.singleton.mp passes)).after
  · obtain ⟨new', notes', rfl⟩ := split notes
    rcases Passes.append.mp passes with passes | passes
    · exact h.below _ new' notes' a passes n m' ended
    · exact (cuts a (Passes.singleton.mp passes)).before n m' ended

/-- A statement that is reached, or a name that is looked up or assigned. -/
theorem noteState {w' : Watched α} {mark : Mark} (h : InLine limit m w R) (faithful : mark.Faithful)
    (only : ∀ a, mark.Moment limit a → a = m)
    (noted : ∀ g, w' g m = w { g with marks := mark :: g.marks } m) : InLine limit m w' R := by
  refine h.note faithful (only _ (.noted mark)) (fun a b first second => ?_)
    (fun a moment => ?_) noted
  · rw [only a first, only b second]
    exact .inl (.refl m)
  · rw [only a moment]
    exact .start h

end InLine

end LoxLang
