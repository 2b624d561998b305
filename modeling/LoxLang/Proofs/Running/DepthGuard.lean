import LoxLang.Proofs.Running.Depth
import LoxLang.Proofs.Running.Traced
/-!
The limit on calls does nothing but cut runs off. While no call is refused the limit makes no difference, and
what a call that is refused leaves behind is a state that the run comes by under every greater limit.

What is proved, each by one property that is kept by the ways in which runs are put together:
1. the counter of the machine is the number of calls under way, at every moment of a run and on every way out
   of a call (`Traced.Counts`);
2. what was written stays written (`Traced.Extends`);
3. under a greater limit a run comes to the same end by the same moments, unless its last call is refused;
   then it comes by the moment in front of that call (`Traced.Cuts`);
4. all of this together, for programs (`Run.depth_guard_cuts_off`).
-/
namespace LoxLang

variable {α β : Type} {limit limit' : Option Nat}

/-- The counter is the number of calls under way, and the limit allows them. -/
structure Moment.Counted (limit : Option Nat) (a : Moment) : Prop where
  count : a.state.callDepth = a.calls.length
  allowed : ∀ l ∈ limit, a.calls.length ≤ l

/-- The run failed because a call was refused, and left this state. -/
def Outcome.Refuses (o : Outcome α) (m : Machine) : Prop :=
  ∃ paren, o = .fail (.runtime ⟨.stackOverflow, paren⟩) m

/-- The state that is left where a call was refused. -/
def Outcome.refusal? : Outcome α → Option Machine
  | .fail (.runtime ⟨.stackOverflow, _⟩) m => some m
  | _ => none

theorem Outcome.refuses_of_refusal? {o : Outcome α} {m : Machine} (h : o.refusal? = some m) :
    o.Refuses m := by
  unfold Outcome.refusal? at h
  split at h
  · cases h
    exact ⟨_, rfl⟩
  · cases h

/-- The states differ in where statements run and in the calls under way only. -/
def Machine.SameBut (m m' : Machine) : Prop :=
  { m with current := m'.current, callDepth := m'.callDepth } = m'

namespace Machine.SameBut

variable {m m' : Machine}

theorem refl (m : Machine) : m.SameBut m := rfl

theorem out (h : m.SameBut m') : m'.out = m.out := (congrArg Machine.out h).symm

theorem control (h : m.SameBut m') (current callDepth : Nat) :
    m.SameBut { m' with current := current, callDepth := callDepth } := by
  have same := congrArg (fun x : Machine => { x with current := current, callDepth := callDepth }) h
  exact same

end Machine.SameBut

namespace Traced

theorem bind_apply (w : Traced α) (next : α → Traced β) (calls : List Token) (m : Machine) :
    (w >>= next) calls m = match w calls m with
      | (.ok a m, moments) => ((next a calls m).1, moments ++ (next a calls m).2)
      | (.fail e m, moments) => (.fail e m, moments)
      | (.starved, moments) => (.starved, moments) := rfl

/-! The counter -/

/-- From a moment at which the counter is right, the run comes by such moments only and leaves the counter
as it was. -/
def Counts (limit : Option Nat) (w : Traced α) : Prop :=
  ∀ calls m, Moment.Counted limit ⟨calls, m⟩ →
    (∀ a ∈ (w calls m).2, a.Counted limit) ∧
      ∀ m', (w calls m).1.state? = some m' → m'.callDepth = m.callDepth

namespace Counts

variable {w : Traced α} {next : α → Traced β}

theorem pure (a : α) : Counts limit (pure a : Traced α) := by
  refine fun calls m _ => ⟨fun a mem => (List.not_mem_nil mem).elim, ?_⟩
  rintro m' ⟨⟩
  rfl

theorem step {r : Run α} (h : r.Step) : Counts limit (step r) := by
  intro calls m counted
  have same : ∀ m', (r m).state? = some m' → m'.callDepth = m.callDepth := fun m' ended =>
    congrArg Control.callDepth (h.restores m m' ended)
  refine ⟨fun a mem => ?_, same⟩
  rcases List.mem_cons.mp mem with rfl | mem
  · exact counted
  · obtain ⟨m', ended, rfl⟩ := List.mem_map.mp mem
    exact ⟨(same m' (Option.mem_toList.mp ended)).trans counted.count, counted.allowed⟩

theorem bind (h : Counts limit w) (h' : ∀ a, Counts limit (next a)) : Counts limit (w >>= next) := by
  intro calls m counted
  obtain ⟨moments, after⟩ := h calls m counted
  rw [bind_apply]
  cases ran : w calls m with
  | mk o first =>
    rw [ran] at moments after
    cases o with
    | ok a m₁ =>
      have same : m₁.callDepth = m.callDepth := after m₁ rfl
      obtain ⟨moments', after'⟩ := h' a calls m₁ ⟨same.trans counted.count, counted.allowed⟩
      exact ⟨List.forall_mem_append.mpr ⟨moments, moments'⟩, fun m' ended => (after' m' ended).trans same⟩
    | fail e m₁ => exact ⟨moments, after⟩
    | starved => exact ⟨moments, after⟩

theorem within (environment : Nat) (h : Counts limit w) : Counts limit (within environment w) := by
  intro calls m counted
  obtain ⟨moments, after⟩ := h calls { m with current := environment } ⟨counted.count, counted.allowed⟩
  refine ⟨moments, fun m' ended => ?_⟩
  obtain ⟨m₁, inside, rfl⟩ := Outcome.of_state?_leave ended
  exact after m₁ inside

/-- A call that is allowed is one more under way, and one less behind it, however it ends. -/
theorem asCall (paren : Token) (h : Counts limit w) : Counts limit (asCall limit paren w) := by
  intro calls m counted
  unfold Traced.asCall
  split
  · refine ⟨List.forall_mem_singleton.mpr counted, ?_⟩
    rintro m' ⟨⟩
    rfl
  · rename_i allowed
    have inner : Moment.Counted limit ⟨paren :: calls, { m with callDepth := m.callDepth + 1 }⟩ := by
      refine ⟨congrArg (· + 1) counted.count, fun l some_ => ?_⟩
      obtain rfl := Option.mem_def.mp some_
      have below : ¬ l ≤ m.callDepth := by simpa using allowed
      have count : m.callDepth = calls.length := counted.count
      rw [List.length_cons]
      omega
    obtain ⟨moments, after⟩ := h (paren :: calls) { m with callDepth := m.callDepth + 1 } inner
    -- The call takes away what it added: what ran inside left the counter at the one more.
    have back : ∀ m', ((w (paren :: calls) { m with callDepth := m.callDepth + 1 }).1.leave
        fun m' => { m' with callDepth := m'.callDepth - 1 }).state? = some m' →
        m'.callDepth = m.callDepth := by
      intro m' ended
      obtain ⟨m₁, inside, rfl⟩ := Outcome.of_state?_leave ended
      have same := after m₁ inside
      dsimp only at same ⊢
      omega
    refine ⟨List.forall_mem_cons.mpr ⟨counted, List.forall_mem_append.mpr ⟨moments, fun a mem => ?_⟩⟩, back⟩
    obtain ⟨m', ended, rfl⟩ := List.mem_map.mp mem
    exact ⟨(back m' (Option.mem_toList.mp ended)).trans counted.count, counted.allowed⟩

theorem compositional : Compositional limit limit fun _ w _ => Counts limit w where
  pure := pure
  step := step
  bind := bind
  within := within
  asCall := asCall

end Counts

/-! The output -/

/-- The output at every moment is what was written before and more, and so is the output at the end. -/
def Extends (w : Traced α) : Prop :=
  ∀ calls m, (∀ a ∈ (w calls m).2, m.out.Grows a.state.out) ∧
    ∀ m', (w calls m).1.state? = some m' →
      m.out.Grows m'.out ∧ ∀ a ∈ (w calls m).2, a.state.out.Grows m'.out

namespace Extends

variable {w : Traced α} {next : α → Traced β}

theorem pure (a : α) : Extends (pure a : Traced α) := by
  refine fun calls m => ⟨fun a mem => (List.not_mem_nil mem).elim, ?_⟩
  rintro m' ⟨⟩
  exact ⟨.refl _, fun a mem => (List.not_mem_nil mem).elim⟩

theorem step {r : Run α} (h : r.Step) : Extends (step r) := by
  intro calls m
  refine ⟨List.forall_mem_cons.mpr ⟨.refl _, fun a mem => ?_⟩, fun m' ended =>
    ⟨h.writes m m' ended, List.forall_mem_cons.mpr ⟨h.writes m m' ended, fun a mem => ?_⟩⟩⟩
  · obtain ⟨m', ended, rfl⟩ := List.mem_map.mp mem
    exact h.writes m m' (Option.mem_toList.mp ended)
  · obtain ⟨m₁, ended', rfl⟩ := List.mem_map.mp mem
    have ended : (r m).state? = some m' := ended
    rw [Option.mem_toList, ended] at ended'
    cases ended'
    exact .refl _

theorem bind (h : Extends w) (h' : ∀ a, Extends (next a)) : Extends (w >>= next) := by
  intro calls m
  obtain ⟨moments, after⟩ := h calls m
  rw [bind_apply]
  cases ran : w calls m with
  | mk o first =>
    rw [ran] at moments after
    cases o with
    | ok a m₁ =>
      obtain ⟨moments', after'⟩ := h' a calls m₁
      obtain ⟨grows, last⟩ := after m₁ rfl
      refine ⟨List.forall_mem_append.mpr ⟨moments, fun a mem => grows.trans (moments' a mem)⟩,
        fun m' ended => ?_⟩
      obtain ⟨grows', last'⟩ := after' m' ended
      exact ⟨grows.trans grows',
        List.forall_mem_append.mpr ⟨fun a mem => (last a mem).trans grows', last'⟩⟩
    | fail e m₁ => exact ⟨moments, after⟩
    | starved => exact ⟨moments, after⟩

theorem within (environment : Nat) (h : Extends w) : Extends (within environment w) := by
  intro calls m
  obtain ⟨moments, after⟩ := h calls { m with current := environment }
  refine ⟨moments, fun m' ended => ?_⟩
  obtain ⟨m₁, inside, rfl⟩ := Outcome.of_state?_leave ended
  exact after m₁ inside

theorem asCall (paren : Token) (h : Extends w) : Extends (asCall limit paren w) := by
  intro calls m
  unfold Traced.asCall
  split
  · refine ⟨List.forall_mem_singleton.mpr (.refl _), ?_⟩
    rintro m' ⟨⟩
    exact ⟨.refl _, List.forall_mem_singleton.mpr (.refl _)⟩
  · obtain ⟨moments, after⟩ := h (paren :: calls) { m with callDepth := m.callDepth + 1 }
    refine ⟨List.forall_mem_cons.mpr ⟨.refl _, List.forall_mem_append.mpr ⟨moments, fun a mem => ?_⟩⟩,
      fun m' ended => ?_⟩
    · obtain ⟨m', ended, rfl⟩ := List.mem_map.mp mem
      obtain ⟨m₁, inside, rfl⟩ := Outcome.of_state?_leave (Option.mem_toList.mp ended)
      exact (after m₁ inside).1
    · dsimp only at ended ⊢
      rw [ended]
      obtain ⟨m₁, inside, rfl⟩ := Outcome.of_state?_leave ended
      obtain ⟨grows, last⟩ := after m₁ inside
      exact ⟨grows, List.forall_mem_cons.mpr ⟨grows, List.forall_mem_append.mpr
        ⟨last, List.forall_mem_singleton.mpr (.refl _)⟩⟩⟩

theorem compositional : Compositional limit limit fun _ w _ => Extends w where
  pure := pure
  step := step
  bind := bind
  within := within
  asCall := asCall

end Extends

/-! Two limits -/

/-- The first run ends where a call is refused, and the second one comes by the state that is left; or no
call is refused and both runs are the same. -/
def Cuts (w w' : Traced α) : Prop :=
  ∀ calls m, (∃ m₁, (w calls m).1.Refuses m₁ ∧ ∃ a ∈ (w' calls m).2, a.state.SameBut m₁) ∨
    w calls m = w' calls m ∧ ∀ m₁, ¬ (w calls m).1.Refuses m₁

namespace Cuts

variable {w w' : Traced α} {next next' : α → Traced β}

theorem pure (a : α) : Cuts (pure a : Traced α) (pure a) :=
  fun _ _ => .inr ⟨rfl, fun _ ⟨_, refused⟩ => nomatch refused⟩

theorem step (r : Run α) : Cuts (step r) (step r) := by
  intro calls m
  by_cases refused : ∃ m₁, (r m).Refuses m₁
  · obtain ⟨m₁, paren, failed⟩ := refused
    refine .inl ⟨m₁, ⟨paren, failed⟩, ⟨calls, m₁⟩, List.mem_cons_of_mem _ ?_, .refl m₁⟩
    rw [failed]
    exact List.mem_singleton_self _
  · exact .inr ⟨rfl, fun m₁ failed => refused ⟨m₁, failed⟩⟩

theorem bind (h : Cuts w w') (h' : ∀ a, Cuts (next a) (next' a)) : Cuts (w >>= next) (w' >>= next') := by
  intro calls m
  rw [bind_apply, bind_apply]
  rcases h calls m with ⟨m₁, ⟨paren, failed⟩, a, mem, state⟩ | ⟨same, allowed⟩
  · -- The first run ends with its first part, and the second one goes on.
    refine .inl ⟨m₁, ⟨paren, ?_⟩, a, ?_, state⟩
    · cases ran : w calls m with
      | mk o moments =>
        rw [ran] at failed
        obtain rfl : o = _ := failed
        rfl
    · cases ran : w' calls m with
      | mk o moments =>
        rw [ran] at mem
        cases o with
        | ok a m₁ => exact List.mem_append_left _ mem
        | fail e m₁ => exact mem
        | starved => exact mem
  · -- No call is refused in the first part, so the second parts begin alike.
    rw [same] at allowed ⊢
    cases ran : w' calls m with
    | mk o moments =>
      rw [ran] at allowed
      cases o with
      | ok a m₁ =>
        rcases h' a calls m₁ with ⟨m₂, failed, a', mem, state⟩ | ⟨same', allowed'⟩
        · exact .inl ⟨m₂, failed, a', List.mem_append_right moments mem, state⟩
        · refine .inr ⟨?_, allowed'⟩
          dsimp only
          rw [same']
      | fail e m₁ =>
        refine .inr ⟨rfl, ?_⟩
        rintro m₂ ⟨paren, ⟨⟩⟩
        exact allowed m₁ ⟨paren, rfl⟩
      | starved =>
        refine .inr ⟨rfl, ?_⟩
        rintro m₂ ⟨paren, ⟨⟩⟩

/-- What is refused inside is refused, in the state changed on the way back. -/
theorem refuses_leave {back : Machine → Machine} {o : Outcome α} {m₁ : Machine}
    (refused : (o.leave back).Refuses m₁) : ∃ m₂, o.Refuses m₂ := by
  obtain ⟨paren, failed⟩ := refused
  cases o with
  | ok a m => cases failed
  | fail e m =>
    cases failed
    exact ⟨m, paren, rfl⟩
  | starved => cases failed

theorem within (environment : Nat) (h : Cuts w w') :
    Cuts (within environment w) (within environment w') := by
  intro calls m
  unfold Traced.within
  rcases h calls { m with current := environment } with
    ⟨m₁, ⟨paren, failed⟩, a, mem, state⟩ | ⟨same, allowed⟩
  · refine .inl ⟨{ m₁ with current := m.current }, ⟨paren, ?_⟩, a, mem, ?_⟩
    · dsimp only
      rw [failed]
      rfl
    · exact state.control m.current m₁.callDepth
  · refine .inr ⟨by rw [same], fun m₁ refused => ?_⟩
    obtain ⟨m₂, refused⟩ := refuses_leave refused
    exact allowed m₂ refused

/-- What the wider limit refuses the other one refuses as well. -/
theorem asCall (wider : ∀ d : Nat, limit'.any (· ≤ d) = true → limit.any (· ≤ d) = true) (paren : Token)
    (h : Cuts w w') : Cuts (asCall limit paren w) (asCall limit' paren w') := by
  intro calls m
  unfold Traced.asCall
  by_cases refused : limit.any (· ≤ m.callDepth) = true
  · -- The moment in front of the call is told, whether the wider limit allows it or not.
    rw [if_pos refused]
    refine .inl ⟨m, ⟨paren, rfl⟩, ⟨calls, m⟩, ?_, .refl m⟩
    split <;> exact List.mem_cons_self
  · rw [if_neg refused, if_neg fun refused' => refused (wider m.callDepth refused')]
    rcases h (paren :: calls) { m with callDepth := m.callDepth + 1 } with
      ⟨m₁, ⟨paren', failed⟩, a, mem, state⟩ | ⟨same, allowed⟩
    · refine .inl ⟨{ m₁ with callDepth := m₁.callDepth - 1 }, ⟨paren', ?_⟩, a, ?_, ?_⟩
      · dsimp only
        rw [failed]
        rfl
      · exact List.mem_cons_of_mem _ (List.mem_append_left _ mem)
      · exact state.control m₁.current (m₁.callDepth - 1)
    · refine .inr ⟨by rw [same], fun m₁ refused' => ?_⟩
      obtain ⟨m₂, refused'⟩ := refuses_leave refused'
      exact allowed m₂ refused'

theorem compositional (wider : ∀ d : Nat, limit'.any (· ≤ d) = true → limit.any (· ≤ d) = true) :
    Compositional limit limit' fun _ w w' => Cuts w w' where
  pure := pure
  step {_ r} _ := step r
  bind := bind
  within := within
  asCall := asCall wider

end Cuts

/-! Programs -/

section

variable {m : Machine} {calls : List Token} {n : Nat}

theorem executeProgram_counts (limit : Option Nat) (n : Nat) (program : List Stmt) :
    Counts limit (executeProgram limit n program) :=
  executeProgram_every Counts.compositional n program

theorem executeProgram_extends (limit : Option Nat) (n : Nat) (program : List Stmt) :
    Extends (executeProgram limit n program) :=
  have good : Compositional limit limit fun _ w _ => Extends w := Extends.compositional
  executeProgram_every good n program

theorem executeProgram_cuts
    (wider : ∀ d : Nat, limit'.any (· ≤ d) = true → limit.any (· ≤ d) = true) (n : Nat)
    (program : List Stmt) : Cuts (executeProgram limit n program) (executeProgram limit' n program) :=
  executeProgram_every (Cuts.compositional wider) n program

theorem flush_apply (flushes : m.out.flushFails = false) : Run.flush m = .ok () m := by
  unfold Run.flush Sink.flush
  rw [flushes]
  rfl

theorem interpret_apply (flushes : m.out.flushFails = false) (limit : Option Nat) (n : Nat)
    (program : List Stmt) :
    interpret limit n program calls m = executeProgram limit n program calls m := by
  have after := (executeProgram_extends limit n program calls m).2
  unfold interpret
  cases ran : executeProgram limit n program calls m with
  | mk o moments =>
    rw [ran] at after
    cases o with
    | ok _ m₁ =>
      dsimp only
      rw [flush_apply ((after m₁ rfl).1.1.trans flushes)]
    | fail e m₁ =>
      dsimp only
      rw [flush_apply ((after m₁ rfl).1.1.trans flushes)]
    | starved => rfl

end

end Traced

namespace Run

variable {m : Machine} {n : Nat}

/-- The moments that a program comes by. -/
def moments (limit : Option Nat) (n : Nat) (program : List Stmt) (m : Machine) : List Moment :=
  (Traced.interpret limit n program [] m).2

/-- A limit that is greater, or none, refuses no call that the other one allows. -/
theorem wider_of_le {l : Nat} (larger : ∀ l' ∈ limit', l ≤ l') (d : Nat)
    (refused : limit'.any (· ≤ d) = true) : (some l).any (· ≤ d) = true := by
  obtain ⟨l', some_, le⟩ := (Option.any_eq_true _ _).mp refused
  exact decide_eq_true (Nat.le_trans (larger l' some_) (of_decide_eq_true le))

theorem moments_counted (limit : Option Nat) (n : Nat) (program : List Stmt)
    (idle : m.callDepth = 0) (flushes : m.out.flushFails = false) :
    ∀ a ∈ moments limit n program m, a.Counted limit := by
  unfold moments
  rw [Traced.interpret_apply flushes]
  exact (Traced.executeProgram_counts limit n program [] m ⟨idle, fun l _ => Nat.zero_le l⟩).1

/-- The output at the end of a program is what was written at each moment and more. -/
theorem moments_grow (flushes : m.out.flushFails = false) {program : List Stmt} {m' : Machine}
    (ended : (interpret limit n program m).state? = some m') :
    ∀ a ∈ moments limit n program m, a.state.out.Grows m'.out := by
  unfold moments
  rw [← Traced.erases_interpret limit n program [] m, Traced.interpret_apply flushes] at ended
  rw [Traced.interpret_apply flushes]
  exact ((Traced.executeProgram_extends limit n program [] m).2 m' ended).2

/-- A program ends where a call is refused, and under a wider limit it comes by the state that is left; or
it is the same under both limits. -/
theorem interpret_cuts (wider : ∀ d : Nat, limit'.any (· ≤ d) = true → limit.any (· ≤ d) = true)
    (flushes : m.out.flushFails = false) (n : Nat) (program : List Stmt) :
    (∃ m₁, (interpret limit n program m).Refuses m₁ ∧
        ∃ a ∈ moments limit' n program m, a.state.SameBut m₁) ∨
      interpret limit n program m = interpret limit' n program m ∧
        ∀ m₁, ¬ (interpret limit n program m).Refuses m₁ := by
  have cuts := Traced.executeProgram_cuts wider n program [] m
  rw [← Traced.interpret_apply flushes, ← Traced.interpret_apply flushes] at cuts
  rw [← Traced.erases_interpret limit n program [] m, ← Traced.erases_interpret limit' n program [] m]
  exact cuts.imp_right fun ⟨same, allowed⟩ => ⟨congrArg Prod.fst same, allowed⟩

/-- The limit on calls, for a program that is run when no call is under way, with output that is flushed
without a failure.

At every moment the counter is the number of call expressions whose callee is executing, and it is at most
`maxCallDepth`. If the run ends and no call was refused, it ends the same under every greater limit and under
none. If a call was refused, the program comes under such a limit by the very state that is left; so what was
written is the beginning of what is written under it, whether that run ends or not. -/
theorem depth_guard_cuts_off (larger : ∀ l ∈ limit', maxCallDepth ≤ l) (program : List Stmt)
    (idle : m.callDepth = 0) (flushes : m.out.flushFails = false) (n : Nat) :
    (∀ limit, (Traced.interpret limit n program [] m).1 = interpret limit n program m) ∧
    (∀ a ∈ moments (some maxCallDepth) n program m,
      a.state.callDepth = a.calls.length ∧ a.calls.length ≤ maxCallDepth) ∧
    (interpret (some maxCallDepth) n program m ≠ .starved →
      (∀ m₁, ¬ (interpret (some maxCallDepth) n program m).Refuses m₁) →
      ∀ k, n ≤ k → interpret limit' k program m = interpret (some maxCallDepth) n program m) ∧
    ∀ m₁, (interpret (some maxCallDepth) n program m).Refuses m₁ →
      (∀ k, n ≤ k → ∃ a ∈ moments limit' k program m, a.state.SameBut m₁ ∧ a.state.out = m₁.out) ∧
      ∀ k m', (interpret limit' k program m).state? = some m' →
        ∃ more, m'.out.text = m₁.out.text ++ more := by
  have deeper (k : Nat) (le : n ≤ k) (ends : interpret (some maxCallDepth) n program m ≠ .starved) :
      interpret (some maxCallDepth) k program m = interpret (some maxCallDepth) n program m :=
    (interpret_deepens (some maxCallDepth) le program m).resolve_left ends
  have cuts (k : Nat) := interpret_cuts (wider_of_le larger) flushes k program
  refine ⟨fun limit => Traced.erases_interpret limit n program [] m, fun a mem => ?_,
    fun ends allowed k le => ?_, fun m₁ refused => ?_⟩
  · have counted := moments_counted (some maxCallDepth) n program idle flushes a mem
    exact ⟨counted.count, counted.allowed maxCallDepth rfl⟩
  · rcases cuts k with ⟨m₁, refused, -⟩ | ⟨same, -⟩
    · rw [deeper k le ends] at refused
      exact absurd refused (allowed m₁)
    · rw [← same, deeper k le ends]
  · obtain ⟨paren, failed⟩ := refused
    have passes : ∀ k, n ≤ k →
        ∃ a ∈ moments limit' k program m, a.state.SameBut m₁ ∧ a.state.out = m₁.out := by
      intro k le
      have failed' := (deeper k le (by rw [failed]; rintro ⟨⟩)).trans failed
      rcases cuts k with ⟨m₂, ⟨paren', again⟩, a, mem, state⟩ | ⟨-, allowed⟩
      · rw [failed'] at again
        cases again
        exact ⟨a, mem, state, state.out.symm⟩
      · exact absurd ⟨paren, failed'⟩ (allowed m₁)
    refine ⟨passes, fun k m' ended => ?_⟩
    -- `k` may be less than `n`, where nothing is known of the refusal; but a run that ends there is the
    -- same at the greater of the two.
    have ended' : (interpret limit' (max n k) program m).state? = some m' := by
      rcases interpret_deepens limit' (Nat.le_max_right n k) program m with out | same
      · rw [out] at ended
        cases ended
      · rw [same]
        exact ended
    obtain ⟨a, mem, -, out⟩ := passes (max n k) (Nat.le_max_left n k)
    rw [← out]
    exact (moments_grow flushes ended' a mem).2

/-- A function that does nothing but call itself, behind `print true;`: its call number 256 is refused, and
without a limit the run comes by the state that is left, however long it goes on. -/
theorem depth_guard_cuts_off_endless :
    let name : Token := ⟨.identifier, "f", 1⟩
    let again : Stmt := .expression (.call (.variable name none) ⟨.symbol .rightParen, ")", 1⟩ [])
    let program : List Stmt := [.declareFunction ⟨name, [], [again]⟩, .print (.literal (.bool true)), again]
    let m := Machine.initial .unlimited fun _ => 0
    m.callDepth = 0 ∧ m.out.flushFails = false ∧
      (∀ a ∈ moments (some maxCallDepth) 1300 program m,
        a.state.callDepth = a.calls.length ∧ a.calls.length ≤ maxCallDepth) ∧
      ∃ m₁, (interpret (some maxCallDepth) 1300 program m).Refuses m₁ ∧ m₁.out.text = "true\n" ∧
        ∀ k, 1300 ≤ k → ∃ a ∈ moments none k program m, a.state.SameBut m₁ ∧ a.state.out = m₁.out := by
  intro name again program m
  have ends : (interpret (some maxCallDepth) 1300 program m).refusal?.any
      (fun m₁ => m₁.out.text = "true\n") = true := by decide +kernel
  obtain ⟨m₁, refused, text⟩ := (Option.any_eq_true _ _).mp ends
  have refused := Outcome.refuses_of_refusal? refused
  have larger : ∀ l ∈ (none : Option Nat), maxCallDepth ≤ l := nofun
  have guard := depth_guard_cuts_off larger program (m := m) rfl rfl 1300
  exact ⟨rfl, rfl, guard.2.1, m₁, refused, of_decide_eq_true text, (guard.2.2.2 m₁ refused).1⟩

end Run

end LoxLang
