import LoxLang.Proofs.Receivers.Timeline
import LoxLang.Proofs.Running.Binding
import LoxLang.Proofs.Running.Watching
/-!
Visits of nodes. A node that is reached is run from there on, and all that its run comes by is noted in one
piece, right after the node itself. So the log of a run tells not only where each node begins but also what
belongs to it. A run that ends has left every node it reached.

What is proved: whatever is run, every node that it notes is visited (`Watched.visits_executeProgram`).
-/
namespace LoxLang

variable {α β : Type} {limit : Option Nat} {n : Nat} {g : Log} {m m' : Machine}

namespace Watched

/-! Runs in other places, and as calls -/

theorem log_within (e : Nat) (w : Watched α) (g : Log) (m : Machine) :
    (within e w g m).2 = (w g { m with current := e }).2 := by
  unfold within
  rcases w g { m with current := e } with ⟨_ | _ | _, _⟩ <;> rfl

theorem ended_within {e : Nat} {w : Watched α} (ended : (within e w g m).1.state? = some m') :
    ∃ m₁, (w g { m with current := e }).1.state? = some m₁ ∧ m' = { m₁ with current := m.current } := by
  unfold within at ended
  rcases eq : w g { m with current := e } with ⟨_ | _ | _, _⟩ <;> rw [eq] at ended <;> cases ended
  · exact ⟨_, rfl, rfl⟩
  · exact ⟨_, rfl, rfl⟩

/-- A call that the limit does not allow fails where it starts, and any other one is run. -/
theorem asCall_cases (limit : Option Nat) (paren : Token) (w : Watched α) (g : Log) (m : Machine) :
    asCall limit paren w g m = lift (Run.fault paren .stackOverflow) g m ∨
      (asCall limit paren w g m).2 = (w g { m with callDepth := m.callDepth + 1 }).2 ∧
        ∀ m', (asCall limit paren w g m).1.state? = some m' →
          ∃ m₁, (w g { m with callDepth := m.callDepth + 1 }).1.state? = some m₁ ∧
            m' = { m₁ with callDepth := m₁.callDepth - 1 } := by
  unfold asCall
  split
  · exact .inl rfl
  · right
    rcases w g { m with callDepth := m.callDepth + 1 } with ⟨_ | _ | _, _⟩
    · exact ⟨rfl, fun _ ended => by cases ended; exact ⟨_, rfl, rfl⟩⟩
    · exact ⟨rfl, fun _ ended => by cases ended; exact ⟨_, rfl, rfl⟩⟩
    · exact ⟨rfl, nofun⟩

/-! Nodes -/

def node (limit : Option Nat) (n : Nat) (p : Site) : Part → Watched Unit
  | .expression e => evaluate limit n p e >>= fun _ => pure ()
  | .statement s => execute limit n p s >>= fun _ => pure ()
  | _ => pure ()

/-- What is noted after a node is reached starts with all that the run of the node notes; and this run ends, if
the whole one does. -/
def Visit (limit : Option Nat) (p : Site) (part : Part) (m : Machine) (earlier later : List Mark)
    (whole : Prop) : Prop :=
  ∃ n g own rest, g.marks = earlier ∧ later = rest ++ own ∧
    (node limit n p part).Notes g m (own ++ [.reached p part m]) ∧
    (whole → (node limit n p part g m).1.state?.isSome)

theorem Visit.imp {p : Site} {part : Part} {earlier later : List Mark} {whole whole' : Prop}
    (h : Visit limit p part m earlier later whole) (imp : whole' → whole) :
    Visit limit p part m earlier later whole' := by
  obtain ⟨n, g, own, rest, before, after, notes, ends⟩ := h
  exact ⟨n, g, own, rest, before, after, notes, fun holds => ends (imp holds)⟩

/-- Every node that the run reaches is visited, and no environment is taken away. -/
def Visits (limit : Option Nat) (w : Watched α) : Prop :=
  ∀ g m, ∃ new, w.Notes g m new ∧
    (∀ m', (w g m).1.state? = some m' → m.environments.size ≤ m'.environments.size) ∧
    ∀ later p part m₁ earlier, new = later ++ .reached p part m₁ :: earlier →
      m.environments.size ≤ m₁.environments.size ∧
        Visit limit p part m₁ (earlier ++ g.marks) later (w g m).1.state?.isSome

/-- What stands in one of two lists put together stands in the one or in the other. -/
theorem split_append {x : Mark} {new' new later earlier : List Mark}
    (split : new' ++ new = later ++ x :: earlier) :
    (∃ later', later = new' ++ later' ∧ new = later' ++ x :: earlier) ∨
      ∃ earlier', new' = later ++ x :: earlier' ∧ earlier = earlier' ++ new := by
  rcases List.append_eq_append_iff.mp split with front | ⟨back, rfl, same⟩
  · exact .inl front
  · cases back with
    | nil => exact .inl ⟨[], by simp, same.symm⟩
    | cons y back =>
      rw [List.cons_append] at same
      cases same
      exact .inr ⟨back, rfl, rfl⟩

/-- What a run ends in and notes is all there is of it, if it gives no value to go on with. -/
theorem bind_or_stop (w : Watched α) (next : α → Watched β) (g : Log) (m : Machine) :
    (∃ a m₁ g₁, w g m = (.ok a m₁, g₁) ∧ (w >>= next) g m = next a g₁ m₁) ∨
      ((w >>= next) g m).1.state? = (w g m).1.state? ∧ ((w >>= next) g m).2 = (w g m).2 := by
  rcases bind_cases w next g m with goes | ⟨f, m₁, g₁, eq, rest⟩ | ⟨g₁, eq, rest⟩
  · exact .inl goes
  · right
    rw [rest, eq]
    exact ⟨rfl, rfl⟩
  · right
    rw [rest, eq]
    exact ⟨rfl, rfl⟩

theorem ended_pure (w : Watched α) (b : β) (g : Log) (m : Machine) :
    ((w >>= fun _ => Pure.pure b) g m).1.state? = (w g m).1.state? ∧
      ((w >>= fun _ => Pure.pure b) g m).2 = (w g m).2 := by
  rcases bind_or_stop w (fun _ => Pure.pure b) g m with ⟨a, m₁, g₁, eq, rest⟩ | same
  · rw [rest, eq]
    exact ⟨rfl, rfl⟩
  · exact same

namespace Visits

variable {w : Watched α} {next : α → Watched β}

theorem of_none (noted : ∀ g m, ∃ new, w.Notes g m new ∧ ∀ p part m₁, .reached p part m₁ ∉ new)
    (grows : ∀ g m m', (w g m).1.state? = some m' → m.environments.size ≤ m'.environments.size) :
    Visits limit w := by
  intro g m
  obtain ⟨new, noted, none⟩ := noted g m
  refine ⟨new, noted, grows g m, fun later p part m₁ earlier split => ?_⟩
  exact absurd (split ▸ List.mem_append_right _ List.mem_cons_self) (none p part m₁)

theorem lift (own : Bool) {r : Run α} (confined : Run.Confined own r) : Visits limit (lift r) :=
  of_none (fun _ _ => ⟨[], rfl, fun _ _ _ => List.not_mem_nil⟩) fun _ m m' ended =>
    (confined m m' ended).size

theorem pure (a : α) : Visits limit (pure a : Watched α) := lift false (.pure a)

theorem bind (h : Visits limit w) (h' : ∀ a, Visits limit (next a)) : Visits limit (w >>= next) := by
  intro g m
  obtain ⟨new, noted, grows, visits⟩ := h g m
  rcases bind_or_stop w next g m with ⟨a, m₁, g₁, eq, rest⟩ | ⟨ended, log⟩
  · obtain ⟨new', noted', grows', visits'⟩ := h' a g₁ m₁
    have larger := grows m₁ (by rw [eq]; rfl)
    unfold Notes at noted noted' ⊢
    have marks : g₁.marks = new ++ g.marks := by rw [← noted, eq]
    rw [rest]
    refine ⟨new' ++ new, ?_, fun m' ended => Nat.le_trans larger (grows' m' ended), ?_⟩
    · rw [noted', marks, List.append_assoc]
    · intro later p part m₂ earlier whole
      rcases split_append whole with ⟨later', rfl, first⟩ | ⟨earlier', second, rfl⟩
      · obtain ⟨le, n, g₂, own, others, before, rfl, run, ends⟩ := visits later' p part m₂ earlier first
        exact ⟨le, n, g₂, own, new' ++ others, before, (List.append_assoc _ _ _).symm, run,
          fun _ => ends (by rw [eq]; rfl)⟩
      · obtain ⟨le, visit⟩ := visits' later p part m₂ earlier' second
        rw [marks, ← List.append_assoc] at visit
        exact ⟨Nat.le_trans larger le, visit⟩
  · rw [ended]
    exact ⟨new, (congrArg Log.marks log).trans noted, grows, visits⟩

theorem within (e : Nat) (h : Visits limit w) : Visits limit (within e w) := by
  intro g m
  obtain ⟨new, noted, grows, visits⟩ := h g { m with current := e }
  refine ⟨new, (congrArg Log.marks (log_within e w g m)).trans noted, fun m' ended => ?_,
    fun later p part m₁ earlier split => ?_⟩
  · obtain ⟨m₁, inside, rfl⟩ := ended_within ended
    exact grows m₁ inside
  · obtain ⟨le, visit⟩ := visits later p part m₁ earlier split
    refine ⟨le, visit.imp fun ended => ?_⟩
    obtain ⟨m', ended⟩ := Option.isSome_iff_exists.mp ended
    obtain ⟨m₂, inside, -⟩ := ended_within ended
    exact Option.isSome_of_eq_some inside

theorem asCall (paren : Token) (h : Visits limit w) : Visits limit (asCall limit paren w) := by
  intro g m
  rcases asCall_cases limit paren w g m with refused | ⟨log, ends⟩
  · have faults : Visits limit (Watched.lift (Run.fault paren .stackOverflow) : Watched α) :=
      lift false (Run.fault_confined paren .stackOverflow)
    obtain ⟨new, noted, grows, visits⟩ := faults g m
    unfold Notes at noted ⊢
    rw [refused]
    exact ⟨new, noted, grows, visits⟩
  · obtain ⟨new, noted, grows, visits⟩ := h g { m with callDepth := m.callDepth + 1 }
    refine ⟨new, (congrArg Log.marks log).trans noted, fun m' ended => ?_,
      fun later p part m₁ earlier split => ?_⟩
    · obtain ⟨m₁, inside, rfl⟩ := ends m' ended
      exact grows m₁ inside
    · obtain ⟨le, visit⟩ := visits later p part m₁ earlier split
      refine ⟨le, visit.imp fun ended => ?_⟩
      obtain ⟨m', ended⟩ := Option.isSome_iff_exists.mp ended
      obtain ⟨m₂, inside, -⟩ := ends m' ended
      exact Option.isSome_of_eq_some inside

theorem access (p : Site) (name : Token) (depth : Option Nat) :
    Visits limit (access p name depth) := by
  refine of_none (fun _ m => ⟨[.accessed p name depth m], rfl, fun _ _ _ mem => ?_⟩) fun _ m m' ended => ?_
  · cases List.mem_singleton.mp mem
  · cases ended
    exact Nat.le_refl _

theorem note {f : Log → α} {h : Log → Log} (same : ∀ g, (h g).marks = g.marks) :
    Visits limit (fun g m => (.ok (f g) m, h g) : Watched α) := by
  refine of_none (fun g _ => ⟨[], same g, fun _ _ _ => List.not_mem_nil⟩) fun _ m m' ended => ?_
  cases ended
  exact Nat.le_refl _

/-- A node is visited if those of its parts are that its run reaches. -/
theorem node {p : Site} {part : Part} {rest : Watched α} (starts : w = reach p part >>= fun _ => rest)
    (runs : ∀ g m, (Watched.node limit n p part g m).1.state? = (w g m).1.state? ∧
      (Watched.node limit n p part g m).2 = (w g m).2) (h : Visits limit rest) :
    Visits limit w := by
  intro g m
  have goes : w g m = rest { g with marks := .reached p part m :: g.marks } m := by
    rw [starts]
    rfl
  obtain ⟨new, noted, grows, visits⟩ := h { g with marks := .reached p part m :: g.marks } m
  rw [← goes] at grows visits
  have noted : w.Notes g m (new ++ [.reached p part m]) := by
    unfold Notes at noted ⊢
    rw [goes, noted, List.append_assoc]
    rfl
  refine ⟨_, noted, grows, fun later q part' m₁ earlier whole => ?_⟩
  rcases split_append whole with ⟨later', rfl, last⟩ | ⟨earlier', first, rfl⟩
  · cases later' with
    | nil =>
      cases last
      obtain ⟨same, log⟩ := runs g m
      exact ⟨Nat.le_refl _, n, g, new, [], rfl, by simp, (congrArg Log.marks log).trans noted, fun ended => same ▸ ended⟩
    | cons mark later' => simp at last
  · obtain ⟨le, visit⟩ := visits later q part' m₁ earlier' first
    rw [List.append_assoc]
    exact ⟨le, visit⟩

end Visits

theorem composes_visits (limit : Option Nat) : Composes limit fun _ _ w => Visits limit w where
  pure := .pure
  more _ h := h
  bind := .bind
  within e := .within e
  inside outer bindings h := .bind (.lift false (Run.newEnvironment_confined outer bindings))
    fun scope => .within scope h
  asCall paren := .asCall paren
  expression {n} {p} {e} _ starts := .node starts (ended_pure (evaluate limit (n + 1) p e) ())
  statement {n} {p} {s} _ starts := .node starts (ended_pure (execute limit (n + 1) p s) ())
  assignment {n} {p} {name} {value} {depth} h :=
    .node rfl (ended_pure (evaluate limit (n + 1) p (.assign name value depth)) ())
      (.bind h fun v => .bind (.access p name depth) fun _ =>
        .bind (.lift false (Run.assign_confined name depth v)) fun _ => .pure v)
  access := .access
  noteOrigin _ _ := .note fun _ => rfl
  originOf _ := .note fun _ => rfl
  starved := .lift false .starved
  fault token f := .lift false (Run.fault_confined token f)
  newId := .lift false Run.confined_builds.newId
  current := .lift false Run.current_confined
  newEnvironment outer bindings := .lift false (Run.newEnvironment_confined outer bindings)
  newInstance := .lift false Run.newInstance_confined
  define name v := .lift true (Run.define_confined name v)
  lookUp name depth := .lift false (Run.lookUp_confined name depth)
  receiver e := .lift false (Run.receiver_confined e)
  field? id name := .lift false (Run.confined_builds.field? id name)
  setField id name v := .lift false (Run.setField_confined id name v)
  writeLine text := .lift false (Run.writeLine_confined text)
  readClock := .lift false Run.confined_builds.readClock

theorem mem_notes_execute {p : Site} {s : Stmt} {new : List Mark}
    (noted : (execute limit (n + 1) p s).Notes g m new) : .reached p (.statement s) m ∈ new := by
  obtain ⟨rest, starts, visits⟩ :=
    execute_starts (composes_visits limit) (every (composes_visits limit) n) p s
  obtain ⟨new', noted', -⟩ := visits { g with marks := .reached p (.statement s) m :: g.marks } m
  have both : new ++ g.marks = (new' ++ [.reached p (.statement s) m]) ++ g.marks := by
    rw [List.append_assoc]
    refine noted.symm.trans ?_
    rw [starts]
    exact noted'
  rw [List.append_cancel_right both]
  exact List.mem_append_right _ List.mem_cons_self

/-- Every node that a program reaches is visited. -/
theorem visits_executeProgram (limit : Option Nat) (n : Nat) (p : Site) (program : List Stmt) :
    Visits limit (executeProgram limit n p program) :=
  executeProgram_every (composes_visits limit) n p program

end Watched

end LoxLang
