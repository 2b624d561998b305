import LoxLang.Proofs.Running.Abreast
import LoxLang.Proofs.Running.Visits
/-!
What runs leave of the globals. A name becomes global where a declaration runs in the outermost environment, and
a global gets another value there or by an assignment that leads there.

What is proved: whatever is run, the globals keep their names; new ones are among those that the run may bind
where it starts, and this only if it starts at the globals; and a value changes only with an assignment that is
noted (`Watched.spares_every`). Over a program, what is new is bound by a statement that is noted
(`Watched.executeProgram_spares`).
-/
namespace LoxLang

variable {α β : Type} {limit : Option Nat} {n : Nat} {g : Log} {m m' m'' : Machine}

/-! What becomes of the globals -/

/-- From one state to the other the globals lose no name and get none but the given ones. Only these, and those
that are assigned, get another value. -/
structure Machine.Spares (names : List String) (assigned : String → Prop) (m m' : Machine) : Prop where
  kept : ∀ x, (m.global? x).isSome → (m'.global? x).isSome
  bound : ∀ x, (m'.global? x).isSome → (m.global? x).isSome ∨ x ∈ names
  values : ∀ x, m'.global? x ≠ m.global? x → x ∈ names ∨ assigned x

namespace Machine.Spares

variable {names names' : List String} {assigned assigned' : String → Prop}

theorem of_same (same : ∀ x, m'.global? x = m.global? x) : m.Spares names assigned m' where
  kept x bound := by rwa [same]
  bound x bound := .inl (by rwa [← same])
  values x other := absurd (same x) other

theorem imp (h : m.Spares names assigned m') (more : names ⊆ names')
    (imp : ∀ x, assigned x → assigned' x) : m.Spares names' assigned' m' where
  kept := h.kept
  bound x bound := (h.bound x bound).imp_right (more ·)
  values x other := (h.values x other).imp (more ·) (imp x)

theorem trans (h : m.Spares names assigned m') (h' : m'.Spares names assigned m'') :
    m.Spares names assigned m'' where
  kept x bound := h'.kept x (h.kept x bound)
  bound x bound := (h'.bound x bound).elim (h.bound x) .inr
  values x other := by
    by_cases first : m'.global? x = m.global? x
    · exact h'.values x (first ▸ other)
    · exact h.values x first

theorem congr {k k' : Machine} (h : k.Spares names assigned k') (start : m.environments = k.environments)
    (stop : m'.environments = k'.environments) : m.Spares names assigned m' := by
  have before (x : String) : m.global? x = k.global? x := by rw [global?, global?, start]
  have after (x : String) : m'.global? x = k'.global? x := by rw [global?, global?, stop]
  refine ⟨fun x => ?_, fun x => ?_, fun x => ?_⟩
  · rw [before, after]
    exact h.kept x
  · rw [before, after]
    exact h.bound x
  · rw [before, after]
    exact h.values x

/-- A name that is bound where statements run is a new global at most if these are the globals. -/
theorem define (m : Machine) (e : Nat) (name : String) (v : Value) :
    m.Spares (if e = Machine.globals then [name] else []) assigned
      { m with environments := m.environments.define e name v } := by
  have found (x : String) : ({ m with environments := m.environments.define e name v } : Machine).global? x =
      if Machine.globals < m.environments.size ∧ e = Machine.globals ∧ name = x then some v
      else m.global? x := Forest.findHere?_define _ _ _ _ _ _
  refine ⟨fun x bound => ?_, fun x bound => ?_, fun x other => ?_⟩
  · rw [found]
    split
    · rfl
    · exact bound
  · rw [found] at bound
    split at bound
    · rename_i here
      exact .inr (by simp [here])
    · exact .inl bound
  · rw [found] at other
    split at other
    · rename_i here
      exact .inl (by simp [here])
    · exact absurd rfl other

end Machine.Spares

/-- What was noted tells of an assignment to this name, with this distance, that leads to the globals. -/
def AssignsGlobal (marks : List Mark) (depth : Option Nat) (x : String) : Prop :=
  ∃ p name value m₀ m, .reached p (.expression (.assign name value depth)) m₀ ∈ marks ∧
    .accessed p name depth m ∈ marks ∧ name.lexeme = x ∧ m.holding? x depth = some Machine.globals

theorem AssignsGlobal.more {marks marks' : List Mark} (more : marks ⊆ marks') {depth : Option Nat}
    {x : String} : AssignsGlobal marks depth x → AssignsGlobal marks' depth x
  | ⟨p, name, value, m₀, m, reached, accessed, leads⟩ =>
    ⟨p, name, value, m₀, m, more reached, more accessed, leads⟩

/-- The names that become global if they are bound where statements run. -/
def Machine.exposed (m : Machine) (names : List String) : List String :=
  if m.current = Machine.globals then names else []

/-- How a run leaves the machine if it may bind these names where it starts, told by what it notes. -/
structure Machine.Leaves (names : List String) (new : List Mark) (m m' : Machine) : Prop where
  nonempty : 0 < m'.environments.size
  current : m'.current = m.current
  spares : m.Spares (m.exposed names) (fun x => ∃ depth, AssignsGlobal new depth x) m'

namespace Machine.Leaves

variable {names names' : List String} {new new' : List Mark}

theorem of_same (nonempty : 0 < m.environments.size) (environments : m'.environments = m.environments)
    (current : m'.current = m.current) : m.Leaves names new m' where
  nonempty := environments ▸ nonempty
  current := current
  spares := .of_same fun x => by rw [global?, global?, environments]

theorem more (h : m.Leaves names new m') (more : names ⊆ names') (later : new ⊆ new') :
    m.Leaves names' new' m' where
  nonempty := h.nonempty
  current := h.current
  spares := by
    refine h.spares.imp ?_ fun x ⟨depth, assigns⟩ => ⟨depth, assigns.more later⟩
    unfold exposed
    split
    · exact more
    · exact List.Subset.refl _

theorem trans (h : m.Leaves names new m') (h' : m'.Leaves names new m'') : m.Leaves names new m'' where
  nonempty := h'.nonempty
  current := h'.current.trans h.current
  spares := by
    have second := h'.spares
    rw [exposed, h.current] at second
    exact h.spares.trans second

end Machine.Leaves

namespace Watched

/-- The run leaves the machine so, however it ends. -/
def Spares (names : List String) (w : Watched α) : Prop :=
  ∀ g m, 0 < m.environments.size →
    ∃ new, w.Notes g m new ∧ ∀ m', (w g m).1.state? = some m' → m.Leaves names new m'

namespace Spares

variable {names names' : List String} {w : Watched α} {next : α → Watched β}

theorem more (more : names ⊆ names') (h : Spares names w) : Spares names' w := by
  intro g m nonempty
  obtain ⟨new, noted, leaves⟩ := h g m nonempty
  exact ⟨new, noted, fun m' ended => (leaves m' ended).more more (List.Subset.refl _)⟩

theorem still {r : Run α} (same : ∀ m, ∃ m', (r m).state? = some m' ∧
    m'.environments = m.environments ∧ m'.current = m.current) : Spares names (lift r) := by
  refine fun g m nonempty => ⟨[], rfl, fun m' ended => ?_⟩
  obtain ⟨m₁, ended', environments, current⟩ := same m
  cases ended'.symm.trans ended
  exact .of_same nonempty environments current

theorem starved : Spares names (lift Run.starved : Watched α) :=
  fun _ _ _ => ⟨[], rfl, nofun⟩

theorem note {f : Log → α} {h : Log → Log} (noted : ∀ g, (h g).marks = g.marks) :
    Spares names (fun g m => (.ok (f g) m, h g) : Watched α) := by
  refine fun g m nonempty => ⟨[], noted g, fun m' ended => ?_⟩
  cases ended
  exact .of_same nonempty rfl rfl

theorem access (p : Site) (name : Token) (depth : Option Nat) : Spares names (access p name depth) := by
  refine fun g m nonempty => ⟨[.accessed p name depth m], rfl, fun m' ended => ?_⟩
  cases ended
  exact .of_same nonempty rfl rfl

theorem bind (h : Spares names w) (h' : ∀ a, Spares names (next a)) : Spares names (w >>= next) := by
  intro g m nonempty
  obtain ⟨new, noted, leaves⟩ := h g m nonempty
  rcases bind_or_stop w next g m with ⟨a, m₁, g₁, eq, rest⟩ | ⟨ended, log⟩
  · have first := leaves m₁ (by rw [eq]; rfl)
    obtain ⟨new', noted', leaves'⟩ := h' a g₁ m₁ first.nonempty
    refine ⟨new' ++ new, ?_, fun m' ended => ?_⟩
    · unfold Notes at noted noted' ⊢
      rw [rest, noted', List.append_assoc, ← noted, eq]
    · rw [rest] at ended
      exact (first.more (List.Subset.refl _) (List.subset_append_right _ _)).trans
        ((leaves' m' ended).more (List.Subset.refl _) (List.subset_append_left _ _))
  · exact ⟨new, (congrArg Log.marks log).trans noted, fun m' stops => leaves m' (ended ▸ stops)⟩

theorem within (e : Nat) (h : Spares [] w) : Spares names (within e w) := by
  intro g m nonempty
  obtain ⟨new, noted, leaves⟩ := h g { m with current := e } nonempty
  refine ⟨new, (congrArg Log.marks (log_within e w g m)).trans noted, fun m' ended => ?_⟩
  obtain ⟨m₁, inside, rfl⟩ := ended_within ended
  obtain ⟨nonempty, -, spares⟩ := leaves m₁ inside
  rw [Machine.exposed, ite_self] at spares
  exact ⟨nonempty, rfl, (spares.imp (List.nil_subset _) fun _ => id).congr rfl rfl⟩

/-- A new environment is not the one of the globals, and so what is bound in it becomes no global. -/
theorem inside (outer : Nat) (bindings : Bindings Value) (h : Spares names w) :
    Spares names' (Watched.lift (Run.newEnvironment outer bindings) >>= fun scope =>
      Watched.within scope w) := by
  intro g m nonempty
  let entered : Machine := { m with environments := m.environments.push (some outer) bindings }
  have size : entered.environments.size = m.environments.size + 1 := Forest.size_push _ _ _
  have larger : 0 < entered.environments.size := size ▸ Nat.succ_pos _
  obtain ⟨new, noted, leaves⟩ := h g { entered with current := m.environments.size } larger
  refine ⟨new, (congrArg Log.marks (log_within _ w g entered)).trans noted, fun m' ended => ?_⟩
  obtain ⟨m₁, inside, rfl⟩ := ended_within (w := w) (m := entered) ended
  obtain ⟨nonempty', -, spares⟩ := leaves m₁ inside
  have pushed : m.Spares [] (fun x => ∃ depth, AssignsGlobal new depth x) entered :=
    .of_same fun x => Forest.findHere?_push_of_lt nonempty _ _ x
  have elsewhere : m.environments.size ≠ Machine.globals := Nat.ne_of_gt nonempty
  rw [Machine.exposed, if_neg elsewhere] at spares
  have after : entered.Spares [] (fun x => ∃ depth, AssignsGlobal new depth x) m₁ := spares.congr rfl rfl
  have whole := pushed.trans after
  exact ⟨nonempty', rfl, (whole.imp (List.nil_subset _) fun _ => id).congr rfl rfl⟩

theorem asCall (paren : Token) (h : Spares [] w) : Spares [] (asCall limit paren w) := by
  intro g m nonempty
  rcases asCall_cases limit paren w g m with refused | ⟨log, ends⟩
  · refine ⟨[], by unfold Notes; rw [refused]; rfl, fun m' ended => ?_⟩
    rw [refused] at ended
    cases ended
    exact .of_same nonempty rfl rfl
  · obtain ⟨new, noted, leaves⟩ := h g { m with callDepth := m.callDepth + 1 } nonempty
    refine ⟨new, (congrArg Log.marks log).trans noted, fun m' ended => ?_⟩
    obtain ⟨m₁, inside, rfl⟩ := ends m' ended
    obtain ⟨nonempty, current, spares⟩ := leaves m₁ inside
    exact ⟨nonempty, current, spares.congr rfl rfl⟩

theorem define (name : String) (v : Value) : Spares [name] (lift (Run.define name v)) := by
  refine fun g m nonempty => ⟨[], rfl, fun m' ended => ?_⟩
  cases ended
  exact ⟨(Forest.size_define ..).symm ▸ nonempty, rfl, .define m m.current name v⟩

theorem node {p : Site} {part : Part} {rest : Watched α} (starts : w = reach p part >>= fun _ => rest)
    (h : Spares names rest) : Spares names w := by
  subst starts
  intro g m nonempty
  obtain ⟨new, noted, leaves⟩ := h { g with marks := .reached p part m :: g.marks } m nonempty
  refine ⟨new ++ [.reached p part m], ?_, fun m' ended => ?_⟩
  · rw [Notes, List.append_assoc]
    exact noted
  · exact (leaves m' ended).more (List.Subset.refl _) (List.subset_append_left _ _)

/-- An assignment that leads to the globals gives another value to a name that is bound there. -/
theorem assign {name : Token} {depth : Option Nat} {v : Value} {new : List Mark} {p : Site} {value : Expr}
    {m₀ : Machine} (reached : .reached p (.expression (.assign name value depth)) m₀ ∈ new)
    (accessed : .accessed p name depth m ∈ new) (nonempty : 0 < m.environments.size)
    (ended : (Run.assign name depth v m).state? = some m') : m.Leaves names new m' := by
  have assigns : Run.Confined false (Run.assign name depth v) := Run.assign_confined name depth v
  have confined := assigns m m' ended
  refine ⟨Nat.lt_of_lt_of_le nonempty confined.size, confined.current, ?_⟩
  have same (x : String) := confined.bound Machine.globals nonempty nofun x
  refine ⟨fun x bound => (same x).trans bound, fun x bound => .inl ((same x).symm.trans bound),
    fun x other => .inr ?_⟩
  rw [Run.assign_apply] at ended
  cases held : m.holding? name.lexeme depth with
  | none =>
    rw [held] at ended
    cases ended
    exact absurd rfl other
  | some e =>
    rw [held] at ended
    cases ended
    have found : _ = _ := Forest.findHere?_define m.environments e name.lexeme v Machine.globals x
    rw [Machine.global?, found] at other
    split at other
    · rename_i here
      obtain ⟨-, rfl, rfl⟩ := here
      exact ⟨depth, p, name, value, m₀, m, reached, accessed, rfl, held⟩
    · exact absurd rfl other

theorem assignment {p : Site} {name : Token} {value : Expr} {depth : Option Nat}
    (h : Spares [] (evaluate limit n (p.child 0) value)) :
    Spares [] (evaluate limit (n + 1) p (.assign name value depth)) := by
  intro g m nonempty
  let here : Mark := .reached p (.expression (.assign name value depth)) m
  obtain ⟨new, noted, leaves⟩ := h { g with marks := here :: g.marks } m nonempty
  let next (v : Value) : Watched Value := Watched.access p name depth >>= fun _ =>
    Watched.lift (Run.assign name depth v) >>= fun _ => Pure.pure v
  have starts : evaluate limit (n + 1) p (.assign name value depth) g m =
      (evaluate limit n (p.child 0) value >>= next) { g with marks := here :: g.marks } m := rfl
  unfold Notes at noted ⊢
  rw [starts]
  rcases bind_or_stop (evaluate limit n (p.child 0) value) next { g with marks := here :: g.marks } m with
    ⟨v, m₁, g₁, eq, rest⟩ | ⟨stops, log⟩
  · have first := leaves m₁ (by rw [eq]; rfl)
    obtain ⟨ends, log⟩ := ended_pure (Watched.lift (Run.assign name depth v)) v
      { g₁ with marks := .accessed p name depth m₁ :: g₁.marks } m₁
    have last : next v g₁ m₁ = (Watched.lift (Run.assign name depth v) >>= fun _ => Pure.pure v)
        { g₁ with marks := .accessed p name depth m₁ :: g₁.marks } m₁ := rfl
    refine ⟨.accessed p name depth m₁ :: (new ++ [here]), ?_, fun m' ended => ?_⟩
    · rw [eq] at noted
      have before : g₁.marks = new ++ here :: g.marks := noted
      rw [rest, last, log]
      show Mark.accessed p name depth m₁ :: g₁.marks = _
      rw [before, List.cons_append, List.append_assoc]
      rfl
    · rw [rest, last, ends] at ended
      have reached : here ∈ Mark.accessed p name depth m₁ :: (new ++ [here]) := by simp
      have assigned : m₁.Leaves [] (.accessed p name depth m₁ :: (new ++ [here])) m' :=
        assign reached List.mem_cons_self first.nonempty ended
      refine (first.more (List.Subset.refl _) ?_).trans assigned
      exact List.subset_cons_of_subset _ (List.subset_append_left _ _)
  · refine ⟨new ++ [here], ?_, fun m' ended => ?_⟩
    · rw [log, noted, List.append_assoc]
      rfl
    · exact (leaves m' (stops ▸ ended)).more (List.Subset.refl _) (List.subset_append_left _ _)

end Spares

theorem composes_spares (limit : Option Nat) : Composes limit fun names _ w => Spares names w where
  pure a := .still fun m => ⟨_, rfl, rfl, rfl⟩
  more := .more
  bind := .bind
  within := .within
  inside := .inside
  asCall := .asCall
  expression := .node
  statement := .node
  assignment := .assignment
  access := .access
  noteOrigin _ _ := .note fun _ => rfl
  originOf _ := .note fun _ => rfl
  starved := .starved
  fault _ _ := .still fun m => ⟨_, rfl, rfl, rfl⟩
  newId := .still fun m => ⟨_, rfl, rfl, rfl⟩
  current := .still fun m => ⟨_, rfl, rfl, rfl⟩
  newEnvironment outer bindings := by
    refine fun g m nonempty => ⟨[], rfl, fun m' ended => ?_⟩
    cases ended
    refine ⟨?_, rfl, .of_same fun x => Forest.findHere?_push_of_lt nonempty _ _ x⟩
    exact Nat.lt_of_lt_of_eq (Nat.succ_pos _) (Forest.size_push _ _ _).symm
  newInstance := .still fun m => ⟨_, rfl, rfl, rfl⟩
  define := .define
  lookUp name depth := .still fun m => by
    rw [Run.lookUp_apply]
    cases m.named? name.lexeme depth <;> exact ⟨m, rfl, rfl, rfl⟩
  receiver _ := .still fun m => ⟨_, rfl, rfl, rfl⟩
  field? _ _ := .still fun m => ⟨_, rfl, rfl, rfl⟩
  setField _ _ _ := .still fun m => ⟨_, rfl, rfl, rfl⟩
  writeLine text := .still fun m => by
    unfold Run.writeLine
    split <;> exact ⟨_, rfl, rfl, rfl⟩
  readClock := .still fun m => ⟨_, rfl, rfl, rfl⟩

/-- Whatever is run at whatever depth, it spares the globals. -/
theorem spares_every (limit : Option Nat) (n : Nat) : Every limit (fun names _ w => Spares names w) n :=
  every (composes_spares limit) n

/-- What the statements of a program add to the globals, or change, is bound by one of them that is run, or is
assigned. -/
theorem executeProgram_spares (limit : Option Nat) (n : Nat) : ∀ (p : Site) (ss : List Stmt) (g : Log) (m : Machine),
    0 < m.environments.size → ∃ new, (executeProgram limit n p ss).Notes g m new ∧
      ∀ m', (executeProgram limit n p ss g m).1.state? = some m' →
        ∃ names, m.Leaves names new m' ∧ ∀ x ∈ names, ∃ q s m₁,
          .reached q (.statement s) m₁ ∈ new ∧ m₁.current = m.current ∧ x ∈ s.binds
  | _, [], _, m, nonempty => by
    refine ⟨[], rfl, fun m' ended => ?_⟩
    cases ended
    exact ⟨[], .of_same nonempty rfl rfl, nofun⟩
  | p, s :: ss, g, m, nonempty => by
    obtain ⟨new, noted, leaves⟩ := (spares_every limit n).execute (p.child 0) s g m nonempty
    have told (m' : Machine) (ended : (execute limit n (p.child 0) s g m).1.state? = some m') :
        .reached (p.child 0) (.statement s) m ∈ new := by
      cases n with
      | zero => cases ended
      | succ n => exact mem_notes_execute noted
    rcases bind_or_stop (execute limit n (p.child 0) s) (fun _ => executeProgram limit n (p.child 1) ss) g m
      with ⟨flow, m₁, g₁, eq, rest⟩ | ⟨stops, log⟩
    · have ended₁ : (execute limit n (p.child 0) s g m).1.state? = some m₁ := by rw [eq]; rfl
      have first := leaves m₁ ended₁
      obtain ⟨new', noted', leaves'⟩ := executeProgram_spares limit n (p.child 1) ss g₁ m₁ first.nonempty
      have goes : executeProgram limit n p (s :: ss) g m = executeProgram limit n (p.child 1) ss g₁ m₁ := rest
      refine ⟨new' ++ new, ?_, fun m' ended => ?_⟩
      · unfold Notes at noted noted' ⊢
        rw [goes, noted', List.append_assoc, ← noted, eq]
      · rw [goes] at ended
        obtain ⟨names, second, bound⟩ := leaves' m' ended
        refine ⟨s.binds ++ names, ?_, fun x mem => ?_⟩
        · exact (first.more (List.subset_append_left _ _) (List.subset_append_right _ _)).trans
            (second.more (List.subset_append_right _ _) (List.subset_append_left _ _))
        · rcases List.mem_append.mp mem with here | later
          · exact ⟨_, s, m, List.mem_append_right _ (told m₁ ended₁), rfl, here⟩
          · obtain ⟨q, s', m₂, reached, current, binds⟩ := bound x later
            exact ⟨q, s', m₂, List.mem_append_left _ reached, current.trans first.current, binds⟩
    · refine ⟨new, (congrArg Log.marks log).trans noted, fun m' ended => ?_⟩
      have ended' : (execute limit n (p.child 0) s g m).1.state? = some m' := stops ▸ ended
      exact ⟨s.binds, leaves m' ended', fun x mem => ⟨_, s, m, told m' ended', rfl, mem⟩⟩

end Watched

end LoxLang
