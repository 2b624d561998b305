import LoxLang.Proofs.Resolution.Distinct
import LoxLang.Proofs.Running.Sessions
/-!
What a `return` leads to. The returns of a statement are those in its blocks, branches and loops; the returns
of functions inside it are theirs. The walk over the names leaves no return in a program and none with a value
in an initializer (`Resolve.statements_return`), and a run returns only by way of a return of what is run
(`Run.executeAll_gives`).

A body is followed by `Run.followAll`, which does what the run does and tells of every statement of the body
that begins and of every value that one of its returns comes to. What is done in calls is not told.

What is proved: following a body changes nothing (`Run.followAll_fst`); a value that a return comes to is the
last that is told, and what the body ends with (`Run.followAll_ends`); and so returns lead out of calls only,
in every session (`Session.return_never_leaks`).
-/
namespace LoxLang

variable {α β : Type}

/-! Returns of a statement -/

/-- What may be returned in a body: nothing in a program, no value in an initializer. -/
def Body.Allows : Body → Option Expr → Prop
  | .program, _ => False
  | .initializer, value => value = none
  | _, _ => True

mutual

/-- The returns of the statement are allowed; those of functions inside it are not looked at. -/
def Stmt.Returns (allowed : Option Expr → Prop) : Stmt → Prop
  | .block body => Stmt.AllReturn allowed body
  | .conditional _ whenTrue none => whenTrue.Returns allowed
  | .conditional _ whenTrue (some whenFalse) => whenTrue.Returns allowed ∧ whenFalse.Returns allowed
  | .loop _ body => body.Returns allowed
  | .returns _ value => allowed value
  | _ => True

def Stmt.AllReturn (allowed : Option Expr → Prop) : List Stmt → Prop
  | [] => True
  | s :: ss => s.Returns allowed ∧ Stmt.AllReturn allowed ss

end

namespace Resolve

theorem not_program_of_checkReturn {body : Body} {keyword : Token} {r : Resolution}
    (accepted : (checkReturn body keyword r).2.errors = []) : body ≠ .program := by
  rintro rfl
  exact List.append_ne_nil_of_right_ne_nil _ (List.cons_ne_nil _ _) accepted

theorem not_initializer_of_checkReturnValue {body : Body} {keyword : Token} {r : Resolution}
    (accepted : (checkReturnValue body keyword r).2.errors = []) : body ≠ .initializer := by
  rintro rfl
  exact List.append_ne_nil_of_right_ne_nil _ (List.cons_ne_nil _ _) accepted

mutual

/-- Where the walk finds nothing wrong, all returns are allowed: by induction on the statement. -/
theorem statement_returns (place : Surroundings) : ∀ (s : Stmt) {r : Resolution},
    (statement place s r).2.errors = [] → (statement place s r).1.Returns place.body.Allows
  | .expression _, _, _ => trivial
  | .print _, _, _ => trivial
  | .declare _, _, _ => trivial
  | .declareAll _, _, _ => trivial
  | .block body, r, accepted => by
    refine statements_return place body (r := (openScope [] r).2) ?_
    exact (errors_closeScope _).symm.trans accepted
  | .conditional _ whenTrue none, _, accepted => statement_returns place whenTrue accepted
  | .conditional _ whenTrue (some whenFalse), _, accepted =>
    ⟨statement_returns place whenTrue (accepted_of_grows (statement_grows place whenFalse _) accepted),
      statement_returns place whenFalse accepted⟩
  | .loop _ body, _, accepted => statement_returns place body accepted
  | .declareFunction _, _, _ => trivial
  | .returns keyword none, r, accepted => by
    show place.body.Allows none
    have inside : place.body ≠ .program := not_program_of_checkReturn accepted
    cases body : place.body with
    | program => exact inside body
    | initializer => rfl
    | _ => trivial
  | .returns keyword (some value), r, accepted => by
    show place.body.Allows (some _)
    have checked := accepted_of_grows (expression_keeps place value _).grows accepted
    have inside := not_program_of_checkReturn
      (accepted_of_grows (checkReturnValue_keeps place.body keyword _).grows checked)
    have ordinary := not_initializer_of_checkReturnValue checked
    cases body : place.body with
    | program => exact inside body
    | initializer => exact absurd body ordinary
    | _ => trivial
  | .declareClass _ _ _, _, _ => trivial

theorem statements_return (place : Surroundings) : ∀ (ss : List Stmt) {r : Resolution},
    (statements place ss r).2.errors = [] → Stmt.AllReturn place.body.Allows (statements place ss r).1
  | [], _, _ => trivial
  | s :: ss, _, accepted =>
    ⟨statement_returns place s (accepted_of_grows (statements_grows place ss _) accepted),
      statements_return place ss accepted⟩

end

end Resolve

/-! What is returned -/

/-- What ends so is returned, if at all, by a return that is allowed. -/
def Flow.From (allowed : Option Expr → Prop) : Flow → Prop
  | .normal => True
  | .returned v => ∃ value, allowed value ∧ (value = none → v = .nil)

theorem Flow.From.normal {flow : Flow} (h : flow.From fun _ => False) : flow = .normal := by
  cases flow with
  | normal => rfl
  | returned v =>
    obtain ⟨_, never, _⟩ := h
    exact never.elim

theorem Stmt.AllReturn.of_mem {allowed : Option Expr → Prop} {s : Stmt} : ∀ {ss : List Stmt},
    Stmt.AllReturn allowed ss → s ∈ ss → s.Returns allowed
  | _ :: _, ⟨first, rest⟩, mem => by
    rcases List.mem_cons.mp mem with rfl | mem
    · exact first
    · exact rest.of_mem mem

namespace Run

def Gives (allowed : Option Expr → Prop) (r : Run Flow) : Prop :=
  ∀ m flow m', r m = .ok flow m' → flow.From allowed

namespace Gives

variable {allowed : Option Expr → Prop}

theorem pure {flow : Flow} (h : flow.From allowed) : Gives allowed (pure flow) := by
  intro m flow' m' ended
  cases ended
  exact h

theorem starved : Gives allowed Run.starved := fun _ _ _ ended => nomatch ended

theorem bind {r : Run α} {next : α → Run Flow} (h : ∀ a, Gives allowed (next a)) :
    Gives allowed (r >>= next) := by
  intro m flow m' ended
  rw [bind_apply] at ended
  cases eq : r m with
  | ok a m₁ =>
    rw [eq] at ended
    exact h a m₁ flow m' ended
  | fail => rw [eq] at ended; cases ended
  | starved => rw [eq] at ended; cases ended

/-- What comes after a statement that may return: nothing, if it does. -/
theorem andThen {r : Run Flow} {next : Flow → Run Flow} (h : Gives allowed r)
    (normal : Gives allowed (next .normal))
    (returned : ∀ v, next (.returned v) = Pure.pure (.returned v)) : Gives allowed (r >>= next) := by
  intro m flow m' ended
  rw [bind_apply] at ended
  cases eq : r m with
  | ok first m₁ =>
    rw [eq] at ended
    cases first with
    | normal => exact normal m₁ flow m' ended
    | returned v =>
      have ended : next (.returned v) m₁ = .ok flow m' := ended
      rw [returned v] at ended
      cases ended
      exact h m _ _ eq
  | fail => rw [eq] at ended; cases ended
  | starved => rw [eq] at ended; cases ended

theorem within {r : Run Flow} (e : Nat) (h : Gives allowed r) : Gives allowed (within e r) := by
  intro m flow m' ended
  unfold Run.within at ended
  dsimp only at ended
  cases eq : r { m with current := e } with
  | ok first m₁ =>
    rw [eq] at ended
    cases ended
    exact h _ _ m₁ eq
  | fail => rw [eq] at ended; cases ended
  | starved => rw [eq] at ended; cases ended

end Gives

variable (limit : Option Nat) {allowed : Option Expr → Prop}

theorem declareAll_gives : ∀ (n : Nat) (ds : List Declarator), Gives allowed (declareAll limit n ds)
  | 0, _ => .starved
  | _ + 1, [] => .pure trivial
  | n + 1, ⟨_, none⟩ :: ds => .bind fun _ => .bind fun _ => declareAll_gives n ds
  | n + 1, ⟨_, some _⟩ :: ds => .bind fun _ => .bind fun _ => declareAll_gives n ds

mutual

/-- A run of a statement returns only by one of its returns: by induction on the depth. -/
theorem execute_gives : ∀ (n : Nat) {s : Stmt}, s.Returns allowed → Gives allowed (execute limit n s)
  | 0, _, _ => .starved
  | _ + 1, .expression _, _ => .bind fun _ => .pure trivial
  | _ + 1, .print _, _ => .bind fun _ => .bind fun _ => .pure trivial
  | n + 1, .declare d, _ => declareAll_gives limit n [d]
  | n + 1, .declareAll ds, _ => declareAll_gives limit n ds
  | n + 1, .block _, body => .bind fun _ => .bind fun scope => .within scope (executeAll_gives n body)
  | n + 1, .conditional _ whenTrue none, allow => .bind fun condition => by
    dsimp only
    split
    · exact execute_gives n (s := whenTrue) allow
    · exact .pure trivial
  | n + 1, .conditional _ whenTrue (some whenFalse), allow => .bind fun condition => by
    dsimp only
    split
    · exact execute_gives n (s := whenTrue) allow.1
    · exact execute_gives n (s := whenFalse) allow.2
  | n + 1, .loop condition body, allow => .bind fun again => by
    split
    · exact .andThen (execute_gives n (s := body) allow) (execute_gives n (s := .loop condition body) allow)
        fun _ => rfl
    · exact .pure trivial
  | _ + 1, .declareFunction _, _ => .bind fun _ => .bind fun _ => .pure trivial
  | _ + 1, .returns _ none, allow => .pure ⟨none, allow, fun _ => rfl⟩
  | _ + 1, .returns _ (some value), allow => .bind fun _ => .pure ⟨some value, allow, nofun⟩
  | _ + 1, .declareClass _ _ _, _ => .bind fun _ => .bind fun _ => .pure trivial

theorem executeAll_gives : ∀ (n : Nat) {ss : List Stmt}, Stmt.AllReturn allowed ss →
    Gives allowed (executeAll limit n ss)
  | 0, _, _ => .starved
  | _ + 1, [], _ => .pure trivial
  | n + 1, _ :: _, allow => .andThen (execute_gives n allow.1) (executeAll_gives n allow.2) fun _ => rfl

end

end Run

/-! Following a body -/

/-- What is told of the statements of a body. -/
inductive Told where
  /-- The statement begins. -/
  | begins (s : Stmt)
  /-- A return is reached, and this is its value. -/
  | returns (v : Value)

/-- A run that tells what it comes by, however it ends. -/
def Following (α : Type) : Type := Machine → Outcome α × List Told

namespace Following

protected def pure (a : α) : Following α := fun m => (.ok a m, [])

/-- What is told first stands first. -/
protected def bind (r : Following α) (next : α → Following β) : Following β := fun m =>
  match r m with
  | (.ok a m, told) => ((next a m).1, told ++ (next a m).2)
  | (.fail e m, told) => (.fail e m, told)
  | (.starved, told) => (.starved, told)

instance : Monad Following where
  pure := Following.pure
  bind := Following.bind

def lift (r : Run α) : Following α := fun m => (r m, [])

def tell (told : Told) : Following Unit := fun m => (.ok () m, [told])

def within (environment : Nat) (r : Following α) : Following α := fun m =>
  (Run.within environment (fun m => (r m).1) m, (r { m with current := environment }).2)

end Following

namespace Run

section

variable (limit : Option Nat)

mutual

/-- Runs a statement and tells what it comes by. -/
def follow : Nat → Stmt → Following Flow
  | 0, _ => Following.lift starved
  | n + 1, s => do
    Following.tell (.begins s)
    match s with
    | .block body =>
      let outer ← Following.lift current
      let scope ← Following.lift (newEnvironment outer [])
      Following.within scope (followAll n body)
    | .conditional condition whenTrue whenFalse =>
      let condition ← Following.lift (evaluate limit n condition)
      if condition.truthy then follow n whenTrue
      else match whenFalse with
        | some s => follow n s
        | none => pure .normal
    | .loop condition body =>
      let again ← Following.lift (evaluate limit n condition)
      if again.truthy then
        match ← follow n body with
        | .normal => follow n s
        | .returned v => pure (.returned v)
      else pure .normal
    | .returns _ none =>
      Following.tell (.returns .nil)
      pure (.returned .nil)
    | .returns _ (some value) =>
      let value ← Following.lift (evaluate limit n value)
      Following.tell (.returns value)
      pure (.returned value)
    | s => Following.lift (execute limit (n + 1) s)

/-- Runs statements in order and tells what they come by. -/
def followAll : Nat → List Stmt → Following Flow
  | 0, _ => Following.lift starved
  | _ + 1, [] => pure .normal
  | n + 1, s :: ss => do
    match ← follow n s with
    | .normal => followAll n ss
    | .returned v => pure (.returned v)

end

end

end Run

/-! Following changes nothing -/

namespace Following

/-- But for what it tells, the one is the other. -/
def Erases (r : Following α) (r' : Run α) : Prop := ∀ m, (r m).1 = r' m

namespace Erases

theorem pure (a : α) : Erases (pure a) (pure a) := fun _ => rfl

theorem lift (r : Run α) : Erases (lift r) r := fun _ => rfl

theorem bind {r : Following α} {r' : Run α} {next : α → Following β} {next' : α → Run β}
    (h : Erases r r') (h' : ∀ a, Erases (next a) (next' a)) : Erases (r >>= next) (r' >>= next') := by
  intro m
  rw [Run.bind_apply, ← h m]
  show (Following.bind r next m).1 = _
  unfold Following.bind
  obtain ⟨outcome, told⟩ := r m
  cases outcome with
  | ok a m' => exact h' a m'
  | fail => rfl
  | starved => rfl

theorem told {told : Told} {r : Following α} {r' : Run α} (h : Erases r r') :
    Erases (tell told >>= fun _ => r) r' := fun m => h m

theorem within {r : Following α} {r' : Run α} (e : Nat) (h : Erases r r') :
    Erases (within e r) (Run.within e r') := by
  have same : (fun m => (r m).1) = r' := funext h
  intro m
  show Run.within e (fun m => (r m).1) m = _
  rw [same]

end Erases

end Following

namespace Run

section

variable (limit : Option Nat)

open Following

mutual

theorem follow_erases : ∀ (n : Nat) (s : Stmt), Erases (follow limit n s) (execute limit n s)
  | 0, _ => .lift _
  | n + 1, .block body => .told (.bind (.lift _) fun _ => .bind (.lift _) fun scope =>
      .within scope (followAll_erases n body))
  | n + 1, .conditional _ whenTrue whenFalse => .told (.bind (.lift _) fun condition => by
      split
      · exact follow_erases n whenTrue
      · cases whenFalse with
        | none => exact .pure _
        | some s => exact follow_erases n s)
  | n + 1, .loop condition body => .told (.bind (.lift _) fun again => by
      split
      · refine .bind (follow_erases n body) fun flow => ?_
        cases flow with
        | normal => exact follow_erases n (.loop condition body)
        | returned v => exact .pure _
      · exact .pure _)
  | _ + 1, .returns _ none => .told (.told (.pure _))
  | _ + 1, .returns _ (some _) => .told (.bind (.lift _) fun _ => .told (.pure _))
  | _ + 1, .expression _ => .told (.lift _)
  | _ + 1, .print _ => .told (.lift _)
  | _ + 1, .declare _ => .told (.lift _)
  | _ + 1, .declareAll _ => .told (.lift _)
  | _ + 1, .declareFunction _ => .told (.lift _)
  | _ + 1, .declareClass _ _ _ => .told (.lift _)

theorem followAll_erases : ∀ (n : Nat) (ss : List Stmt),
    Erases (followAll limit n ss) (executeAll limit n ss)
  | 0, _ => .lift _
  | _ + 1, [] => .pure _
  | n + 1, s :: ss => .bind (follow_erases n s) fun flow => by
      cases flow with
      | normal => exact followAll_erases n ss
      | returned v => exact .pure _

end

end

end Run

/-! What is told last -/

def Told.Quiet (told : List Told) : Prop := ∀ v, .returns v ∉ told

/-- What a body ends with: if it returns, the value of the return is what was told last, and no other return
was told of; otherwise none was. -/
def Told.Ends : Outcome Flow → List Told → Prop
  | .ok (.returned v) _, told => ∃ before, told = before ++ [.returns v] ∧ Quiet before
  | _, told => Quiet told

namespace Told

theorem Quiet.nil : Quiet [] := fun _ => List.not_mem_nil

theorem Quiet.append {told told' : List Told} (h : Quiet told) (h' : Quiet told') : Quiet (told ++ told') :=
  fun v mem => (List.mem_append.mp mem).elim (h v) (h' v)

theorem Ends.after {told told' : List Told} {outcome : Outcome Flow} (h : Quiet told)
    (h' : Ends outcome told') : Ends outcome (told ++ told') := by
  unfold Ends at h' ⊢
  split at h'
  · obtain ⟨before, rfl, quiet⟩ := h'
    exact ⟨told ++ before, by rw [List.append_assoc], h.append quiet⟩
  · exact h.append h'

end Told

namespace Following

open Told

/-- However a followed run ends, it tells of a return only as its last, and if it returns. -/
def Closes (r : Following Flow) : Prop := ∀ m, Ends (r m).1 (r m).2

namespace Closes

theorem normal : Closes (Pure.pure .normal) := fun _ => Quiet.nil

theorem returned (v : Value) : Closes (tell (.returns v) >>= fun _ => Pure.pure (.returned v)) :=
  fun _ => ⟨[], rfl, .nil⟩

theorem lift {r : Run Flow} (h : r.Gives fun _ => False) : Closes (Following.lift r) := by
  intro m
  show Ends (r m) []
  cases eq : r m with
  | ok flow m' =>
    cases flow with
    | normal => exact Quiet.nil
    | returned v =>
      obtain ⟨_, never, _⟩ := h m _ m' eq
      exact never.elim
  | fail => exact Quiet.nil
  | starved => exact Quiet.nil

theorem bind {r : Following α} {next : α → Following Flow} (quiet : ∀ m, Quiet (r m).2)
    (h : ∀ a, Closes (next a)) : Closes (r >>= next) := by
  intro m
  have quiet := quiet m
  show Ends (Following.bind r next m).1 (Following.bind r next m).2
  unfold Following.bind
  generalize r m = ended at quiet ⊢
  obtain ⟨outcome, told⟩ := ended
  cases outcome with
  | ok a m' => exact .after quiet (h a m')
  | fail => exact quiet
  | starved => exact quiet

theorem lifted {r : Run α} {next : α → Following Flow} (h : ∀ a, Closes (next a)) :
    Closes (Following.lift r >>= next) :=
  bind (fun _ => Quiet.nil) h

theorem begun {s : Stmt} {next : Following Flow} (h : Closes next) :
    Closes (tell (.begins s) >>= fun _ => next) :=
  bind (fun _ _ mem => nomatch List.mem_singleton.mp mem) fun _ => h

/-- What comes after a statement that may return: nothing, if it does. -/
theorem andThen {r : Following Flow} {next : Flow → Following Flow} (h : Closes r)
    (normal : Closes (next .normal)) (returned : ∀ v, next (.returned v) = Pure.pure (.returned v)) :
    Closes (r >>= next) := by
  intro m
  have first := h m
  show Ends (Following.bind r next m).1 (Following.bind r next m).2
  unfold Following.bind
  generalize r m = ended at first ⊢
  obtain ⟨outcome, told⟩ := ended
  cases outcome with
  | ok flow m' =>
    cases flow with
    | normal => exact .after first (normal m')
    | returned v =>
      show Ends (next (.returned v) m').1 (told ++ (next (.returned v) m').2)
      rw [returned v]
      show Ends (.ok (.returned v) m') (told ++ [])
      rw [List.append_nil]
      exact first
  | fail => exact first
  | starved => exact first

theorem within {r : Following Flow} (e : Nat) (h : Closes r) : Closes (Following.within e r) := by
  intro m
  have inside := h { m with current := e }
  show Ends (Run.within e (fun m => (r m).1) m) (r { m with current := e }).2
  unfold Run.within
  dsimp only
  cases eq : (r { m with current := e }).1 with
  | ok flow m' =>
    rw [eq] at inside
    cases flow <;> exact inside
  | fail =>
    rw [eq] at inside
    exact inside
  | starved =>
    rw [eq] at inside
    exact inside

end Closes

end Following

namespace Run

section

variable (limit : Option Nat)

open Following

mutual

/-- A return is the last that is told of a statement: by induction on the depth, with what was told so far
quiet as the invariant. -/
theorem follow_closes : ∀ (n : Nat) (s : Stmt), Following.Closes (follow limit n s)
  | 0, _ => .lift .starved
  | n + 1, .block body => .begun (.lifted fun _ => .lifted fun scope =>
      .within scope (followAll_closes n body))
  | n + 1, .conditional _ whenTrue whenFalse => .begun (.lifted fun condition => by
      split
      · exact follow_closes n whenTrue
      · cases whenFalse with
        | none => exact .normal
        | some s => exact follow_closes n s)
  | n + 1, .loop condition body => .begun (.lifted fun again => by
      split
      · exact .andThen (follow_closes n body) (follow_closes n (.loop condition body)) fun _ => rfl
      · exact .normal)
  | _ + 1, .returns _ none => .begun (.returned _)
  | _ + 1, .returns _ (some _) => .begun (.lifted fun _ => .returned _)
  | n + 1, .expression value => .begun (.lift (execute_gives limit (n + 1) (s := .expression value) trivial))
  | n + 1, .print value => .begun (.lift (execute_gives limit (n + 1) (s := .print value) trivial))
  | n + 1, .declare d => .begun (.lift (execute_gives limit (n + 1) (s := .declare d) trivial))
  | n + 1, .declareAll ds => .begun (.lift (execute_gives limit (n + 1) (s := .declareAll ds) trivial))
  | n + 1, .declareFunction code =>
    .begun (.lift (execute_gives limit (n + 1) (s := .declareFunction code) trivial))
  | n + 1, .declareClass name ms ss =>
    .begun (.lift (execute_gives limit (n + 1) (s := .declareClass name ms ss) trivial))

theorem followAll_closes : ∀ (n : Nat) (ss : List Stmt), Following.Closes (followAll limit n ss)
  | 0, _ => .lift .starved
  | _ + 1, [] => .normal
  | n + 1, s :: ss => .andThen (follow_closes n s) (followAll_closes n ss) fun _ => rfl

end

/-- Following a body does what the run does. -/
theorem followAll_fst (n : Nat) (body : List Stmt) (m : Machine) :
    (followAll limit n body m).1 = executeAll limit n body m := followAll_erases limit n body m

/-- A body returns what its return comes to, and nothing of it is begun any more then. -/
theorem followAll_ends (n : Nat) (body : List Stmt) (m : Machine) :
    Told.Ends (executeAll limit n body m) (followAll limit n body m).2 := by
  rw [← followAll_fst]
  exact followAll_closes limit n body m

/-- If a return is reached, it is the last that is told. -/
theorem last_of_returns {n : Nat} {body : List Stmt} {m : Machine} {v : Value}
    (reached : .returns v ∈ (followAll limit n body m).2) :
    (∃ m', executeAll limit n body m = .ok (.returned v) m') ∧
      ∃ before, (followAll limit n body m).2 = before ++ [.returns v] ∧ Told.Quiet before := by
  have ends := followAll_ends limit n body m
  cases eq : executeAll limit n body m with
  | ok flow m' =>
    rw [eq] at ends
    cases flow with
    | normal => exact absurd reached (ends v)
    | returned u =>
      obtain ⟨before, told, quiet⟩ := ends
      rw [told] at reached
      obtain rfl : v = u := by
        rcases List.mem_append.mp reached with early | last
        · exact absurd early (quiet v)
        · exact Told.returns.inj (List.mem_singleton.mp last)
      exact ⟨⟨m', rfl⟩, before, told, quiet⟩
  | fail => rw [eq] at ends; exact absurd reached (ends v)
  | starved => rw [eq] at ends; exact absurd reached (ends v)

end

end Run

/-! Calls -/

/-- The machine on which the body of a function begins: in a new environment with the arguments. -/
def Closure.enter (f : Closure) (arguments : List Value) (m : Machine) : Machine :=
  { m with
    environments := m.environments.push (some f.scope) (Run.bindParams f.code.params arguments)
    current := m.environments.size }

namespace Run

variable (limit : Option Nat)

theorem call_ordinary {f : Closure} (ordinary : f.initializer = false) (n : Nat) (arguments : List Value)
    (m : Machine) : call limit (n + 1) (.function f) arguments m =
      match executeAll limit n f.code.body (f.enter arguments m) with
      | .ok flow m' => .ok flow.value { m' with current := m.current }
      | .fail e m' => .fail e { m' with current := m.current }
      | .starved => .starved := by
  rw [call]
  simp only [bind_apply, newEnvironment, within, ordinary]
  unfold Closure.enter
  generalize executeAll limit n f.code.body _ = ended
  cases ended <;> rfl

/-- A call has the value of the return that its body reaches, and nil if the body ends without one. -/
theorem call_value {f : Closure} (ordinary : f.initializer = false) (n : Nat) (arguments : List Value)
    (m : Machine) (v : Value) :
    let followed := followAll limit n f.code.body (f.enter arguments m)
    (∃ m', call limit (n + 1) (.function f) arguments m = .ok v m') ↔
      .returns v ∈ followed.2 ∨ v = .nil ∧ Told.Quiet followed.2 ∧ ∃ flow m', followed.1 = .ok flow m' := by
  dsimp only
  have ends := followAll_ends limit n f.code.body (f.enter arguments m)
  rw [followAll_fst, call_ordinary limit ordinary]
  generalize executeAll limit n f.code.body (f.enter arguments m) = ended at ends ⊢
  cases ended with
  | ok flow m' =>
    have value : (∃ m'', Outcome.ok flow.value { m' with current := m.current } = .ok v m'') ↔ flow.value = v :=
      ⟨fun ⟨_, same⟩ => (Outcome.ok.inj same).1, fun same => ⟨_, by rw [same]⟩⟩
    rw [value]
    cases flow with
    | normal =>
      refine ⟨fun nil => .inr ⟨nil.symm, ends, _, _, rfl⟩, ?_⟩
      rintro (reached | ⟨nil, _⟩)
      · exact absurd reached (ends v)
      · exact nil.symm
    | returned u =>
      -- The return that ends the body is the only one that is told.
      obtain ⟨before, told, quiet⟩ := ends
      have last : .returns u ∈ before ++ [Told.returns u] := List.mem_append_right _ List.mem_cons_self
      rw [told]
      constructor
      · rintro rfl
        exact .inl last
      · rintro (reached | ⟨_, none, _⟩)
        · rcases List.mem_append.mp reached with early | late
          · exact absurd early (quiet v)
          · exact (Told.returns.inj (List.mem_singleton.mp late)).symm
        · exact absurd last (none u)
  | fail =>
    constructor
    · rintro ⟨_, ended⟩
      cases ended
    · rintro (reached | ⟨_, _, _, _, ended⟩)
      · exact absurd reached (ends v)
      · cases ended
  | starved =>
    constructor
    · rintro ⟨_, ended⟩
      cases ended
    · rintro (reached | ⟨_, _, _, _, ended⟩)
      · exact absurd reached (ends v)
      · cases ended

/-- Runs the statements of a program in order and keeps how each of them ends. -/
def executeKeeping (n : Nat) : List Stmt → Run (List Flow)
  | [] => pure []
  | s :: ss => do
    let flow ← execute limit n s
    let flows ← executeKeeping n ss
    pure (flow :: flows)

theorem executeProgram_eq (n : Nat) (ss : List Stmt) :
    executeProgram limit n ss = executeKeeping limit n ss >>= fun _ => pure () := by
  induction ss with
  | nil => rfl
  | cons s ss ih => simp only [executeProgram, executeKeeping, ih, bind_assoc, pure_bind]

/-- A program in which nothing is returned drops nothing. -/
theorem normal_of_executeKeeping {n : Nat} : ∀ {ss : List Stmt} {m m' : Machine} {flows : List Flow},
    (∀ s ∈ ss, Gives (fun _ => False) (execute limit n s)) →
      executeKeeping limit n ss m = .ok flows m' → ∀ flow ∈ flows, flow = .normal
  | [], _, _, _, _, ended => by
    cases ended
    exact nofun
  | s :: ss, m, m', flows, nothing, ended => by
    rw [executeKeeping, bind_apply] at ended
    cases first : execute limit n s m with
    | fail => rw [first] at ended; cases ended
    | starved => rw [first] at ended; cases ended
    | ok flow m₁ =>
      rw [first] at ended
      dsimp only at ended
      rw [bind_apply] at ended
      cases rest : executeKeeping limit n ss m₁ with
      | fail => rw [rest] at ended; cases ended
      | starved => rw [rest] at ended; cases ended
      | ok flows' m₂ =>
        rw [rest] at ended
        cases ended
        obtain ⟨never, nothing⟩ := List.forall_mem_cons.mp nothing
        exact List.forall_mem_cons.mpr
          ⟨(never m flow m₁ first).normal, normal_of_executeKeeping nothing rest⟩

/-! Which functions are initializers -/

/-- What is made of code, and whether it is made as an initializer. -/
def madeOf (fs : List Closure) : List (Function × Bool) := fs.map fun f => (f.code, f.initializer)

theorem newClosures_made {initializer : String → Bool} : ∀ {fs : List Function} {m m' : Machine}
    {gs : List Closure}, newClosures initializer fs m = .ok gs m' →
      madeOf gs = fs.map fun f => (f, initializer f.name.lexeme)
  | [], _, _, _, made => by
    cases made
    rfl
  | f :: fs, m, m', gs, made => by
    have made : (newClosures initializer fs >>= fun gs => pure (_ :: gs)) _ = .ok gs m' := made
    rw [bind_apply] at made
    cases rest : newClosures initializer fs { m with nextId := m.nextId + 1 } with
    | ok hs m₁ =>
      rw [rest] at made
      cases made
      exact congrArg (_ :: ·) (newClosures_made rest)
    | fail => rw [rest] at made; cases made
    | starved => rw [rest] at made; cases made

/-- The initializers of a class are its instance methods of that name. -/
theorem newClass_made {name : String} {methods statics : List Function} {m m' : Machine} {c : Class}
    (made : newClass name methods statics m = .ok c m') :
    madeOf c.methods = methods.map (fun f => (f, f.name.lexeme == Class.initializerName)) ∧
      madeOf c.statics = statics.map fun f => (f, false) := by
  rw [newClass, bind_apply] at made
  cases first : newClosures (· == Class.initializerName) methods m with
  | fail => rw [first] at made; cases made
  | starved => rw [first] at made; cases made
  | ok fs m₁ =>
    rw [first] at made
    have made : (within m₁.environments.size (newClosures (fun _ => false) statics) >>= fun gs => newId >>= fun id =>
      pure (⟨id, name, fs, gs⟩ : Class)) _ = .ok c m' := made
    rw [bind_apply, within] at made
    dsimp only at made
    cases second : newClosures (fun _ => false) statics { m₁ with
        environments := m₁.environments.push (some m₁.current) [], current := m₁.environments.size } with
    | fail => rw [second] at made; cases made
    | starved => rw [second] at made; cases made
    | ok gs m₂ =>
      rw [second] at made
      cases made
      exact ⟨newClosures_made first, newClosures_made second⟩

theorem lambda_made (limit : Option Nat) : ∀ {n : Nat} {code : Function} {m m' : Machine} {v : Value},
    evaluate limit n (.lambda code) m = .ok v m' →
      ∃ f : Closure, v = .callable (.function f) ∧ f.code = code ∧ f.initializer = false
  | 0, _, _, _, _, made => nomatch made
  | _ + 1, _, _, _, _, made => by
    cases made
    exact ⟨_, rfl, rfl, rfl⟩

theorem declareFunction_made (limit : Option Nat) : ∀ {n : Nat} {code : Function} {m m' : Machine} {flow : Flow},
    execute limit n (.declareFunction code) m = .ok flow m' →
      ∃ f : Closure, f.code = code ∧ f.initializer = false ∧
        m'.environments = m.environments.define m.current code.name.lexeme (.callable (.function f))
  | 0, _, _, _, _, made => nomatch made
  | _ + 1, _, _, _, _, made => by
    cases made
    exact ⟨_, rfl, rfl, rfl⟩

/-- A method that is given its instance stays what it is. -/
theorem bindThis_made {f g : Closure} {v : Value} {m m' : Machine} (made : bindThis f v m = .ok g m') :
    g.code = f.code ∧ g.initializer = f.initializer := by
  cases made
  exact ⟨rfl, rfl⟩

end Run

/-! Sessions -/

namespace Site

/-- The body of an instance method named `init` returns no value, if there is nothing wrong with it. -/
theorem returns_nothing {program : List Stmt} (accepted : (Resolution.ofProgram program).2.errors = [])
    {p : Site} (within_ : Within program p) {f code : Function} {fs : List Function}
    (part : p.part = .methods (f :: fs)) (named : f.name.lexeme = "init")
    (resolved : (p.child 0).resolved = .function code) :
    Stmt.AllReturn (Body.Allows .initializer) code.body := by
  have clean := errors_after accepted (.child 0 (.child 0 within_))
  obtain ⟨_, place, before, closing⟩ := p
  cases part
  obtain ⟨name, params, body⟩ := f
  obtain rfl : _ = code := Part.function.inj resolved
  have initializer : Resolve.methodBody name = .initializer := if_pos (beq_iff_eq.mpr named)
  rw [← initializer]
  exact Resolve.statements_return ⟨Resolve.methodBody name, .object⟩ body clean

end Site

namespace Session

/-- Returns lead out of calls, and out of nothing else. No statement at the top level of a program returns, so
nothing is dropped when its end is; the body of an instance method named `init`, and these are the
initializers of a class, ends normally or returns nil. Methods of the class itself, functions that are declared
and those without a name are no initializers, and a method that is given its instance is one just if it was one
before. A call of any function that is none has the value `v` exactly if a return in its body is reached that
comes to `v`, after which nothing of the body begins, and has nil if the body ends and none is reached. -/
theorem return_never_leaks {s : Session} {g : Log} {ran : List (List Stmt)} (h : History s g ran)
    (input : Input) :
    (∀ program ∈ input.programs ++ ran, ∀ limit n m,
      (∀ stmt ∈ (Resolution.ofProgram program).1, ∀ v m', Run.execute limit n stmt m ≠ .ok (.returned v) m') ∧
      (∀ flows m', Run.executeKeeping limit n (Resolution.ofProgram program).1 m = .ok flows m' →
        ∀ flow ∈ flows, flow = .normal) ∧
      ∀ p f fs code, Site.Within program p → p.part = .methods (f :: fs) → f.name.lexeme = "init" →
        (p.child 0).resolved = .function code → ∀ flow m', Run.executeAll limit n code.body m = .ok flow m' →
          flow = .normal ∨ flow = .returned .nil) ∧
    (∀ limit n program, Run.executeProgram limit n program =
      Run.executeKeeping limit n program >>= fun _ => pure ()) ∧
    (∀ name methods statics m c m', Run.newClass name methods statics m = .ok c m' →
      Run.madeOf c.methods = methods.map (fun f => (f, f.name.lexeme == "init")) ∧
      Run.madeOf c.statics = statics.map fun f => (f, false)) ∧
    (∀ limit n code m v m', Run.evaluate limit n (.lambda code) m = .ok v m' →
      ∃ f : Closure, v = .callable (.function f) ∧ f.code = code ∧ f.initializer = false) ∧
    (∀ limit n code m flow m', Run.execute limit n (.declareFunction code) m = .ok flow m' →
      ∃ f : Closure, f.code = code ∧ f.initializer = false ∧
        m'.environments = m.environments.define m.current code.name.lexeme (.callable (.function f))) ∧
    (∀ f v m g m', Run.bindThis f v m = .ok g m' → g.code = f.code ∧ g.initializer = f.initializer) ∧
    ∀ limit n (f : Closure) arguments m, f.initializer = false →
      let start := f.enter arguments m
      let followed := Run.followAll limit n f.code.body start
      followed.1 = Run.executeAll limit n f.code.body start ∧
      (∀ v, (∃ m', Run.call limit (n + 1) (.function f) arguments m = .ok v m') ↔
        .returns v ∈ followed.2 ∨
          v = .nil ∧ (∀ u, .returns u ∉ followed.2) ∧ ∃ flow m', followed.1 = .ok flow m') ∧
      ∀ v, .returns v ∈ followed.2 →
        ∃ before, followed.2 = before ++ [.returns v] ∧ ∀ u, .returns u ∉ before := by
  obtain ⟨_, accepted⟩ := h.settled
  refine ⟨fun program mem limit n m => ?_, fun limit n => Run.executeProgram_eq limit n,
    fun _ _ _ _ _ _ made => Run.newClass_made made, fun limit _ _ _ _ _ made => Run.lambda_made limit made,
    fun limit _ _ _ _ _ made => Run.declareFunction_made limit made,
    fun _ _ _ _ _ made => Run.bindThis_made made, fun limit n f arguments m ordinary => ?_⟩
  · have clean : (Resolution.ofProgram program).2.errors = [] :=
      (List.mem_append.mp mem).elim Input.accepted_of_mem (accepted program)
    -- The walk reports every return outside of functions, and it has reported nothing.
    have nothing : Stmt.AllReturn (fun _ => False) (Resolution.ofProgram program).1 :=
      Resolve.statements_return ⟨.program, .none⟩ program clean
    have never : ∀ stmt ∈ (Resolution.ofProgram program).1,
        Run.Gives (fun _ => False) (Run.execute limit n stmt) :=
      fun stmt mem => Run.execute_gives limit n (nothing.of_mem mem)
    refine ⟨fun stmt mem v m' returned => ?_, fun flows m' => Run.normal_of_executeKeeping limit never,
      fun p f fs code within_ part named resolved flow m' ended => ?_⟩
    · cases (never stmt mem m _ m' returned).normal
    · have returns := Site.returns_nothing clean within_ part named resolved
      have from_ := Run.executeAll_gives limit n returns m flow m' ended
      cases flow with
      | normal => exact .inl rfl
      | returned v =>
        obtain ⟨_, rfl, nil⟩ := from_
        exact .inr (congrArg Flow.returned (nil rfl))
  · exact ⟨Run.followAll_fst limit n _ _, Run.call_value limit ordinary n arguments m,
      fun v reached => (Run.last_of_returns limit reached).2⟩

/-- A return in a loop that has no other end, in a program that itself returns nothing. -/
theorem return_never_leaks_loop :
    let input := Input.program "fun f(){while(true){return false;}} f();"
    let keyword : Token := ⟨.keyword .return, "return", 1⟩
    let body : List Stmt :=
      [.loop (.literal (.bool true)) (.block [.returns keyword (some (.literal (.bool false)))])]
    let f : Closure := ⟨0, ⟨keyword, [], body⟩, 0, false⟩
    let m := Machine.initial .unlimited fun _ => 0
    input.programs.length = 1 ∧
      (∀ program ∈ input.programs, ∀ stmt ∈ (Resolution.ofProgram program).1, ∀ v m',
        Run.execute none 20 stmt m ≠ .ok (.returned v) m') ∧
      ∃ m', Run.call none 9 (.function f) [] m = .ok (.bool false) m' := by
  intro input keyword body f m
  obtain ⟨top, _, _, _, _, _, calls⟩ :=
    return_never_leaks (.initial .unlimited .unlimited fun _ => 0) input
  refine ⟨by decide +kernel, fun program mem stmt mem' v m' => ?_, ?_⟩
  · exact (top program (List.mem_append_left _ mem) none 20 m).1 stmt mem' v m'
  · refine ((calls none 8 f [] m rfl).2.1 (.bool false)).mpr (.inl ?_)
    have told : (Run.followAll none 8 body (f.enter [] m)).2 =
        [.begins (.loop (.literal (.bool true)) (.block [.returns keyword (some (.literal (.bool false)))])),
          .begins (.block [.returns keyword (some (.literal (.bool false)))]),
          .begins (.returns keyword (some (.literal (.bool false)))), .returns (.bool false)] := rfl
    show _ ∈ (Run.followAll none 8 body (f.enter [] m)).2
    rw [told]
    simp

end Session

end LoxLang
