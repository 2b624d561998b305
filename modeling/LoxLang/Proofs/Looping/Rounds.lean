import LoxLang.Proofs.Looping.Loops
import LoxLang.Proofs.Nesting.Doubles
import LoxLang.Proofs.Nesting.Runs
import LoxLang.Proofs.Running.Binding
import LoxLang.Proofs.Running.Returning
/-!
What a loop means. The parts of a loop are run as they are written (`Run.forLoop`): what stands first once, in
an environment that all other parts are run in, and round after round the condition, the body and what is done
after it, until the condition fails, the body returns or something goes wrong.

What is proved, for the parts as the walk resolves them where they are written and for the tree that the parser
makes of them as it is resolved: a round, all rounds and the whole loop come to the same end as the tree does
(`Run.round_concur`, `Run.rounds_concur`, `Run.forLoop_concur`), from machines that are alike. The tree takes
more depth, up to five times as much and some more.
-/
namespace LoxLang

/-! A loop as it is written -/

namespace Run

section

variable (limit : Option Nat)

/-- What the condition comes to. One that is left out holds. -/
def again (n : Nat) : Option Expr → Run Value
  | none => pure (.bool true)
  | some e => evaluate limit n e

/-- Runs the body and what is done after it, which is left out if the body returns. -/
def round (n : Nat) (r : Rounds) : Run Flow := do
  match ← execute limit n r.body with
  | .returned v => pure (.returned v)
  | .normal =>
    match r.increment with
    | none => pure .normal
    | some e =>
      let _ ← evaluate limit n e
      pure .normal

/-- Runs rounds as long as the condition holds and none of them returns. -/
def rounds : Nat → Rounds → Run Flow
  | 0, _ => starved
  | n + 1, r => do
    let holds ← again limit n r.condition
    if holds.truthy then
      match ← round limit n r with
      | .normal => rounds n r
      | .returned v => pure (.returned v)
    else pure .normal

/-- Runs a loop. If something is run before its rounds, there is an environment for all of it. -/
def forLoop (n : Nat) : ForLoop → Run Flow
  | ⟨none, r⟩ => rounds limit n r
  | ⟨some s, r⟩ => do
    let scope ← newEnvironment (← current) []
    within scope do
      let _ ← execute limit n s
      rounds limit n r

end

variable {limit : Option Nat} {n : Nat}

/-- A round in which nothing is done after the body is a run of the body. -/
theorem round_plain (condition : Option Expr) (body : Stmt) :
    round limit n ⟨condition, none, body⟩ = execute limit n body := by
  funext m
  rw [round, bind_apply]
  cases execute limit n body m with
  | ok flow m' => cases flow <;> rfl
  | fail e m' => rfl
  | starved => rfl

theorem normal_of_isInitial {s : Stmt} (h : s.IsInitial) {m m' : Machine} {flow : Flow}
    (ended : execute limit n s m = .ok flow m') : flow = .normal := by
  have returns : s.Returns fun _ => False := by
    cases s with
    | declare => trivial
    | declareAll => trivial
    | expression => trivial
    | _ => exact h.elim
  exact (execute_gives limit n returns m flow m' ended).normal

end Run

/-! Two loops -/

namespace Concur

variable {α α' : Type} {t : Pace} {p : Nesting} {r : Run α} {r' : Run α'} {Q : α → α' → Nesting → Prop}

/-- One of the runs may use up its depth where it might not before. -/
theorem slower {early late early' late' : Prop} (h : Concur ⟨early, late⟩ p r r' Q) (first : early → early')
    (second : late → late') : Concur ⟨early', late'⟩ p r r' Q := h.weaken first second fun _ _ _ _ _ q => q

theorem given {P : α → Prop} (h : Concur t p r r' Q) (known : ∀ a m, r p.left = .ok a m → P a) :
    Concur t p r r' fun a a' p' => P a ∧ Q a a' p' := by
  unfold Concur at *
  generalize r p.left = o, r' p.right = o' at h known
  cases h with
  | ok p₁ like follows q => exact .ok p₁ like follows ⟨known _ _ rfl, q⟩
  | fail e p₁ like follows => exact .fail e p₁ like follows
  | starved => exact .starved
  | early may => exact .early may
  | late may => exact .late may

end Concur

namespace Run

variable {limit : Option Nat} {p : Nesting} {marks : List Bool}

theorem again_concur (n k : Nat) {o o' : Option Expr} (like : p.Like) (stands : p.Stands marks)
    (nested : Option.Rel (Expr.Nested marks) o o') :
    Concur ⟨n < k, k < 3 * n + 1⟩ p (again limit n o)
      (evaluate limit k (o'.getD (.literal (.bool true)))) fun v v' p' => Value.Nested p' v v' := by
  cases nested with
  | none =>
    cases k with
    | zero => exact .late (Nat.succ_pos _)
    | succ k => exact .pure like (.bool true)
  | some nested =>
    exact ((concurAll limit n k).evaluate like stands nested).slower id (by omega)

/-- The body and what is done after it, one statement after the other. -/
theorem stepped_concur (n k : Nat) (condition : Option Expr) {body body' : Stmt} {increment increment' : Expr}
    (like : p.Like) (stands : p.Stands marks) (nested : Stmt.Nested marks body body')
    (nested' : Expr.Nested marks increment increment') :
    Concur ⟨n < k, k < 3 * n + 3⟩ p (round limit n ⟨condition, some increment, body⟩)
      (executeAll limit k [body', .expression increment']) fun flow flow' p' => Flow.Nested p' flow flow' := by
  cases k with
  | zero => exact .late (Nat.succ_pos _)
  | succ k =>
    have ran : Concur ⟨n < k + 1, k + 1 < 3 * n + 3⟩ p (execute limit n body) (execute limit k body') _ :=
      ((concurAll limit n k).execute like stands nested).slower (by omega) (by omega)
    refine ran.bind fun flow flow' p₁ like₁ follows₁ nested => ?_
    cases nested with
    | returned value => exact .pure like₁ (.returned value)
    | normal =>
      rcases k with _ | _ | k
      · exact .late (by omega)
      · exact .late (by omega)
      · dsimp only
        rw [executeAll_singleton]
        have stepped := (concurAll limit n k).evaluate like₁ (stands.follow follows₁) nested'
        exact Concur.bind (stepped.slower (by omega) (by omega)) fun _ _ p₂ like₂ _ _ => .pure like₂ .normal

theorem round_concur (n k : Nat) {r r' : Rounds} (like : p.Like) (stands : p.Stands marks)
    (nested : Rounds.Nested marks r r') :
    Concur ⟨n < k, k < 3 * n + 4⟩ p (round limit n r) (execute limit k r'.block)
      fun flow flow' p' => Flow.Nested p' flow flow' := by
  cases nested with
  | plain condition body =>
    rw [round_plain]
    exact ((concurAll limit n k).execute like stands body).slower id (by omega)
  | stepped condition body increment =>
    cases k with
    | zero => exact .late (Nat.succ_pos _)
    | succ k =>
      -- The block is entered by the tree only.
      refine .enclose like stands fun p₁ like₁ stands₁ => ?_
      refine (stepped_concur n k _ like₁ stands₁ body increment).weaken (by omega) (by omega) ?_
      intro flow flow' p₂ _ _ nested p₃ grows _
      exact nested.mono grows

/-- All rounds, by induction on the depth that is left for them. -/
theorem rounds_concur : ∀ (n k : Nat) {p : Nesting} {r r' : Rounds}, p.Like → p.Stands marks →
    Rounds.Nested marks r r' → Concur ⟨n < k, k < 5 * n⟩ p (rounds limit n r) (execute limit k r'.tree)
      fun flow flow' p' => Flow.Nested p' flow flow'
  | 0, 0, _, _, _, _, _, _ => .starved
  | 0, k + 1, _, _, _, _, _, _ => .early (Nat.succ_pos k)
  | n + 1, 0, _, _, _, _, _, _ => .late (by omega)
  | n + 1, k + 1, p, r, r', like, stands, nested => by
    have asked : Concur ⟨n < k, k < 3 * n + 1⟩ p (again limit n r.condition) _ _ :=
      again_concur n k like stands nested.condition
    refine Concur.bind (asked.slower (by omega) (by omega)) fun v v' p₁ like₁ follows₁ same => ?_
    rw [same.alike.truthy]
    split
    · have stands₁ := stands.follow follows₁
      refine Concur.bind ((round_concur n k like₁ stands₁ nested).slower (by omega) (by omega))
        fun flow flow' p₂ like₂ follows₂ ended => ?_
      cases ended with
      | normal =>
        exact (rounds_concur n k like₂ (stands₁.follow follows₂) nested).slower (by omega) (by omega)
      | returned value => exact .pure like₂ (.returned value)
    · exact .pure like₁ .normal

theorem opened_concur (n k : Nat) {s s' : Stmt} {r r' : Rounds} (isInitial : s.IsInitial) (like : p.Like)
    (stands : p.Stands marks) (first : Stmt.Nested marks s s') (nested : Rounds.Nested marks r r') :
    Concur ⟨n < k, k < 5 * n + 3⟩ p (execute limit n s >>= fun _ => rounds limit n r)
      (executeAll limit k [s', r'.tree]) fun flow flow' p' => Flow.Nested p' flow flow' := by
  cases k with
  | zero => exact .late (by omega)
  | succ k =>
    have ran := ((concurAll limit n k).execute like stands first).given
      fun flow m ended => normal_of_isInitial isInitial ended
    refine Concur.bind (ran.slower (by omega) (by omega)) fun flow flow' p₁ like₁ follows₁ ended => ?_
    obtain ⟨rfl, ended⟩ := ended
    cases ended
    rcases k with _ | _ | k
    · exact .late (by omega)
    · exact .late (by omega)
    · dsimp only
      rw [executeAll_singleton]
      exact (rounds_concur n (k + 1) like₁ (stands.follow follows₁) nested).slower (by omega) (by omega)

/-- A loop, and what the parser makes of it. -/
theorem forLoop_concur (n k : Nat) {loop loop' : ForLoop} (like : p.Like) (stands : p.Stands marks)
    (nested : ForLoop.Nested marks loop loop') :
    Concur ⟨n < k, k < 5 * n + 4⟩ p (forLoop limit n loop) (execute limit k loop'.tree)
      fun flow flow' p' => Flow.Nested p' flow flow' := by
  cases nested with
  | bare nested => exact (rounds_concur n k like stands nested).slower id (by omega)
  | opened isInitial first nested =>
    cases k with
    | zero => exact .late (Nat.succ_pos _)
    | succ k =>
      refine .newScope like stands fun e e' p₁ like₁ _ sees₁ => .within like₁ sees₁ fun p₂ like₂ stands₂ => ?_
      refine (opened_concur n k isInitial like₂ stands₂ first nested).weaken (by omega) (by omega) ?_
      intro flow flow' p₃ _ _ nested p₄ grows _
      exact nested.mono grows

end Run

end LoxLang
