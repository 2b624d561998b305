import LoxLang.Proofs.Looping.Rounds
import LoxLang.Proofs.Nesting.Invariance
import LoxLang.Proofs.Resolution.Faults
import LoxLang.Proofs.Running.WellFormed
/-!
The tree that the parser makes of a loop means what the loop means. The tree may have a block that the loop has
not, around the body and what is done after it. The walk over the names counts the scope of this block into
distances, and a run of the tree makes an environment for it in every round, which never binds anything.

What is proved: the tree is made of the parts that are read off the tokens behind `for`, and from any machine it
comes to the same end as these parts, run as they are written, or to none as they do
(`ForLoop.tree_runs_as_written`).
-/
namespace LoxLang

/-! Where a loop stands -/

theorem Padded.self : ∀ ss : List Locals, Padded (List.replicate ss.length false) ss ss
  | [] => .nil
  | ls :: ss => .scope ls (Padded.self ss)

theorem Padded.eq_of_unmarked {marks : List Bool} {ss ss' : List Locals} (h : Padded marks ss ss')
    (unmarked : Unmarked marks) : ss' = ss := by
  induction h with
  | nil => rfl
  | scope ls _ ih => rw [ih fun b mem => unmarked b (List.mem_cons_of_mem _ mem)]
  | empty => cases unmarked.head

theorem unmarked_replicate (n : Nat) : Unmarked (List.replicate n false) := fun _ mem =>
  List.eq_of_mem_replicate mem

namespace Resolution

/-- Where no scope is marked, the two walks are in the same state. -/
theorem Pads.eq_of_unmarked {marks : List Bool} {r r' : Resolution} (h : Pads marks r r')
    (unmarked : Unmarked marks) : r' = r := by
  obtain ⟨scopes, errors, warnings⟩ := r
  obtain ⟨scopes', errors', warnings'⟩ := r'
  obtain ⟨padded, rfl, rfl⟩ := h
  obtain rfl := padded.eq_of_unmarked unmarked
  rfl

end Resolution

namespace Site

variable {program : List Stmt} {p : Site}

theorem Within.unfinished (h : Within program p) : ∃ names, p.Unfinished names := by
  induction h with
  | root => exact ⟨[], unfinished_nil fun _ => nofun⟩
  | child i _ ih =>
    obtain ⟨names, unfinished⟩ := ih
    exact ⟨_, unfinished.child i⟩

theorem Within.settled (h : Within program p) {s : Stmt} (there : p.part = .statement s) :
    p.before.Settled := by
  obtain ⟨names, unfinished⟩ := h.unfinished
  cases names with
  | nil => exact unfinished.finished
  | cons name names =>
    have inner := unfinished.inner (List.cons_ne_nil _ _)
    rw [there] at inner
    exact inner.elim

end Site

/-! The same end -/

/-- None of two runs may use up its depth before the other one ends. -/
def Pace.never : Pace := ⟨False, False⟩

/-- Two runs of a statement from one machine come to the same end: both end normally, or return the same, or
fail in the same way, and the machines they leave hold the same, but for environments that the second one has
more. -/
def Outcome.SameEnd (m : Machine) (o o' : Outcome Flow) : Prop :=
  (Nesting.double m).Ends .never (fun flow flow' p => Flow.Nested p flow flow') o o'

theorem Nesting.Ends.never {α α' : Type} {t : Pace} {p : Nesting} {Q : α → α' → Nesting → Prop}
    {o : Outcome α} {o' : Outcome α'} (h : p.Ends t Q o o') (first : t.first → o ≠ .starved)
    (second : t.second → o' ≠ .starved) : p.Ends .never Q o o' := by
  cases h with
  | ok p₁ like follows q => exact .ok p₁ like follows q
  | fail e p₁ like follows => exact .fail e p₁ like follows
  | starved => exact .starved
  | early may => exact absurd rfl (first may)
  | late may => exact absurd rfl (second may)

/-- What was written in a run of a statement that ends normally. -/
def Outcome.written? : Outcome Flow → Option String
  | .ok .normal m => some m.out.text
  | _ => none

theorem Outcome.SameEnd.written {m : Machine} {o o' : Outcome Flow} (h : Outcome.SameEnd m o o') :
    o'.written? = o.written? := by
  cases h with
  | ok p like _ ended =>
    cases ended with
    | normal => exact congrArg (fun out => some out.text) like.out
    | returned => rfl
  | fail => rfl
  | starved => rfl
  | early may => exact may.elim
  | late may => exact may.elim

namespace Run

variable {limit : Option Nat} {marks : List Bool} {m : Machine} {loop loop' : ForLoop}

/-- What the parts of a loop come to within some depth, the tree comes to within another one, and the other way
round. -/
theorem forLoop_sameEnd (sound : m.Sound) (unmarked : Unmarked marks)
    (nested : ForLoop.Nested marks loop loop') :
    (∀ n, forLoop limit n loop m ≠ .starved →
      ∃ k, Outcome.SameEnd m (forLoop limit n loop m) (execute limit k loop'.tree m)) ∧
    ∀ k, execute limit k loop'.tree m ≠ .starved →
      ∃ n, Outcome.SameEnd m (forLoop limit n loop m) (execute limit k loop'.tree m) := by
  have ends (n k : Nat) : Concur ⟨n < k, k < 5 * n + 4⟩ (Nesting.double m) (forLoop limit n loop)
      (execute limit k loop'.tree) _ :=
    forLoop_concur n k (Nesting.like_double sound) (Nesting.sees_double sound.current unmarked) nested
  refine ⟨fun n ended => ⟨5 * n + 4, (ends n _).never (fun _ => ended) fun late => ?_⟩,
    fun k ended => ⟨k, (ends k k).never (fun early => ?_) fun _ => ended⟩⟩
  · exact absurd late (Nat.lt_irrefl _)
  · exact absurd early (Nat.lt_irrefl _)

/-- The block around the body and what is done after it has an environment that binds nothing. -/
theorem rounds_vacant {n : Nat} {r r' : Rounds} (nested : Rounds.Nested marks r r')
    (stepped : r'.increment.isSome) {m' : Machine} (ended : (execute limit n r'.block m).state? = some m') :
    m'.Vacant m.environments.size := by
  cases nested with
  | plain => cases stepped
  | stepped _ body increment =>
    refine block_vacant (fun s mem k => ?_) ended
    rcases List.mem_cons.mp mem with rfl | mem
    · exact execute_confined_of_nested k body
    · rw [List.mem_singleton.mp mem]
      exact execute_confined_of_nested k (.bare (.expression increment))

end Run

/-! Loops of a program -/

namespace ForLoop

/-- What the parser makes of the tokens behind `for` is the tree of a loop whose parts are read off these tokens,
one behind the other: what comes first, the condition, what is done after the body, and the body. Each of the
first three may be missing, and where it stands it is kept; of every loop that can be read so, the parser makes
the tree. What stands first, if anything does, declares variables or is an expression, and the body is no
declaration. Wherever the tree of such a loop stands in a program, the walk over it finds the same as the walk
over the parts of the loop; and run from any sound machine, the resolved tree comes to the same end as the
resolved parts, run as they are written, or to none as they do. If something is done after the body, the block
around both has an environment that binds nothing, and goes on to bind nothing. Machines are sound from the
first one on: whatever is run leaves a sound one. -/
theorem tree_runs_as_written :
    (∀ last n a b s errors, Grammar.forRule last n ⟨a, errors⟩ = .ok s ⟨b, errors⟩ →
      ∃ loop, Reading.Loop a b loop [] ∧ s = loop.tree) ∧
    (∀ a b loop vs, Reading.Loop a b loop vs → loop.Written ∧ ∀ last n errors, Grammar.depthFor a ≤ n →
      Grammar.forRule last n ⟨a, errors⟩ = .ok loop.tree ⟨b, errors ++ vs⟩) ∧
    (∀ (input : Session.Input) (program : List Stmt), input.parsed = .ok program →
      ∀ (p : Site) (loop : ForLoop), Site.Within program p → loop.Written → p.part = .statement loop.tree →
        let direct := Resolve.forLoop p.place loop p.before
        p.after = direct.2 ∧ ∃ resolved : ForLoop, p.resolved = .statement resolved.tree ∧
          (∀ limit (m : Machine), m.Sound →
            (∀ n, Run.forLoop limit n direct.1 m ≠ .starved → ∃ k,
              Outcome.SameEnd m (Run.forLoop limit n direct.1 m) (Run.execute limit k resolved.tree m)) ∧
            ∀ k, Run.execute limit k resolved.tree m ≠ .starved → ∃ n,
              Outcome.SameEnd m (Run.forLoop limit n direct.1 m) (Run.execute limit k resolved.tree m)) ∧
          (loop.rounds.increment.isSome → resolved.rounds.increment.isSome ∧ ∀ limit n (m m' : Machine),
            (Run.execute limit n resolved.rounds.block m).state? = some m' → m'.Vacant m.environments.size)) ∧
    (∀ limit n s (m m' : Machine) e, m.Vacant e → e ≠ m.current →
      (Run.execute limit n s m).state? = some m' → m'.Vacant e) ∧
    (∀ out clock, (Machine.initial out clock).Sound) ∧
    ∀ limit n s (m m' : Machine), m.Sound → (Run.execute limit n s m).state? = some m' → m'.Sound := by
  refine ⟨fun last n a b s errors read => Grammar.forRule_reads last read,
    fun a b loop vs read => ⟨read.written, fun last n errors deep => Grammar.forRule_made last read deep errors⟩,
    fun input program parsed p loop within_ written there => ?_,
    fun limit n s m m' e vacant other ended => Run.execute_vacant vacant other ended,
    fun out clock => (Session.settled_initial out .unlimited clock).sound,
    fun limit n s m m' sound ended => Run.execute_sound sound ended⟩
  have proper : p.part.Proper := within_.proper (Session.Input.proper_of_parsed parsed)
  have settled := within_.settled there
  obtain ⟨part, place, before, closing⟩ := p
  obtain rfl : part = .statement loop.tree := there
  have unmarked := unmarked_replicate before.scopes.length
  have paused : Resolution.Paused (List.replicate before.scopes.length false) before before :=
    ⟨⟨.self before.scopes, rfl, rfl⟩, settled⟩
  obtain ⟨⟨resolved, nested, same⟩, after⟩ := Resolve.forLoop_nests place written proper paused
  refine ⟨after.eq_of_unmarked unmarked, resolved, congrArg Part.statement same,
    fun limit m sound => Run.forLoop_sameEnd sound unmarked nested, fun stepped => ?_⟩
  obtain ⟨marks, nested⟩ := nested.rounds
  have stepped : resolved.rounds.increment.isSome := by
    rwa [nested.increment, Resolve.forLoop_increment]
  exact ⟨stepped, fun limit n m m' => Run.rounds_vacant nested stepped⟩

end ForLoop

/-- What is made of all the tokens, without a fault. -/
def Parse.whole? {α : Type} (rule : Parse α) (a : List Token) : Option α :=
  match rule ⟨a, []⟩ with
  | .ok x c => if c.rest.isEmpty && c.errors.isEmpty then some x else none
  | _ => none

theorem Parse.of_whole? {α : Type} {rule : Parse α} {a : List Token} {x : α} (h : rule.whole? a = some x) :
    rule ⟨a, []⟩ = .ok x ⟨[], []⟩ := by
  unfold whole? at h
  split at h
  · rename_i y c made
    obtain ⟨rest, errors⟩ := c
    rw [Option.ite_none_right_eq_some, Bool.and_eq_true, List.isEmpty_iff, List.isEmpty_iff] at h
    obtain ⟨⟨rfl, rfl⟩, ⟨⟩⟩ := h
    exact made
  · cases h

namespace ForLoop

/-- Functions that are made in the rounds of a loop share the one variable it declares: the first of them gives
what the variable is in the round that it is called in. -/
theorem tree_runs_as_written_captured :
    let source := "for(var i=\"a\",f=nil;i!=\"abb\";i=i+\"b\"){fun h(){return i;}if(f==nil)f=h;print f();}"
    let front := (Token.untilEof (Scan.ofSource source).tokens).1
    let m := Machine.initial .unlimited fun _ => 0
    ∃ (word : Token) (a : List Token) (program : List Stmt) (p : Site) (loop : ForLoop),
      front = word :: a ∧ word.isKeyword .for = true ∧ Reading.Loop a [] loop [] ∧
      (∀ last n, Grammar.depthFor a ≤ n → Grammar.forRule last n ⟨a, []⟩ = .ok loop.tree ⟨[], []⟩) ∧
      (Session.Input.program source).parsed = .ok program ∧
      Site.Within program p ∧ loop.Written ∧ p.part = .statement loop.tree ∧ m.Sound ∧
      let direct := Resolve.forLoop p.place loop p.before
      (∃ n, (Run.forLoop none n direct.1 m).written? = some "a\nab\n") ∧
      p.after = direct.2 ∧ ∃ resolved : ForLoop, p.resolved = .statement resolved.tree ∧
        resolved.rounds.increment.isSome ∧
        ∃ k, (Run.execute none k resolved.tree m).written? = some "a\nab\n" ∧
          ∃ m', (Run.execute none k resolved.tree m).state? = some m' ∧ m'.Sound := by
  intro source front m
  obtain ⟨reads, makes, runs, -, initial, later⟩ := tree_runs_as_written
  let input := Session.Input.program source
  let last := (Token.untilEof (Scan.ofSource source).tokens).2
  have starts : front.head?.any (Token.isKeyword .for) = true := by
    decide +kernel
  have checked : ((Grammar.forParts last (Grammar.depthFor front.tail)).whole? front.tail).any (fun loop =>
      loop.rounds.increment.isSome &&
        (Run.forLoop none 20 (Resolve.forLoop ⟨.program, .none⟩ loop .empty).1 m).written? ==
          some "a\nab\n") = true := by
    decide +kernel
  obtain ⟨word, first, isFor⟩ := (Option.any_eq_true _ _).mp starts
  have divided : front = word :: front.tail := List.eq_cons_of_mem_head? first
  generalize front.tail = a at divided checked
  obtain ⟨loop, whole, checked⟩ := (Option.any_eq_true _ _).mp checked
  obtain ⟨increment, ran⟩ := Bool.and_eq_true_iff.mp checked
  have read := Parse.of_whole? whole
  have made : Grammar.forRule last (Grammar.depthFor a) ⟨a, []⟩ = .ok loop.tree ⟨[], []⟩ := by
    rw [Grammar.forRule_eq, Parse.bind_apply, read]
    rfl
  obtain ⟨loop', reading, -⟩ := reads last _ a [] loop.tree [] made
  -- The parts are the ones that are read.
  obtain rfl : loop = loop' := by
    rcases Grammar.forParts_follows last (Grammar.depthFor a) reading [] with starved | same
    · rw [read] at starved
      cases starved
    · rw [read] at same
      cases same
      rfl
  obtain ⟨written, made⟩ := makes a [] loop [] reading
  have parsed : input.parsed = .ok [loop.tree] := by
    have program : Reading.Program front [loop.tree] [] := by
      rw [divided]
      exact .more (.statement (reading.statement isFor)) .ended
    exact program.parsed
  have sound : m.Sound := initial .unlimited fun _ => 0
  let p := (Site.root [loop.tree]).child 0
  have within_ : Site.Within [loop.tree] p := .child 0 .root
  obtain ⟨after, resolved, same, ends, vacant⟩ :=
    runs input [loop.tree] parsed p loop within_ written rfl
  have text : (Run.forLoop none 20 (Resolve.forLoop p.place loop p.before).1 m).written? = some "a\nab\n" :=
    beq_iff_eq.mp ran
  have ended : Run.forLoop none 20 (Resolve.forLoop p.place loop p.before).1 m ≠ .starved := by
    intro starved
    rw [starved] at text
    cases text
  obtain ⟨k, sameEnd⟩ := (ends none m sound).1 20 ended
  have text' := sameEnd.written.trans text
  have left : ∃ m', (Run.execute none k resolved.tree m).state? = some m' := by
    cases ran : Run.execute none k resolved.tree m with
    | ok flow m' => exact ⟨m', rfl⟩
    | _ => rw [ran] at text'; cases text'
  obtain ⟨m', left⟩ := left
  exact ⟨word, a, [loop.tree], p, loop, divided, isFor, reading, fun last n deep => made last n [] deep, parsed,
    within_, written, rfl, sound, ⟨20, text⟩, after, resolved, same, (vacant increment).1, k, text', m', left,
    later none k _ m m' sound left⟩

end ForLoop

end LoxLang
