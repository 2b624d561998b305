import LoxLang.Proofs.Running.Territory
/-!
Only loops go on without end. Every run that meets no loop comes to an end: normally or with a failure,
and with the same answer whatever depth it is given beyond some depth.

A body that is called is fetched from the machine and is no part of the syntax that is run, so the
recursion is on two numbers. `Run.Ends` says that runs end which start with `d` calls under way; the
statements of one body end by recursion on their syntax, if calls made from there end
(`Run.executeAll_ends`), and those start with `d + 1` calls under way, of which there are at most
`maxCallDepth` (`Run.statements_end`).
-/
namespace LoxLang

variable {α β : Type} {t : Territory} {d : Nat} {limit : Option Nat}

/-- The run has come to an end that leaves the machine tame, with as many calls under way as before. -/
def Outcome.Tame (t : Territory) (d : Nat) (Q : α → Prop) : Outcome α → Prop
  | .ok a m => m.Tame t ∧ m.callDepth = d ∧ Q a
  | .fail _ m => m.Tame t ∧ m.callDepth = d
  | .starved => False

def Flow.Tame (t : Territory) : Flow → Prop
  | .normal => True
  | .returned v => v.Tame t

theorem Flow.Tame.value {flow : Flow} (h : flow.Tame t) : flow.value.Tame t := by
  cases flow with
  | normal => trivial
  | returned v => exact h

namespace Run

/-- Started on a tame machine with `d` calls under way, the run ends: beyond some depth it comes to one
outcome whatever depth it is given. -/
def Ends (t : Territory) (d : Nat) (r : Nat → Run α) (Q : α → Prop) : Prop :=
  ∀ m : Machine, m.Tame t → m.callDepth = d →
    ∃ n out, (∀ k, n ≤ k → r k m = out) ∧ out.Tame t d Q

namespace Ends

variable {r : Nat → Run α} {next : Nat → α → Run β} {Q : α → Prop} {R : β → Prop}

theorem of_run {r : Run α} (h : ∀ m : Machine, m.Tame t → m.callDepth = d → (r m).Tame t d Q) :
    Ends t d (fun _ => r) Q :=
  fun m tame depth => ⟨0, r m, fun _ _ => rfl, h m tame depth⟩

theorem pure {a : α} (h : Q a) : Ends t d (fun _ => (pure a : Run α)) Q :=
  of_run fun _ tame depth => ⟨tame, depth, h⟩

theorem fault {token : Token} {f : RuntimeFault} : Ends t d (fun _ => (fault token f : Run α)) Q :=
  of_run fun _ tame depth => ⟨tame, depth⟩

theorem succ (h : Ends t d (fun k => r (k + 1)) Q) : Ends t d r Q := by
  intro m tame depth
  obtain ⟨n, out, settled, good⟩ := h m tame depth
  refine ⟨n + 1, out, fun k le => ?_, good⟩
  obtain ⟨j, rfl⟩ : ∃ j, k = j + 1 := ⟨k - 1, by omega⟩
  exact settled j (by omega)

theorem bind (h : Ends t d r Q) (h' : ∀ a, Q a → Ends t d (fun k => next k a) R) :
    Ends t d (fun k => r k >>= next k) R := by
  intro m tame depth
  obtain ⟨n, out, settled, good⟩ := h m tame depth
  cases out with
  | ok a m' =>
    obtain ⟨tame', depth', q⟩ := good
    obtain ⟨n', out', settled', good'⟩ := h' a q m' tame' depth'
    refine ⟨max n n', out', fun k le => ?_, good'⟩
    show (r k >>= next k) m = out'
    rw [bind_apply, settled k (by omega)]
    exact settled' k (by omega)
  | fail e m' =>
    refine ⟨n, .fail e m', fun k le => ?_, good⟩
    show (r k >>= next k) m = .fail e m'
    rw [bind_apply, settled k le]
  | starved => exact good.elim

theorem within {e : Nat} (inside : t.environments e) (h : Ends t d r Q) :
    Ends t d (fun k => within e (r k)) Q := by
  intro m tame depth
  obtain ⟨n, out, settled, good⟩ := h { m with current := e } (tame.move inside) depth
  refine ⟨n, Run.within e (fun _ => out) m, fun k le => ?_, ?_⟩
  · unfold Run.within
    dsimp only
    rw [settled k le]
  · unfold Run.within
    cases out with
    | ok a m' => exact ⟨good.1.move tame.current, good.2⟩
    | fail e m' => exact ⟨good.1.move tame.current, good.2⟩
    | starved => exact good

theorem asCall {paren : Token} (h : d < maxCallDepth → Ends t (d + 1) r Q) :
    Ends t d (fun k => asCall (some maxCallDepth) paren (r k)) Q := by
  intro m tame depth
  by_cases room : d < maxCallDepth
  · have free : (some maxCallDepth).any (· ≤ m.callDepth) = false := by
      simpa [depth] using room
    obtain ⟨n, out, settled, good⟩ := h room { m with callDepth := m.callDepth + 1 }
      (tame.congr rfl rfl rfl) (by rw [← depth])
    refine ⟨n, Run.asCall (some maxCallDepth) paren (fun _ => out) m, fun k le => ?_, ?_⟩
    · unfold Run.asCall
      dsimp only
      rw [settled k le]
    · unfold Run.asCall
      rw [if_neg (by simp [free])]
      cases out with
      | ok a m' =>
        obtain ⟨tame', depth', q⟩ := good
        refine ⟨tame'.congr rfl rfl rfl, ?_, q⟩
        show m'.callDepth - 1 = d
        omega
      | fail e m' =>
        obtain ⟨tame', depth'⟩ := good
        refine ⟨tame'.congr rfl rfl rfl, ?_⟩
        show m'.callDepth - 1 = d
        omega
      | starved => exact good
  -- Without room the call is refused, and its body is not looked at.
  · have full : (some maxCallDepth).any (· ≤ m.callDepth) = true := by
      simpa [depth] using room
    refine ⟨0, .fail (.runtime ⟨.stackOverflow, paren⟩) m, fun k _ => ?_, tame, depth⟩
    unfold Run.asCall
    exact if_pos full

end Ends

/-! Steps -/

theorem lift_ends {token : Token} {r : Except RuntimeFault α} {Q : α → Prop}
    (h : ∀ a, r = .ok a → Q a) : Ends t d (fun _ => lift token r) Q := by
  refine .of_run fun m tame depth => ?_
  cases r with
  | ok a => exact ⟨tame, depth, h a rfl⟩
  | error f => exact ⟨tame, depth⟩

theorem lookUp_ends {name : Token} {depth : Option Nat} :
    Ends t d (fun _ => lookUp name depth) (Value.Tame t) := by
  refine .of_run fun m tame calls => ?_
  unfold lookUp
  dsimp only
  split
  · rename_i v found
    exact ⟨tame, calls, tame.lookUp found⟩
  · exact ⟨tame, calls⟩

theorem assign_ends {name : Token} {depth : Option Nat} {v : Value} (h : v.Tame t) :
    Ends t d (fun _ => assign name depth v) fun _ => True := by
  refine .of_run fun m tame calls => ?_
  unfold assign
  dsimp only
  split
  · exact ⟨tame.define h, calls, trivial⟩
  · exact ⟨tame, calls⟩

theorem define_ends {name : String} {v : Value} (h : v.Tame t) :
    Ends t d (fun _ => define name v) fun _ => True :=
  .of_run fun _ tame calls => ⟨tame.define h, calls, trivial⟩

theorem setField_ends {id : Nat} {name : String} {v : Value} (h : v.Tame t) :
    Ends t d (fun _ => setField id name v) fun _ => True :=
  .of_run fun _ tame calls => ⟨tame.setField h, calls, trivial⟩

theorem newEnvironment_ends {outer : Nat} {bindings : Bindings Value}
    (inside : t.environments outer) (h : ∀ x v, bindings.find? x = some v → v.Tame t) :
    Ends t d (fun _ => newEnvironment outer bindings) t.environments :=
  .of_run fun _ tame calls => ⟨tame.push inside h, calls, tame.fresh _ (Nat.le_refl _)⟩

theorem newInstance_ends : Ends t d (fun _ => newInstance) t.instances :=
  .of_run fun _ tame calls => ⟨tame.newInstance, calls, tame.freshInstance _ (Nat.le_refl _)⟩

theorem newId_ends : Ends t d (fun _ => newId) fun _ => True :=
  .of_run fun _ tame calls => ⟨tame.congr rfl rfl rfl, calls, trivial⟩

theorem current_ends : Ends t d (fun _ => current) t.environments :=
  .of_run fun _ tame calls => ⟨tame, calls, tame.current⟩

theorem receiver_ends {e : Nat} (inside : t.environments e) :
    Ends t d (fun _ => receiver e) (Value.Tame t) := by
  refine .of_run fun m tame calls => ⟨tame, calls, ?_⟩
  cases found : m.environments.findHere? e "this" with
  | none => trivial
  | some v => exact tame.bound e "this" v inside found

theorem writeLine_ends {text : String} : Ends t d (fun _ => writeLine text) fun _ => True := by
  refine .of_run fun m tame calls => ?_
  unfold writeLine
  split
  · exact ⟨tame.congr rfl rfl rfl, calls, trivial⟩
  · exact ⟨tame.congr rfl rfl rfl, calls⟩

theorem flush_ends : Ends t d (fun _ => flush) fun _ => True := by
  refine .of_run fun m tame calls => ?_
  unfold flush
  split
  · exact ⟨tame, calls, trivial⟩
  · exact ⟨tame, calls⟩

theorem printAll_ends (vs : List Value) : Ends t d (fun _ => printAll vs) fun _ => True := by
  induction vs with
  | nil => exact .pure trivial
  | cons v vs ih =>
    apply writeLine_ends.bind
    intro _ _
    exact ih

/-! Functions and classes -/

theorem newClosure_ends {code : Function} {initializer : Bool} (free : code.LoopFree) :
    Ends t d (fun _ => newClosure code initializer) (Closure.Tame t) := by
  apply newId_ends.bind
  intro id _
  apply current_ends.bind
  intro here inside
  exact .pure ⟨free, inside⟩

theorem newClosures_ends {initializer : String → Bool} {codes : List Function}
    (free : Function.AllLoopFree codes) :
    Ends t d (fun _ => newClosures initializer codes) fun fs => ∀ f ∈ fs, f.Tame t := by
  induction codes with
  | nil => exact .pure fun _ mem => by cases mem
  | cons code rest ih =>
    apply (newClosure_ends free.1).bind
    intro f first
    apply (ih free.2).bind
    intro fs others
    exact .pure (List.forall_mem_cons.mpr ⟨first, others⟩)

theorem newClass_ends {name : String} {methods statics : List Function}
    (free : Function.AllLoopFree methods) (free' : Function.AllLoopFree statics) :
    Ends t d (fun _ => newClass name methods statics) (Class.Tame t) := by
  apply (newClosures_ends free).bind
  intro methods tame
  apply current_ends.bind
  intro outer inside
  apply (newEnvironment_ends inside fun _ _ found => by cases found).bind
  intro scope inside
  apply ((newClosures_ends free').within inside).bind
  intro statics tame'
  apply newId_ends.bind
  intro id _
  exact .pure ⟨tame, tame'⟩

theorem bindThis_ends {f : Closure} {v : Value} (tame : f.Tame t) (h : v.Tame t) :
    Ends t d (fun _ => bindThis f v) (Closure.Tame t) := by
  have binds : ∀ x w, Bindings.find? x [("this", v)] = some w → w.Tame t := by
    intro x w found
    unfold Bindings.find? at found
    split at found
    · cases found
      exact h
    · cases found
  apply (newEnvironment_ends tame.2 binds).bind
  intro scope inside
  apply newId_ends.bind
  intro id _
  exact .pure ⟨tame.1, inside⟩

theorem property_ends {id : Nat} {c : Class} {name : Token} (inside : t.instances id)
    (tame : c.Tame t) : Ends t d (fun _ => property id c name) (Value.Tame t) := by
  have found : Ends t d (fun _ => field? id name.lexeme) fun o => ∀ v ∈ o, v.Tame t :=
    .of_run fun m tame calls => ⟨tame, calls, fun v found => tame.field id _ v inside found⟩
  apply found.bind
  intro o values
  cases o with
  | some v => exact .pure (values v rfl)
  | none =>
    dsimp only
    split
    · rename_i f method
      have own : f.Tame t := tame.1 f (Closure.mem_of_lastNamed? method)
      have object : (Value.object id c).Tame t := ⟨inside, tame⟩
      apply (bindThis_ends own object).bind
      intro g bound
      exact .pure bound
    · rename_i f _ static
      exact .pure (tame.2 f (Closure.mem_of_lastNamed? static))
    · exact .fault

theorem member_ends {v : Value} {name : Token} (tame : v.Tame t) :
    Ends t d (fun _ => member v name) (Value.Tame t) := by
  unfold member
  split
  · exact property_ends tame.1 tame.2
  · split
    · rename_i f static
      exact .pure (tame.2 f (Closure.mem_of_lastNamed? static))
    · exact .fault
  · exact .fault

/-! Expressions and statements -/

/-- The calls that are made with `d` calls under way end. -/
def CallsEnd (t : Territory) (limit : Option Nat) (d : Nat) : Prop :=
  ∀ (paren : Token) (c : Callable) (vs : List Value), c.Tame t → (∀ v ∈ vs, v.Tame t) →
    Ends t d (fun k => asCall limit paren (call limit k c vs)) (Value.Tame t)

mutual

/-- Expressions without loops end, if the calls made from them do. -/
theorem evaluate_ends (calls : CallsEnd t limit d) : ∀ e : Expr, e.LoopFree →
    Ends t d (fun k => evaluate limit k e) (Value.Tame t)
  | .literal value, _ => .succ (.pure value.plain.tame)
  | .group inner, free => .succ (evaluate_ends calls inner free)
  | .unary op right, free => by
    apply Ends.succ
    apply (evaluate_ends calls right free).bind
    intro v _
    exact lift_ends fun w made => (plain_of_unary made).tame
  | .binary left op right, free => by
    apply Ends.succ
    apply (evaluate_ends calls left free.1).bind
    intro v _
    apply (evaluate_ends calls right free.2).bind
    intro w _
    exact lift_ends fun x made => (plain_of_binary made).tame
  | .logical left op right, free => by
    apply Ends.succ
    apply (evaluate_ends calls left free.1).bind
    intro v tame
    split
    · exact .pure tame
    · exact evaluate_ends calls right free.2
  | .ternary condition whenTrue whenFalse, free => by
    apply Ends.succ
    apply (evaluate_ends calls condition free.1).bind
    intro v _
    split
    · exact evaluate_ends calls whenTrue free.2.1
    · exact evaluate_ends calls whenFalse free.2.2
  | .variable name depth, _ => .succ lookUp_ends
  | .this keyword depth, _ => .succ lookUp_ends
  | .assign name value depth, free => by
    apply Ends.succ
    apply (evaluate_ends calls value free).bind
    intro v tame
    apply (assign_ends tame).bind
    intro _ _
    exact .pure tame
  | .call callee paren arguments, free => by
    apply Ends.succ
    apply (evaluate_ends calls callee free.1).bind
    intro v tame
    apply (evaluateAll_ends calls arguments free.2).bind
    intro vs all
    -- The body that is called is no part of this tree: that it ends is what is assumed of calls.
    split
    · split
      · exact calls paren _ vs tame all
      · exact .fault
    · exact .fault
  | .property object name, free => by
    apply Ends.succ
    apply (evaluate_ends calls object free).bind
    intro v tame
    exact member_ends tame
  | .setProperty object name value, free => by
    apply Ends.succ
    apply (evaluate_ends calls object free.1).bind
    intro v _
    split
    · apply (evaluate_ends calls value free.2).bind
      intro w tame
      apply (setField_ends tame).bind
      intro _ _
      exact .pure tame
    · exact .fault
  | .lambda code, free => by
    apply Ends.succ
    apply (newClosure_ends free).bind
    intro f tame
    exact .pure tame

theorem evaluateAll_ends (calls : CallsEnd t limit d) : ∀ es : List Expr, Expr.AllLoopFree es →
    Ends t d (fun k => evaluateAll limit k es) fun vs => ∀ v ∈ vs, v.Tame t
  | [], _ => .succ (.pure fun _ mem => by cases mem)
  | e :: es, free => by
    apply Ends.succ
    apply (evaluate_ends calls e free.1).bind
    intro v first
    apply (evaluateAll_ends calls es free.2).bind
    intro vs others
    exact .pure (List.forall_mem_cons.mpr ⟨first, others⟩)

end

theorem declareAll_ends (calls : CallsEnd t limit d) : ∀ ds : List Declarator,
    Declarator.AllLoopFree ds → Ends t d (fun k => declareAll limit k ds) (Flow.Tame t)
  | [], _ => .succ (.pure trivial)
  | ⟨name, none⟩ :: ds, free => by
    apply Ends.succ
    refine Ends.bind (.pure trivial) fun v (tame : v.Tame t) => ?_
    apply (define_ends tame).bind
    intro _ _
    exact declareAll_ends calls ds free.2
  | ⟨name, some e⟩ :: ds, free => by
    apply Ends.succ
    apply (evaluate_ends calls e free.1).bind
    intro v tame
    apply (define_ends tame).bind
    intro _ _
    exact declareAll_ends calls ds free.2

mutual

/-- Statements without loops end, if the calls made from them do. -/
theorem execute_ends (calls : CallsEnd t limit d) : ∀ s : Stmt, s.LoopFree →
    Ends t d (fun k => execute limit k s) (Flow.Tame t)
  | .expression value, free => by
    apply Ends.succ
    apply (evaluate_ends calls value free).bind
    intro v _
    exact .pure trivial
  | .print value, free => by
    apply Ends.succ
    apply (evaluate_ends calls value free).bind
    intro v _
    apply writeLine_ends.bind
    intro _ _
    exact .pure trivial
  | .declare declarator, free => .succ (declareAll_ends calls [declarator] ⟨free, trivial⟩)
  | .declareAll declarators, free => .succ (declareAll_ends calls declarators free)
  | .block body, free => by
    apply Ends.succ
    apply current_ends.bind
    intro outer inside
    apply (newEnvironment_ends inside fun _ _ found => by cases found).bind
    intro scope inside
    exact (executeAll_ends calls body free).within inside
  | .conditional condition whenTrue none, free => by
    apply Ends.succ
    apply (evaluate_ends calls condition free.1).bind
    intro v _
    split
    · exact execute_ends calls whenTrue free.2
    · exact .pure trivial
  | .conditional condition whenTrue (some whenFalse), free => by
    apply Ends.succ
    apply (evaluate_ends calls condition free.1).bind
    intro v _
    split
    · exact execute_ends calls whenTrue free.2.1
    · exact execute_ends calls whenFalse free.2.2
  -- A loop is the one statement that is run again, and there is none.
  | .loop _ _, free => free.elim
  | .declareFunction code, free => by
    apply Ends.succ
    apply (newClosure_ends free).bind
    intro f tame
    have value : (Value.callable (.function f)).Tame t := tame
    apply (define_ends value).bind
    intro _ _
    exact .pure trivial
  | .returns keyword none, _ => .succ (.pure trivial)
  | .returns keyword (some value), free => by
    apply Ends.succ
    apply (evaluate_ends calls value free).bind
    intro v tame
    exact .pure tame
  | .declareClass name methods statics, free => by
    apply Ends.succ
    apply (newClass_ends free.1 free.2).bind
    intro c tame
    have value : (Value.callable (.ofClass c)).Tame t := tame
    apply (define_ends value).bind
    intro _ _
    exact .pure trivial

theorem executeAll_ends (calls : CallsEnd t limit d) : ∀ ss : List Stmt, Stmt.AllLoopFree ss →
    Ends t d (fun k => executeAll limit k ss) (Flow.Tame t)
  | [], _ => .succ (.pure trivial)
  | s :: ss, free => by
    apply Ends.succ
    apply (execute_ends calls s free.1).bind
    intro flow tame
    split
    · exact executeAll_ends calls ss free.2
    · exact .pure tame

end

/-! Calls -/

theorem bindParams_tame {params : List Token} {vs : List Value} (all : ∀ v ∈ vs, v.Tame t)
    (x : String) (v : Value) (found : (bindParams params vs).find? x = some v) : v.Tame t := by
  rcases of_find?_bindParams params vs [] found with ⟨_, given⟩ | found
  · exact all v given
  · cases found

/-- The body of a function runs in an environment of its own. -/
theorem callFunction_ends {f : Closure} {vs : List Value}
    (bodies : ∀ ss, Stmt.AllLoopFree ss → Ends t d (fun k => executeAll limit k ss) (Flow.Tame t))
    (tame : f.Tame t) (all : ∀ v ∈ vs, v.Tame t) :
    Ends t d (fun k => call limit k (.function f) vs) (Value.Tame t) := by
  have free : Stmt.AllLoopFree f.code.body := tame.1.body
  apply Ends.succ
  apply (newEnvironment_ends tame.2 (bindParams_tame all)).bind
  intro scope inside
  apply ((bodies f.code.body free).within inside).bind
  intro flow returned
  split
  · exact receiver_ends tame.2
  · exact .pure returned.value

/-- A call ends if bodies end: that of a function, and that of the initializer of a class, which runs
as part of the call of the class. -/
theorem call_ends {c : Callable} {vs : List Value}
    (bodies : ∀ ss, Stmt.AllLoopFree ss → Ends t d (fun k => executeAll limit k ss) (Flow.Tame t))
    (tame : c.Tame t) (all : ∀ v ∈ vs, v.Tame t) :
    Ends t d (fun k => call limit k c vs) (Value.Tame t) := by
  cases c with
  | function f => exact callFunction_ends bodies tame all
  | native n =>
    apply Ends.succ
    cases n with
    | clock =>
      refine Ends.bind (Q := fun _ => True) ?_ fun x _ => .pure trivial
      exact .of_run fun m tame depth => ⟨tame.congr rfl rfl rfl, depth, trivial⟩
    | print =>
      apply (printAll_ends vs).bind
      intro _ _
      exact .pure trivial
  | ofClass c =>
    apply Ends.succ
    apply newInstance_ends.bind
    intro id inside
    have object : (Value.object id c).Tame t := ⟨inside, tame⟩
    split
    · rename_i f initializer
      have own : f.Tame t := tame.1 f (Closure.mem_of_lastNamed? initializer)
      apply (bindThis_ends own object).bind
      intro g bound
      apply (callFunction_ends bodies bound all).bind
      intro _ _
      exact .pure object
    · exact .pure object

/-- Calls end, however many are under way: with each of them there is room for one less. -/
theorem calls_end (room : Nat) :
    ∀ d, maxCallDepth ≤ d + room → CallsEnd t (some maxCallDepth) d := by
  induction room with
  | zero =>
    intro d full paren c vs tame all
    exact .asCall fun less => absurd full (Nat.not_le.mpr less)
  | succ room ih =>
    intro d enough paren c vs tame all
    apply Ends.asCall
    intro _
    -- The body is one call deeper, where there is room for one call less.
    have deeper : CallsEnd t (some maxCallDepth) (d + 1) := ih (d + 1) (by omega)
    exact call_ends (fun ss free => executeAll_ends deeper ss free) tame all

theorem executeProgram_ends (calls : CallsEnd t limit d) (program : List Stmt)
    (free : Stmt.AllLoopFree program) :
    Ends t d (fun k => executeProgram limit k program) fun _ => True := by
  induction program with
  | nil => exact .pure trivial
  | cons s ss ih =>
    apply (execute_ends calls s free.1).bind
    intro flow _
    exact ih free.2

theorem interpret_ends (calls : CallsEnd t limit d) {program : List Stmt}
    (free : Stmt.AllLoopFree program) :
    Ends t d (fun k => interpret limit k program) fun _ => True := by
  intro m tame depth
  obtain ⟨n, out, settled, good⟩ := executeProgram_ends calls program free m tame depth
  have flushes : ∀ m' : Machine, m'.Tame t → m'.callDepth = d →
      (flush m').Tame t d fun _ => True := by
    intro m' tame' depth'
    obtain ⟨n', out', flushed, good'⟩ := flush_ends m' tame' depth'
    have same : flush m' = out' := flushed n' (Nat.le_refl n')
    rwa [same]
  cases out with
  | ok a m' =>
    refine ⟨n, flush m', fun k le => ?_, flushes m' good.1 good.2.1⟩
    have ran : executeProgram limit k program m = .ok a m' := settled k le
    simp only [interpret, ran]
  | fail e m' =>
    -- That the output cannot be flushed counts for more than how the program failed.
    have good' := flushes m' good.1 good.2
    have ran : ∀ k, n ≤ k → executeProgram limit k program m = .fail e m' := settled
    cases flushed : flush m' with
    | ok a m'' =>
      rw [flushed] at good'
      refine ⟨n, .fail e m'', fun k le => ?_, good'.1, good'.2.1⟩
      simp only [interpret, ran k le, flushed]
    | fail e' m'' =>
      rw [flushed] at good'
      refine ⟨n, .fail e' m'', fun k le => ?_, good'⟩
      simp only [interpret, ran k le, flushed]
    | starved =>
      rw [flushed] at good'
      exact good'.elim
  | starved => exact good.elim

/-- Only loops can go on without end. If no function that can be reached has a loop in its body, and the
program has none, then the run comes to an end: beyond some depth its outcome, which is no starvation,
is the same. -/
theorem only_loops_diverge (m : Machine) (program : List Stmt)
    (bodies : ∀ f, m.Reaches (.code f) → f.code.LoopFree) (free : Stmt.AllLoopFree program) :
    ∃ n out, out ≠ .starved ∧ ∀ k, n ≤ k → interpret (some maxCallDepth) k program m = out := by
  -- Whatever the number of calls under way, at most `maxCallDepth` more can be made.
  have calls : CallsEnd m.reachable (some maxCallDepth) m.callDepth :=
    calls_end maxCallDepth m.callDepth (Nat.le_add_left _ _)
  obtain ⟨n, out, settled, good⟩ :=
    interpret_ends calls free m (Machine.tame_reachable bodies) rfl
  refine ⟨n, out, ?_, settled⟩
  rintro rfl
  exact good

def callsItself : Stmt :=
  .expression (.call (.variable ⟨.identifier, "f", 1⟩ none) ⟨.symbol .rightParen, ")", 1⟩ [])

/-- What `fun f() { f(); }` leaves behind as the first statement of a session. -/
def endless : Closure := ⟨0, ⟨⟨.identifier, "f", 1⟩, [], [callsItself]⟩, Machine.globals, false⟩

/-- What is reached from the globals with `endless` among them. -/
def NearEndless : Held → Prop
  | .environment e => e = Machine.globals
  | .value v => v = .callable (.function endless) ∨ ∃ n, v = .callable (.native n)
  | .code f => f = endless

theorem reaches_endless {out : Sink} {clock : Nat → Float} {held : Held}
    (reached : ((Machine.initial out clock).defineGlobal "f"
      (.callable (.function endless))).Reaches held) : NearEndless held := by
  induction reached with
  | globals => rfl
  | current => rfl
  | outer _ link here =>
    cases (here : _ = Machine.globals)
    rw [Machine.defineGlobal, Forest.outer?_define] at link
    cases link
  | bound _ found _ =>
    rw [Machine.defineGlobal, Forest.findHere?_define] at found
    split at found
    · cases found
      exact .inl rfl
    · exact .inr (Machine.native_of_initial found)
  | field _ _ here => rcases here with same | ⟨_, same⟩ <;> cases same
  | ofObject _ here => rcases here with same | ⟨_, same⟩ <;> cases same
  | method _ _ here => rcases here with same | ⟨_, same⟩ <;> cases same
  | static _ _ here => rcases here with same | ⟨_, same⟩ <;> cases same
  | function _ here =>
    rcases here with same | ⟨_, same⟩
    · cases same
      rfl
    · cases same
  | scope _ here =>
    cases (here : _ = endless)
    rfl

/-- A call of a function that does nothing but call itself. -/
theorem only_loops_diverge_endless :
    Stmt.AllLoopFree [callsItself] ∧
    ∃ n out, out ≠ .starved ∧ ∀ k, n ≤ k →
      interpret (some maxCallDepth) k [callsItself]
        ((Machine.initial .unlimited fun _ => 0).defineGlobal "f" (.callable (.function endless)))
          = out := by
  have free : Stmt.AllLoopFree [callsItself] := ⟨⟨trivial, trivial⟩, trivial⟩
  refine ⟨free, only_loops_diverge _ _ (fun f reached => ?_) free⟩
  have same : f = endless := reaches_endless reached
  subst same
  exact free

end Run

end LoxLang
