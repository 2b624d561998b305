import LoxLang.Proofs.Running.Watched
import LoxLang.Proofs.Syntax.ProperTrees
/-!
What holds of a running program whenever it is looked at. A world is a machine with the log of its
run and with the scope that each environment is an instance of. In a world that is in order every
function has the site of its code on record, and the environments from its scope outward are
instances of the scopes that are open there; an environment binds nothing that its scope does not,
and binds everything whose declaration is complete where the function was made.

What is proved: the world only grows (`World.Grows`), and all of this stays true as it grows
(`Chain.mono`, `ValueFits.mono`). `Safe` says of a watched run that it leaves the world in order; it
is closed under the ways runs are put together.
-/
namespace LoxLang

/-! Environments that are added -/

namespace Forest

variable {α : Type}

theorem outer?_push_size (f : Forest α) {outer : Nat} (h : outer < f.size)
    (bindings : Bindings α) : (f.push (some outer) bindings).outer? f.size = some outer := by
  have h' : outer < f.environments.size := h
  simp [outer?, push, size, h', Option.filter]

theorem findHere?_push_size (f : Forest α) (outer : Option Nat) (bindings : Bindings α)
    (name : String) : (f.push outer bindings).findHere? f.size name = bindings.find? name := by
  simp [findHere?, push, size]

theorem findHere?_of_size_le {f : Forest α} {e : Nat} (h : f.size ≤ e) (name : String) :
    f.findHere? e name = none := by
  have h' : ¬ e < f.environments.size := Nat.not_lt.mpr h
  simp [findHere?, h']

theorem lt_size_of_findHere? {f : Forest α} {e : Nat} {name : String}
    (h : (f.findHere? e name).isSome) : e < f.size := by
  refine Nat.lt_of_not_le fun size_le => ?_
  rw [findHere?_of_size_le size_le] at h
  cases h

theorem lt_size_of_outer? {f : Forest α} {e outer : Nat} (h : f.outer? e = some outer) :
    e < f.size := by
  unfold outer? at h
  split at h
  · assumption
  · cases h

theorem outer?_zero (f : Forest α) : f.outer? 0 = none := by
  cases h : f.outer? 0 with
  | none => rfl
  | some p => exact absurd (outer?_lt h) (Nat.not_lt_zero p)

/-- An environment added at the end finds what the bindings it was made with hold. -/
theorem findHere?_push {f : Forest α} {outer : Option Nat} {bindings : Bindings α} {e : Nat}
    {name : String} {a : α} (h : (f.push outer bindings).findHere? e name = some a) :
    f.findHere? e name = some a ∨ e = f.size ∧ bindings.find? name = some a := by
  rcases Nat.lt_trichotomy e f.size with lt | rfl | gt
  · rw [findHere?_push_of_lt lt] at h
    exact .inl h
  · rw [findHere?_push_size] at h
    exact .inr ⟨rfl, h⟩
  · rw [findHere?_of_size_le (by rw [size_push]; omega)] at h
    cases h

theorem outer?_push_ite (f : Forest α) {outer : Nat} (h : outer < f.size) (bindings : Bindings α)
    (e : Nat) : (f.push (some outer) bindings).outer? e =
      if e = f.size then some outer else f.outer? e := by
  rcases Nat.lt_trichotomy e f.size with lt | rfl | gt
  · rw [outer?_push_of_lt lt, if_neg (Nat.ne_of_lt lt)]
  · rw [outer?_push_size f h, if_pos rfl]
  · rw [if_neg (Nat.ne_of_gt gt)]
    have beyond : ¬ e < f.environments.size := Nat.not_lt.mpr (Nat.le_of_lt gt)
    have beyond' : ¬ e < f.environments.size + 1 := Nat.not_lt.mpr gt
    simp [outer?, push, beyond, beyond']

theorem findHere?_push_ite (f : Forest α) (outer : Option Nat) (bindings : Bindings α) (e : Nat)
    (name : String) : (f.push outer bindings).findHere? e name =
      if e = f.size then bindings.find? name else f.findHere? e name := by
  rcases Nat.lt_trichotomy e f.size with lt | rfl | gt
  · rw [findHere?_push_of_lt lt, if_neg (Nat.ne_of_lt lt)]
  · rw [findHere?_push_size, if_pos rfl]
  · rw [if_neg (Nat.ne_of_gt gt), findHere?_of_size_le (by rw [size_push]; omega),
      findHere?_of_size_le (Nat.le_of_lt gt)]

theorem holder?_zero (f : Forest α) (name : String) :
    f.holder? 0 name = if (f.findHere? 0 name).isSome then some 0 else none := by
  rw [holder?]
  split
  · rfl
  · split
    · rename_i p link
      rw [outer?_zero] at link
      cases link
    · rfl

theorem find?_zero (f : Forest α) (name : String) : f.find? 0 name = f.findHere? 0 name := by
  rw [find?, holder?_zero]
  cases here : f.findHere? 0 name with
  | none => rfl
  | some a => exact here

theorem ancestor?_eq {β : Type} {f : Forest α} {g : Forest β} (h : ∀ e, g.outer? e = f.outer? e) :
    ∀ (e i : Nat), g.ancestor? e i = f.ancestor? e i
  | _, 0 => rfl
  | e, i + 1 => by
    rw [ancestor?, ancestor?, h e]
    cases f.outer? e with
    | none => rfl
    | some p => exact ancestor?_eq h p i

theorem ancestor?_congr {f f' : Forest α} (h : ∀ e < f.size, f'.outer? e = f.outer? e) :
    ∀ (i : Nat) {e : Nat}, e < f.size → f'.ancestor? e i = f.ancestor? e i
  | 0, _, _ => rfl
  | i + 1, e, lt => by
    rw [ancestor?, ancestor?, h e lt]
    cases link : f.outer? e with
    | none => rfl
    | some p => exact ancestor?_congr h i (Nat.lt_trans (outer?_lt link) lt)

theorem findHere?_of_find? {f : Forest α} {e : Nat} {name : String} {a : α}
    (h : f.find? e name = some a) : ∃ e', f.findHere? e' name = some a := by
  obtain ⟨holder, _, found⟩ := Option.bind_eq_some_iff.mp h
  exact ⟨holder, found⟩

theorem findHere?_of_findAt? {f : Forest α} {e distance : Nat} {name : String} {a : α}
    (h : f.findAt? e distance name = some a) : ∃ e', f.findHere? e' name = some a := by
  obtain ⟨holder, _, found⟩ := Option.bind_eq_some_iff.mp h
  exact ⟨holder, found⟩

theorem isSome_of_holder? {f : Forest α} {e holder : Nat} {name : String}
    (h : f.holder? e name = some holder) : (f.findHere? holder name).isSome := by
  induction e using Nat.strongRecOn with
  | ind e ih =>
    unfold holder? at h
    split at h
    · rename_i here
      cases h
      exact here
    · split at h
      · rename_i p link
        exact ih p (outer?_lt link) h
      · cases h

theorem isSome_of_holderAt? {f : Forest α} {e distance holder : Nat} {name : String}
    (h : f.holderAt? e distance name = some holder) : (f.findHere? holder name).isSome :=
  (Option.filter_eq_some_iff.mp h).2

end Forest

theorem Machine.native_of_initial {e : Nat} {x : String} {v : Value}
    (found : (Forest.empty.push none Machine.natives).findHere? e x = some v) :
    ∃ n, v = .callable (.native n) := by
  rcases Forest.findHere?_push found with none | ⟨_, native⟩
  · cases none
  · simp only [Machine.natives, List.map_cons, List.map_nil, Bindings.find?] at native
    split at native
    · exact ⟨_, (Option.some.inj native).symm⟩
    · split at native
      · exact ⟨_, (Option.some.inj native).symm⟩
      · cases native

/-! Parameters -/

theorem bindParams_cons (p : Token) (ps : List Token) (v : Value) (vs : List Value)
    (bindings : Bindings Value) :
    ((p :: ps).zip (v :: vs)).foldl (fun bs (p, v) => Bindings.put p.lexeme v bs) bindings =
      (ps.zip vs).foldl (fun bs (p, v) => Bindings.put p.lexeme v bs)
        (bindings.put p.lexeme v) := rfl

/-- Every parameter is bound if there are arguments for all of them. -/
theorem bound_bindParams {x : String} : ∀ (params : List Token) (arguments : List Value)
    (bindings : Bindings Value), arguments.length = params.length →
      (∃ t ∈ params, t.lexeme = x) ∨ (bindings.find? x).isSome →
        (((params.zip arguments).foldl (fun bs (p, v) => bs.put p.lexeme v) bindings).find? x).isSome
  | [], [], _, _, h => by
    rcases h with ⟨t, mem, _⟩ | bound
    · cases mem
    · exact bound
  | p :: ps, v :: vs, bindings, length, h => by
    rw [bindParams_cons]
    refine bound_bindParams ps vs _ (Nat.succ.inj length) ?_
    rw [Bindings.find?_put]
    rcases h with ⟨t, mem, same⟩ | bound
    · rcases List.mem_cons.mp mem with rfl | mem
      · exact .inr (by rw [if_pos same]; rfl)
      · exact .inl ⟨t, mem, same⟩
    · right
      split
      · rfl
      · exact bound

theorem of_find?_bindParams {x : String} {v : Value} : ∀ (params : List Token)
    (arguments : List Value) (bindings : Bindings Value),
      ((params.zip arguments).foldl (fun bs (p, v) => bs.put p.lexeme v) bindings).find? x = some v →
        (∃ t ∈ params, t.lexeme = x) ∧ v ∈ arguments ∨ bindings.find? x = some v
  | [], _, _, h => .inr h
  | _ :: _, [], _, h => .inr h
  | p :: ps, u :: us, bindings, h => by
    rw [bindParams_cons] at h
    rcases of_find?_bindParams ps us _ h with ⟨⟨t, mem, same⟩, given⟩ | found
    · exact .inl ⟨⟨t, List.mem_cons_of_mem _ mem, same⟩, List.mem_cons_of_mem _ given⟩
    · rw [Bindings.find?_put] at found
      split at found
      · rename_i same
        cases found
        exact .inl ⟨⟨p, List.mem_cons_self, same⟩, List.mem_cons_self⟩
      · exact .inr found

/-! Fields of instances -/

theorem fields_push (instances : Array (Bindings Value)) (i : Nat) :
    (instances.push []).getD i [] = instances.getD i [] := by
  rw [Array.getD_eq_getD_getElem?, Array.getD_eq_getD_getElem?, Array.getElem?_push]
  split
  · rename_i last
    rw [last, Array.getElem?_size]
    rfl
  · rfl

/-- A field that is set changes what is found under its name in its instance. -/
theorem find?_fields_modify (instances : Array (Bindings Value)) (id i : Nat) (x z : String)
    (v : Value) : ((instances.modify id (·.put x v)).getD i []).find? z =
      if i < instances.size ∧ id = i ∧ x = z then some v else (instances.getD i []).find? z := by
  rw [Array.getD_eq_getD_getElem?, Array.getD_eq_getD_getElem?, Array.getElem?_modify]
  by_cases here : id = i
  · subst here
    by_cases lt : id < instances.size
    · rw [if_pos rfl, Array.getElem?_eq_getElem lt, Option.map_some, Option.getD_some,
        Option.getD_some, Bindings.find?_put]
      simp [lt]
    · rw [if_pos rfl, Array.getElem?_eq_none (Nat.le_of_not_lt lt)]
      simp [lt]
  · simp [here]

/-! Functions that stand where they were made -/

/-- A machine, what is noted of its run, and what the scope of each environment holds when the walk
over the names closes it. The globals are no scope. -/
structure World where
  log : Log
  machine : Machine
  scopes : Nat → Option Locals

/-- From `e` outward, the environments are instances of open scopes, whose names with a complete
declaration they bind, and the globals come last. Whether `this` is bound is not asked here. -/
def Chain (f : Forest Value) (scopes : Nat → Option Locals) :
    Nat → List (Bindings Bool) → List Locals → Prop
  | e, [], [] => e = Machine.globals
  | e, s :: ss, c :: cs =>
    scopes e = some c ∧
      (∀ x, s.find? x = some true → x ≠ Keyword.this.word → (f.findHere? e x).isSome) ∧
        ∃ outer, f.outer? e = some outer ∧ Chain f scopes outer ss cs
  | _, _, _ => False

/-- The nearest of the open scopes that has a `this` binds it in its environment. -/
def Receives (f : Forest Value) : Nat → List (Bindings Bool) → Prop
  | _, [] => False
  | e, s :: ss =>
    if s.binds Keyword.this.word then (f.findHere? e Keyword.this.word).isSome = true
    else ∃ outer, f.outer? e = some outer ∧ Receives f outer ss

/-- The environments from `e` outward are those that the code at a site needs. -/
structure Stands (w : World) (e : Nat) (p : Site) : Prop where
  chain : Chain w.machine.environments w.scopes e p.before.outline p.closing
  receives : p.place.receiver = .object →
    Receives w.machine.environments e p.before.outline

def Part.Proper : Part → Prop
  | expression e => e.Proper
  | expressions es => Expr.AllProper es
  | statement s => s.Proper
  | statements ss => Stmt.AllProper ss
  | declarators ds => Declarator.AllProper ds
  | function f => f.Proper
  | methods fs => Function.AllProper fs
  | statics fs => Function.AllProper fs

/-- A site in one of the programs that ran; what the walk binds there is in its scope to the end. -/
structure Site.Sound (ran : List (List Stmt)) (p : Site) : Prop where
  within : ∃ program ∈ ran, Site.Within program p
  proper : p.part.Proper
  closes : ∀ x, (p.after.top.find? x).isSome → (p.closing.headD []).binds x

section

variable (ran : List (List Stmt))

/-- The code of a function is what the walk made of it at a site in one of the programs. -/
structure Origin (w : World) (f : Closure) (p : Site) : Prop where
  known : w.log.origins f.id = some p
  code : ∃ code, p.part = .function code ∧ (Resolve.function p.place code p.before).1 = f.code
  sound : p.Sound ran

/-- The scope of a function is an instance of the scope around its code. -/
def FunctionFits (w : World) (f : Closure) : Prop :=
  ∃ p, Origin ran w f p ∧ Stands w f.scope p

/-- A method stands in the scope around its class; the scope of the class is still to come. -/
def MethodFits (w : World) (f : Closure) : Prop :=
  ∃ p ss c cs, Origin ran w f p ∧ p.before.outline = [(Keyword.this.word, true)] :: ss ∧
    p.closing = c :: cs ∧ Chain w.machine.environments w.scopes f.scope ss cs

/-- The methods of a class stand where they were made. -/
def ClassFits (w : World) (c : Class) : Prop :=
  (∀ f ∈ c.methods, MethodFits ran w f) ∧ ∀ f ∈ c.statics, FunctionFits ran w f

/-- The functions in a value stand where they were made. -/
def ValueFits (w : World) : Value → Prop
  | .callable (.function f) => FunctionFits ran w f
  | .callable (.ofClass c) => ClassFits ran w c
  | .object _ c => ClassFits ran w c
  | _ => True

end

/-- What there is in one world is still there in the other. -/
structure World.Grows (w w' : World) : Prop where
  size : w.machine.environments.size ≤ w'.machine.environments.size
  outer : ∀ e outer, w.machine.environments.outer? e = some outer →
    w'.machine.environments.outer? e = some outer
  bound : ∀ e x, (w.machine.environments.findHere? e x).isSome →
    (w'.machine.environments.findHere? e x).isSome
  origins : ∀ id p, w.log.origins id = some p → w'.log.origins id = some p
  scopes : ∀ e c, w.scopes e = some c → w'.scopes e = some c

/-- One world is a later state of the other, and the run is back in the environment it was in. -/
structure World.Follows (w w' : World) : Prop where
  grows : w.Grows w'
  current : w'.machine.current = w.machine.current

namespace World

variable {w w' w'' : World}

theorem Grows.refl (w : World) : Grows w w :=
  ⟨Nat.le_refl _, fun _ _ h => h, fun _ _ h => h, fun _ _ h => h, fun _ _ h => h⟩

theorem Grows.trans (h : Grows w w') (h' : Grows w' w'') : Grows w w'' where
  size := Nat.le_trans h.size h'.size
  outer e o ho := h'.outer e o (h.outer e o ho)
  bound e x hx := h'.bound e x (h.bound e x hx)
  origins id p hp := h'.origins id p (h.origins id p hp)
  scopes e c hc := h'.scopes e c (h.scopes e c hc)

theorem Follows.refl (w : World) : Follows w w := ⟨.refl w, rfl⟩

theorem Follows.trans (h : Follows w w') (h' : Follows w' w'') : Follows w w'' :=
  ⟨h.grows.trans h'.grows, h'.current.trans h.current⟩

end World

theorem Chain.mono {w w' : World} (grows : w.Grows w') :
    ∀ {e : Nat} {ss : List (Bindings Bool)} {cs : List Locals},
      Chain w.machine.environments w.scopes e ss cs →
        Chain w'.machine.environments w'.scopes e ss cs
  | _, [], [], h => h
  | _, [], _ :: _, h => h
  | _, _ :: _, [], h => h
  | _, _ :: _, _ :: _, ⟨instanceOf, binds, outer, link, rest⟩ =>
    ⟨grows.scopes _ _ instanceOf, fun x hx ne => grows.bound _ _ (binds x hx ne), outer,
      grows.outer _ _ link, Chain.mono grows rest⟩

theorem Receives.mono {w w' : World} (grows : w.Grows w') :
    ∀ {e : Nat} {ss : List (Bindings Bool)},
      Receives w.machine.environments e ss → Receives w'.machine.environments e ss
  | _, [], h => h
  | e, s :: ss, h => by
    unfold Receives at h ⊢
    by_cases has : s.binds Keyword.this.word = true
    · rw [if_pos has] at h ⊢
      exact grows.bound _ _ h
    · rw [if_neg has] at h ⊢
      obtain ⟨outer, link, rest⟩ := h
      exact ⟨outer, grows.outer _ _ link, Receives.mono grows rest⟩

theorem Stands.mono {w w' : World} {e : Nat} {p : Site} (h : Stands w e p) (grows : w.Grows w') :
    Stands w' e p :=
  ⟨h.chain.mono grows, fun object => (h.receives object).mono grows⟩

variable {ran : List (List Stmt)}

theorem Origin.mono {w w' : World} {f : Closure} {p : Site} (h : Origin ran w f p)
    (grows : w.Grows w') : Origin ran w' f p :=
  ⟨grows.origins _ _ h.known, h.code, h.sound⟩

theorem FunctionFits.mono {w w' : World} {f : Closure} (grows : w.Grows w') :
    FunctionFits ran w f → FunctionFits ran w' f
  | ⟨p, origin, stands⟩ => ⟨p, origin.mono grows, stands.mono grows⟩

theorem MethodFits.mono {w w' : World} {f : Closure} (grows : w.Grows w') :
    MethodFits ran w f → MethodFits ran w' f
  | ⟨p, ss, c, cs, origin, outline, closing, chain⟩ =>
    ⟨p, ss, c, cs, origin.mono grows, outline, closing, chain.mono grows⟩

theorem ClassFits.mono {w w' : World} {c : Class} (grows : w.Grows w') (h : ClassFits ran w c) :
    ClassFits ran w' c :=
  ⟨fun f mem => (h.1 f mem).mono grows, fun f mem => (h.2 f mem).mono grows⟩

theorem ValueFits.mono {w w' : World} {v : Value} (grows : w.Grows w') (h : ValueFits ran w v) :
    ValueFits ran w' v := by
  unfold ValueFits at h ⊢
  split
  · exact FunctionFits.mono grows h
  · exact ClassFits.mono grows h
  · exact ClassFits.mono grows h
  · trivial

/-! Environments and the scopes they are instances of -/

/-- The environments of a chain lead to the globals. -/
theorem Chain.ancestor {f : Forest Value} {scopes : Nat → Option Locals} :
    ∀ {e : Nat} {ss : List (Bindings Bool)} {cs : List Locals}, Chain f scopes e ss cs →
      f.ancestor? e ss.length = some Machine.globals ∧ f.ancestor? e (ss.length + 1) = none
  | _, [], [], h => by
    cases h
    refine ⟨rfl, ?_⟩
    rw [List.length_nil, Forest.ancestor?, Machine.globals, Forest.outer?_zero]
  | _, [], _ :: _, h => h.elim
  | _, _ :: _, [], h => h.elim
  | _, _ :: _, _ :: _, ⟨_, _, outer, link, rest⟩ => by
    have ih := Chain.ancestor rest
    rw [List.length_cons, Forest.ancestor?, Forest.ancestor?, link]
    exact ih

/-- Every open scope has its instance in a chain. -/
theorem Chain.instanceAt {f : Forest Value} {scopes : Nat → Option Locals} :
    ∀ {e : Nat} {ss : List (Bindings Bool)} {cs : List Locals}, Chain f scopes e ss cs →
      ∀ {i : Nat} {s : Bindings Bool}, ss[i]? = some s → ∃ e' c,
        f.ancestor? e i = some e' ∧ cs[i]? = some c ∧ scopes e' = some c ∧
          ∀ x, s.find? x = some true → x ≠ Keyword.this.word → (f.findHere? e' x).isSome
  | _, [], [], _, _, _, isOpen => by cases isOpen
  | _, [], _ :: _, h, _, _, _ => h.elim
  | _, _ :: _, [], h, _, _, _ => h.elim
  | e, _ :: _, c :: _, ⟨instanceOf, binds, _, _, _⟩, 0, _, isOpen => by
    cases isOpen
    exact ⟨e, c, rfl, rfl, instanceOf, binds⟩
  | _, _ :: _, _ :: _, ⟨_, _, outer, link, rest⟩, i + 1, _, isOpen => by
    obtain ⟨e', c, ancestor, closing, known⟩ := Chain.instanceAt rest (i := i) isOpen
    exact ⟨e', c, by rw [Forest.ancestor?, link]; exact ancestor, closing, known⟩

/-- The nearest scope that has a `this` has it bound in its environment. -/
theorem Receives.ancestor {f : Forest Value} : ∀ {e : Nat} {ss : List (Bindings Bool)},
    Receives f e ss → ∃ d e', ss.findIdx? (Bindings.binds Keyword.this.word) = some d ∧
      f.ancestor? e d = some e' ∧ (f.findHere? e' Keyword.this.word).isSome
  | _, [], h => h.elim
  | e, s :: ss, h => by
    unfold Receives at h
    rw [List.findIdx?_cons]
    by_cases has : s.binds Keyword.this.word = true
    · rw [if_pos has] at h ⊢
      exact ⟨0, e, rfl, rfl, h⟩
    · rw [if_neg has] at h ⊢
      obtain ⟨outer, link, rest⟩ := h
      obtain ⟨d, e', found, ancestor, bound⟩ := Receives.ancestor rest
      exact ⟨d + 1, e', by rw [found]; rfl, by rw [Forest.ancestor?, link]; exact ancestor, bound⟩

/-- What is added to the innermost scope has to be bound where it is finished. -/
theorem Stands.update {w : World} {e : Nat} {p q : Site} (h : Stands w e p)
    (length : q.before.outline.length = p.before.outline.length)
    (tail : q.before.outline.tail = p.before.outline.tail)
    (finished : ∀ x, x ≠ Keyword.this.word → q.before.top.find? x = some true →
      p.before.top.find? x = some true ∨ (w.machine.environments.findHere? e x).isSome)
    (this : q.before.top.binds Keyword.this.word = p.before.top.binds Keyword.this.word)
    (closing : q.closing = p.closing) (receiver : q.place.receiver = p.place.receiver) :
    Stands w e q := by
  obtain ⟨chain, receives⟩ := h
  rw [← receiver] at receives
  rw [Resolution.top, Resolution.top] at finished this
  cases outline : p.before.outline with
  | nil =>
    rw [outline] at length chain receives
    -- Without an open scope there is nothing that could have been added.
    have none := List.eq_nil_of_length_eq_zero length
    exact ⟨by rw [none, closing]; exact chain, fun object => by rw [none]; exact receives object⟩
  | cons s ss =>
    rw [outline] at length tail finished this chain receives
    cases outline' : q.before.outline with
    | nil => rw [outline'] at length; cases length
    | cons s' ss' =>
      rw [outline'] at tail finished this
      simp only [List.tail_cons, List.headD_cons] at tail finished this
      subst tail
      constructor
      · rw [outline', closing]
        cases closing' : p.closing with
        | nil => rw [closing'] at chain; exact chain.elim
        | cons c cs =>
          rw [closing'] at chain
          obtain ⟨instanceOf, binds, rest⟩ := chain
          refine ⟨instanceOf, fun x found ne => ?_, rest⟩
          rcases finished x ne found with found | bound
          · exact binds x found ne
          · exact bound
      · intro object
        rw [outline']
        have receives := receives object
        unfold Receives at receives ⊢
        rw [this]
        exact receives

end LoxLang
