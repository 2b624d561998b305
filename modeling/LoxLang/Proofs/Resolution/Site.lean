import LoxLang.Environment
import LoxLang.Resolution
/-!
Where the walk over the names of a program comes by. A site is a part of the program together with
the state in which the walk comes to it and with what each of the scopes that are open there holds
when the walk closes it. `Site.child` leads from a site to the sites of its parts, each with the
state that the walk left behind in front of it, so the sites of a program are those that lie below
`Site.root`.

What is proved: expressions leave the open scopes as they are but for the use of names
(`expression_keeps` and its siblings), statements add to the innermost scope only and leave nothing
in it unfinished that was not so before (`statement_grows` and its siblings).
-/
namespace LoxLang

/-- A part of a program that is resolved, and run, on its own. -/
inductive Part where
  | expression (e : Expr)
  | expressions (es : List Expr)
  | statement (s : Stmt)
  | statements (ss : List Stmt)
  | declarators (ds : List Declarator)
  | function (f : Function)
  | methods (fs : List Function)
  | statics (fs : List Function)

def Part.IsExpression : Part → Prop
  | expression _ => True
  | expressions _ => True
  | _ => False

def Part.resolve (place : Surroundings) : Part → Resolve Part
  | expression e => do
    let e ← Resolve.expression place e
    pure (expression e)
  | expressions es => do
    let es ← Resolve.expressions place es
    pure (expressions es)
  | statement s => do
    let s ← Resolve.statement place s
    pure (statement s)
  | statements ss => do
    let ss ← Resolve.statements place ss
    pure (statements ss)
  | declarators ds => do
    let ds ← Resolve.declarators place ds
    pure (declarators ds)
  | function f => do
    let f ← Resolve.function place f
    pure (function f)
  | methods fs => do
    let fs ← Resolve.methods fs
    pure (methods fs)
  | statics fs => do
    let fs ← Resolve.statics fs
    pure (statics fs)

/-- A place the walk comes to. -/
structure Site where
  part : Part
  place : Surroundings
  /-- The state in which the walk comes to the part. -/
  before : Resolution
  /-- What the open scopes hold when the walk closes them, the innermost first. -/
  closing : List Locals

namespace Site

instance : Inhabited Site := ⟨⟨.statements [], ⟨.program, .none⟩, .empty, []⟩⟩

/-- The part with the distances that the walk gives its names. -/
def resolved (p : Site) : Part := (p.part.resolve p.place p.before).1

/-- The state in which the walk leaves the part. -/
def after (p : Site) : Resolution := (p.part.resolve p.place p.before).2

def root (program : List Stmt) : Site := ⟨.statements program, ⟨.program, .none⟩, .empty, []⟩

/-- The state in which the walk comes to the body of a function. -/
def openBody (params : List Token) : Resolve Unit := do
  Resolve.openScope []
  Resolve.declareParams params

/-- The state in which the walk comes to the methods of a class. -/
def openClass (name : Token) : Resolve Unit := do
  Resolve.declare name false
  Resolve.define name
  Resolve.openScope [⟨"this", name.line, true, false, false⟩]

/-- The innermost of the scopes that a walk leaves open. -/
def innermost {α : Type} (walk : Resolve α) (r : Resolution) : Locals :=
  (walk r).2.scopes.headD []

/-- The site of the `i`-th part of a part. -/
def child (p : Site) (i : Nat) : Site :=
  match p.part, i with
  | .expression (.group inner), 0 => { p with part := .expression inner }
  | .expression (.unary _ right), 0 => { p with part := .expression right }
  | .expression (.binary left _ _), 0 => { p with part := .expression left }
  | .expression (.binary left _ right), 1 =>
    { p with part := .expression right, before := (Resolve.expression p.place left p.before).2 }
  | .expression (.logical left _ _), 0 => { p with part := .expression left }
  | .expression (.logical left _ right), 1 =>
    { p with part := .expression right, before := (Resolve.expression p.place left p.before).2 }
  | .expression (.ternary condition _ _), 0 => { p with part := .expression condition }
  | .expression (.ternary condition whenTrue _), 1 =>
    { p with
      part := .expression whenTrue
      before := (Resolve.expression p.place condition p.before).2 }
  | .expression (.ternary condition whenTrue whenFalse), 2 =>
    { p with
      part := .expression whenFalse
      before := (Resolve.expression p.place whenTrue
        (Resolve.expression p.place condition p.before).2).2 }
  | .expression (.assign _ value _), 0 => { p with part := .expression value }
  | .expression (.call callee _ _), 0 => { p with part := .expression callee }
  | .expression (.call callee _ arguments), 1 =>
    { p with
      part := .expressions arguments
      before := (Resolve.expression p.place callee p.before).2 }
  | .expression (.property object _), 0 => { p with part := .expression object }
  | .expression (.setProperty object _ value), 0 =>
    { p with part := .expression object, before := (Resolve.expression p.place value p.before).2 }
  | .expression (.setProperty _ _ value), 1 => { p with part := .expression value }
  | .expression (.lambda code), 0 =>
    { p with part := .function code, place := ⟨.function, p.place.receiver⟩ }
  | .expressions (e :: _), 0 => { p with part := .expression e }
  | .expressions (e :: es), 1 =>
    { p with part := .expressions es, before := (Resolve.expression p.place e p.before).2 }
  | .statement (.expression value), 0 => { p with part := .expression value }
  | .statement (.print value), 0 => { p with part := .expression value }
  | .statement (.declare d), 0 => { p with part := .declarators [d] }
  | .statement (.declareAll ds), 0 => { p with part := .declarators ds }
  | .statement (.block body), 0 =>
    let opened := (Resolve.openScope [] p.before).2
    { p with
      part := .statements body
      before := opened
      closing := innermost (Resolve.statements p.place body) opened :: p.closing }
  | .statement (.conditional condition _ _), 0 => { p with part := .expression condition }
  | .statement (.conditional condition whenTrue _), 1 =>
    { p with
      part := .statement whenTrue
      before := (Resolve.expression p.place condition p.before).2 }
  | .statement (.conditional condition whenTrue (some whenFalse)), 2 =>
    { p with
      part := .statement whenFalse
      before := (Resolve.statement p.place whenTrue
        (Resolve.expression p.place condition p.before).2).2 }
  | .statement (.loop condition _), 0 => { p with part := .expression condition }
  | .statement (.loop condition body), 1 =>
    { p with part := .statement body, before := (Resolve.expression p.place condition p.before).2 }
  | .statement (.declareFunction code), 0 =>
    { p with
      part := .function code
      place := ⟨.function, p.place.receiver⟩
      before := (Resolve.define code.name (Resolve.declare code.name false p.before).2).2 }
  | .statement (.returns keyword (some value)), 0 =>
    { p with
      part := .expression value
      before := (Resolve.checkReturnValue p.place.body keyword
        (Resolve.checkReturn p.place.body keyword p.before).2).2 }
  | .statement (.declareClass name ms ss), 0 =>
    let opened := (openClass name p.before).2
    let ending := do
      let _ ← Resolve.methods ms
      Resolve.statics ss
    { p with
      part := .methods ms
      before := opened
      closing := innermost ending opened :: p.closing }
  | .statement (.declareClass name ms ss), 1 =>
    let opened := (Resolve.methods ms (openClass name p.before).2).2
    { p with
      part := .statics ss
      before := opened
      closing := innermost (Resolve.statics ss) opened :: p.closing }
  | .statements (s :: _), 0 => { p with part := .statement s }
  | .statements (s :: ss), 1 =>
    { p with part := .statements ss, before := (Resolve.statement p.place s p.before).2 }
  | .declarators (⟨name, some initial⟩ :: _), 0 =>
    { p with part := .expression initial, before := (Resolve.declare name true p.before).2 }
  | .declarators (d :: ds), 1 =>
    { p with part := .declarators ds, before := (Resolve.declarator p.place d p.before).2 }
  | .function ⟨_, params, body⟩, 0 =>
    let opened := (openBody params p.before).2
    { p with
      part := .statements body
      before := opened
      closing := innermost (Resolve.statements p.place body) opened :: p.closing }
  | .methods (f :: _), 0 =>
    { p with part := .function f, place := ⟨Resolve.methodBody f.name, .object⟩ }
  | .methods (f :: fs), 1 =>
    { p with
      part := .methods fs
      before := (Resolve.function ⟨Resolve.methodBody f.name, .object⟩ f p.before).2 }
  | .statics (f :: _), 0 => { p with part := .function f, place := ⟨.static, .static⟩ }
  | .statics (f :: fs), 1 =>
    { p with part := .statics fs, before := (Resolve.function ⟨.static, .static⟩ f p.before).2 }
  | _, _ => p

/-- The sites the walk over a program comes by. -/
inductive Within (program : List Stmt) : Site → Prop
  | root : Within program (root program)
  | child {p : Site} (i : Nat) : Within program p → Within program (p.child i)

/-- The second site is the first one or belongs to a part of it. -/
inductive Below (p : Site) : Site → Prop
  | refl : Below p p
  | child {q : Site} (i : Nat) : Below p q → Below p (q.child i)

end Site

/-! What a walk does to the open scopes -/

namespace Bindings

def mark (name : String) (b : Bool) (bs : Bindings Bool) : Bindings Bool :=
  bs.map fun (n, c) => if n == name then (n, b) else (n, c)

theorem find?_mark (name : String) (b : Bool) (x : String) : ∀ bs : Bindings Bool,
    (bs.mark name b).find? x = if name = x then (bs.find? x).map fun _ => b else bs.find? x
  | [] => by simp [mark, find?]
  | (n, c) :: rest => by
    have ih := find?_mark name b x rest
    simp only [mark, List.map_cons, beq_iff_eq] at ih ⊢
    by_cases same : n = name
    · subst same
      by_cases sought : n = x <;> simp [find?, sought, ih]
    · by_cases sought : n = x
      · subst sought
        simp [find?, same, Ne.symm same]
      · simp [find?, same, sought, ih]

theorem find?_append {α : Type} (x : String) (cs : Bindings α) : ∀ bs : Bindings α,
    find? x (bs ++ cs) = (find? x bs).or (find? x cs)
  | [] => rfl
  | (n, a) :: rest => by
    by_cases same : n = x
    · simp [find?, same]
    · simp [find?, same, find?_append x cs rest]

end Bindings

namespace Locals

/-- The names of a scope, each with whether its declaration is complete. -/
def outline (ls : Locals) : Bindings Bool := ls.map fun l => (l.name, l.defined)

theorem find?_outline (x : String) : ∀ ls : Locals,
    ls.outline.find? x = (ls.named? x).map (·.defined)
  | [] => rfl
  | l :: ls => by
    have rest := find?_outline x ls
    simp only [outline, named?, List.map_cons, Bindings.find?, List.find?_cons] at rest ⊢
    by_cases same : l.name = x
    · simp [same]
    · rw [if_neg same, rest, beq_false_of_ne same]

theorem binds_outline (x : String) (ls : Locals) : ls.outline.binds x = ls.binds x := by
  rw [Bindings.binds, find?_outline, Option.isSome_map, named?, binds, List.isSome_find?]

theorem outline_update (name : String) (b : Bool) (ls : Locals) :
    (ls.update name fun l => { l with defined := b }).outline = ls.outline.mark name b := by
  simp only [outline, update, Bindings.mark, List.map_map]
  apply List.map_congr_left
  intro l _
  simp only [Function.comp]
  split <;> rfl

end Locals

namespace Resolution

/-- The names of the open scopes, without what is known of their use. -/
def outline (r : Resolution) : List (Bindings Bool) := r.scopes.map Locals.outline

def top (r : Resolution) : Bindings Bool := r.outline.headD []

theorem top_eq (r : Resolution) : r.top = (r.scopes.headD []).outline := by
  rw [top, outline]
  cases r.scopes <;> rfl

theorem length_outline (r : Resolution) : r.outline.length = r.scopes.length :=
  List.length_map _

/-- From one state to the other the open scopes changed in nothing but the use of names. -/
structure Keeps (r r' : Resolution) : Prop where
  outline : r'.outline = r.outline
  errors : r.errors <+: r'.errors

/-- From one state to the other only the innermost scope changed. It lost no name, and what is
unfinished in it was so before. -/
structure Grows (r r' : Resolution) : Prop where
  length : r'.outline.length = r.outline.length
  tail : r'.outline.tail = r.outline.tail
  names : ∀ x, (r.top.find? x).isSome → (r'.top.find? x).isSome
  unfinished : ∀ x, r'.top.find? x = some false → r.top.find? x = some false
  errors : r.errors <+: r'.errors

theorem Keeps.refl (r : Resolution) : Keeps r r := ⟨rfl, List.prefix_rfl⟩

theorem Keeps.trans {r s t : Resolution} (h : Keeps r s) (h' : Keeps s t) : Keeps r t :=
  ⟨h'.outline.trans h.outline, h.errors.trans h'.errors⟩

theorem Keeps.grows {r r' : Resolution} (h : Keeps r r') : Grows r r' where
  length := by rw [h.outline]
  tail := by rw [h.outline]
  names x hx := by rwa [top, h.outline]
  unfinished x hx := by rwa [top, ← h.outline]
  errors := h.errors

theorem Grows.refl (r : Resolution) : Grows r r := (Keeps.refl r).grows

theorem Grows.trans {r s t : Resolution} (h : Grows r s) (h' : Grows s t) : Grows r t where
  length := h'.length.trans h.length
  tail := h'.tail.trans h.tail
  names x hx := h'.names x (h.names x hx)
  unfinished x hx := h.unfinished x (h'.unfinished x hx)
  errors := h.errors.trans h'.errors

theorem Grows.unfinished_at {r r' : Resolution} (h : Grows r r') {d : Nat} {s : Bindings Bool}
    {x : String} (isOpen : r'.outline[d]? = some s) (unfinished : s.find? x = some false) :
    ∃ s', r.outline[d]? = some s' ∧ s'.find? x = some false := by
  have ⟨length, tail, _, same, _⟩ := h
  rw [top, top] at same
  cases outline : r.outline with
  | nil =>
    rw [outline] at length
    rw [List.eq_nil_of_length_eq_zero length] at isOpen
    cases isOpen
  | cons t ts =>
    rw [outline] at length tail same
    cases outline' : r'.outline with
    | nil => rw [outline'] at isOpen; cases isOpen
    | cons t' ts' =>
      rw [outline'] at isOpen tail same
      cases d with
      | zero =>
        cases isOpen
        exact ⟨t, rfl, same x unfinished⟩
      | succ d =>
        rw [List.tail_cons, List.tail_cons] at tail
        exact ⟨s, by rw [← tail]; exact isOpen, unfinished⟩

end Resolution

namespace Resolve

variable {α β : Type}

/-- A walk that leaves the open scopes as they are but for the use of names. -/
def Keeps (walk : Resolve α) : Prop := ∀ r, Resolution.Keeps r (walk r).2

/-- A walk that adds to the innermost scope at most. -/
def Grows (walk : Resolve α) : Prop := ∀ r, Resolution.Grows r (walk r).2

theorem Keeps.grows {walk : Resolve α} (h : Keeps walk) : Grows walk :=
  fun r => (h r).grows

theorem Keeps.pure (a : α) : Keeps (pure a : Resolve α) := fun r => .refl r

theorem Keeps.bind {walk : Resolve α} {next : α → Resolve β} (h : Keeps walk)
    (h' : ∀ a, Keeps (next a)) : Keeps (walk >>= next) :=
  fun r => (h r).trans (h' (walk r).1 (walk r).2)

theorem Grows.pure (a : α) : Grows (pure a : Resolve α) := fun r => .refl r

theorem Grows.bind {walk : Resolve α} {next : α → Resolve β} (h : Grows walk)
    (h' : ∀ a, Grows (next a)) : Grows (walk >>= next) :=
  fun r => (h r).trans (h' (walk r).1 (walk r).2)

theorem report_keeps (fault : ScopeFault) (token : Token) : Keeps (report fault token) :=
  fun _ => ⟨rfl, List.prefix_append _ _⟩

theorem locate_keeps (name : Token) : Keeps (locate name) := fun r => .refl r

theorem checkDefined_eq (name : Token) (r : Resolution) : checkDefined name r =
    if r.top.find? name.lexeme = some false then report .ownInitializer name r else ((), r) := by
  obtain ⟨scopes, errors, warnings⟩ := r
  cases scopes with
  | nil => rfl
  | cons s ss =>
    show _ = if s.outline.find? name.lexeme = some false then _ else _
    rw [Locals.find?_outline]
    simp only [checkDefined, bind, StateT.bind, get, getThe, MonadStateOf.get, StateT.get, pure]
    cases s.named? name.lexeme with
    | none => rfl
    | some l =>
      obtain ⟨n, line, defined, used, tracked⟩ := l
      cases defined <;> rfl

theorem checkDefined_keeps (name : Token) : Keeps (checkDefined name) := by
  intro r
  rw [checkDefined_eq]
  split
  · exact report_keeps _ _ r
  · exact .refl r

theorem checkReturn_keeps (body : Body) (keyword : Token) : Keeps (checkReturn body keyword) := by
  unfold checkReturn
  split
  · exact report_keeps _ _
  · exact .pure _

theorem checkReturnValue_keeps (body : Body) (keyword : Token) :
    Keeps (checkReturnValue body keyword) := by
  unfold checkReturnValue
  split
  · exact report_keeps _ _
  · exact .pure _

theorem outline_update_used (name : String) (ls : Locals) :
    (ls.update name fun l => { l with used := true }).outline = ls.outline := by
  simp only [Locals.outline, Locals.update, List.map_map]
  apply List.map_congr_left
  intro l _
  simp only [Function.comp]
  split <;> rfl

theorem locateRead_global {name : Token} {r : Resolution}
    (h : distance? name.lexeme r.scopes = none) : (locateRead name r).2 = r := by
  unfold locateRead locate
  simp only [bind, StateT.bind, get, getThe, MonadStateOf.get, StateT.get, pure, h]
  rfl

theorem locateRead_local {name : Token} {r : Resolution} {d : Nat}
    (h : distance? name.lexeme r.scopes = some d) : (locateRead name r).2 = { r with
      scopes := r.scopes.modify d (Locals.update name.lexeme fun l => { l with used := true }) } := by
  unfold locateRead locate
  simp only [bind, StateT.bind, get, getThe, MonadStateOf.get, StateT.get, pure, h]
  rfl

theorem locateRead_keeps (name : Token) : Keeps (locateRead name) := by
  intro r
  cases found : distance? name.lexeme r.scopes with
  | none =>
    rw [locateRead_global found]
    exact .refl r
  | some d =>
    rw [locateRead_local found]
    refine ⟨List.ext_getElem? fun i => ?_, List.prefix_rfl⟩
    simp only [Resolution.outline, List.getElem?_map, List.getElem?_modify]
    cases r.scopes[i]? with
    | none => rfl
    | some ls =>
      simp only [Option.map_some, Option.map_eq_map]
      split
      · rw [outline_update_used]
      · rfl

/-- The outline of a scope in which a name is declared. -/
def declareIn (name : String) (s : Bindings Bool) : Bindings Bool :=
  if s.binds name then s.mark name false else s ++ [(name, false)]

theorem find?_declareIn (name x : String) (s : Bindings Bool) :
    (declareIn name s).find? x = if name = x then some false else s.find? x := by
  unfold declareIn
  split
  · rename_i bound
    rw [Bindings.find?_mark]
    split
    · rename_i same
      subst same
      obtain ⟨b, found⟩ := Option.isSome_iff_exists.mp bound
      rw [found]
      rfl
    · rfl
  · rename_i free
    rw [Bindings.find?_append]
    by_cases same : name = x
    · subst same
      have none := Option.not_isSome_iff_eq_none.mp free
      simp [none, Bindings.find?]
    · simp [same, Bindings.find?]

theorem outline_declare (name : Token) (tracked : Bool) (r : Resolution) :
    (declare name tracked r).2.outline = match r.outline with
      | [] => []
      | s :: ss => declareIn name.lexeme s :: ss := by
  obtain ⟨scopes, errors, warnings⟩ := r
  cases scopes with
  | nil => rfl
  | cons ls outer =>
    show (if ls.binds name.lexeme then _ else _ : Resolution).outline = _
    simp only [Resolution.outline, List.map_cons, declareIn, Locals.binds_outline]
    split
    · rw [List.map_cons, Locals.outline_update]
    · simp [Locals.outline]

theorem length_declare (name : Token) (tracked : Bool) (r : Resolution) :
    (declare name tracked r).2.outline.length = r.outline.length := by
  rw [outline_declare]
  split
  · rename_i outline
    rw [outline]
  · rename_i outline
    rw [outline]
    rfl

theorem errors_declare (name : Token) (tracked : Bool) (r : Resolution) :
    r.errors <+: (declare name tracked r).2.errors := by
  obtain ⟨scopes, errors, warnings⟩ := r
  cases scopes with
  | nil => exact List.prefix_rfl
  | cons ls outer =>
    show errors <+: (if ls.binds name.lexeme then _ else _ : Resolution).errors
    split
    · exact List.prefix_append _ _
    · exact List.prefix_rfl

theorem outline_define (name : Token) (r : Resolution) :
    (define name r).2.outline = match r.outline with
      | [] => []
      | s :: ss => s.mark name.lexeme true :: ss := by
  obtain ⟨scopes, errors, warnings⟩ := r
  cases scopes with
  | nil => rfl
  | cons ls outer =>
    show Resolution.outline ⟨_ :: outer, errors, warnings⟩ = _
    simp only [Resolution.outline, List.map_cons]
    rw [Locals.outline_update]

theorem errors_define (name : Token) (r : Resolution) : (define name r).2.errors = r.errors := by
  obtain ⟨scopes, errors, warnings⟩ := r
  cases scopes <;> rfl

theorem define_grows (name : Token) : Grows (define name) := by
  intro r
  have defined := outline_define name r
  cases hr : r.outline with
  | nil =>
    rw [hr] at defined
    exact Resolution.Keeps.grows ⟨defined.trans hr.symm, (errors_define name r).symm ▸ List.prefix_rfl⟩
  | cons s ss =>
    rw [hr] at defined
    constructor
    · simp [defined, hr]
    · simp [defined, hr]
    · intro x hx
      rw [Resolution.top, hr] at hx
      rw [Resolution.top, defined, List.headD_cons, Bindings.find?_mark]
      split
      · simpa using hx
      · exact hx
    · intro x hx
      rw [Resolution.top, defined, List.headD_cons, Bindings.find?_mark] at hx
      rw [Resolution.top, hr]
      split at hx
      · simp at hx
      · exact hx
    · exact (errors_define name r).symm ▸ List.prefix_rfl

/-- The outlines of the open scopes when the declaration of a name in the innermost one is done. -/
def introduce (name : String) : List (Bindings Bool) → List (Bindings Bool)
  | [] => []
  | s :: ss => (declareIn name s).mark name true :: ss

theorem outline_declared (name : Token) (tracked : Bool) {walk : Resolve α} (h : Keeps walk)
    (r : Resolution) : (define name (walk (declare name tracked r).2).2).2.outline =
      introduce name.lexeme r.outline := by
  have declared := outline_declare name tracked r
  have defined := outline_define name (walk (declare name tracked r).2).2
  rw [(h _).outline, declared] at defined
  rw [defined]
  cases r.outline <;> rfl

theorem length_introduce (name : String) (ss : List (Bindings Bool)) :
    (introduce name ss).length = ss.length := by
  cases ss <;> rfl

theorem tail_introduce (name : String) (ss : List (Bindings Bool)) :
    (introduce name ss).tail = ss.tail := by
  cases ss <;> rfl

theorem find?_introduce (name x : String) {ss : List (Bindings Bool)} (open_ : ss ≠ []) :
    ((introduce name ss).headD []).find? x =
      if name = x then some true else (ss.headD []).find? x := by
  cases ss with
  | nil => exact (open_ rfl).elim
  | cons s ss =>
    show ((declareIn name s).mark name true).find? x = _
    rw [Bindings.find?_mark, find?_declareIn]
    split <;> rfl

/-- A declaration and what is between its two ends add to the innermost scope. -/
theorem declared_grows (name : Token) (tracked : Bool) {walk : Resolve α} (h : Keeps walk)
    (r : Resolution) :
    Resolution.Grows r (define name (walk (declare name tracked r).2).2).2 := by
  have outline := outline_declared name tracked h r
  have errors : r.errors <+: (define name (walk (declare name tracked r).2).2).2.errors := by
    rw [errors_define]
    exact (errors_declare name tracked r).trans (h _).errors
  by_cases none : r.outline = []
  · rw [none] at outline
    exact Resolution.Keeps.grows ⟨outline.trans none.symm, errors⟩
  have found := fun x => find?_introduce name.lexeme x none
  rw [← outline] at found
  refine ⟨?_, ?_, fun x hx => ?_, fun x hx => ?_, errors⟩
  · rw [outline, length_introduce]
  · rw [outline, tail_introduce]
  · rw [Resolution.top, found]
    split
    · rfl
    · exact hx
  · rw [Resolution.top, found] at hx
    split at hx
    · cases hx
    · exact hx

theorem outline_closeScope (r : Resolution) : (closeScope r).2.outline = r.outline.tail := by
  obtain ⟨scopes, errors, warnings⟩ := r
  cases scopes <;> rfl

theorem errors_closeScope (r : Resolution) : (closeScope r).2.errors = r.errors := by
  obtain ⟨scopes, errors, warnings⟩ := r
  cases scopes <;> rfl

/-- What happens in a scope of its own leaves the scopes around it as they are. -/
theorem scoped_keeps (ls : Locals) {walk : Resolve α} (h : Grows walk) (r : Resolution) :
    Resolution.Keeps r (closeScope (walk (openScope ls r).2).2).2 where
  outline := by
    rw [outline_closeScope, (h _).tail]
    rfl
  errors := by
    rw [errors_closeScope]
    exact (h (openScope ls r).2).errors

theorem declareParams_grows : ∀ params : List Token, Grows (declareParams params)
  | [] => .pure ()
  | p :: ps => fun r =>
    (declared_grows p false (Keeps.pure ()) r).trans (declareParams_grows ps _)

mutual

/-- An expression leaves the open scopes as they are but for the use of names. -/
theorem expression_keeps (place : Surroundings) : ∀ e : Expr, Keeps (expression place e)
  | .literal _ => .pure _
  | .group inner => (expression_keeps place inner).bind fun _ => .pure _
  | .unary _ right => (expression_keeps place right).bind fun _ => .pure _
  | .binary left _ right =>
    (expression_keeps place left).bind fun _ => (expression_keeps place right).bind fun _ => .pure _
  | .logical left _ right =>
    (expression_keeps place left).bind fun _ => (expression_keeps place right).bind fun _ => .pure _
  | .ternary condition whenTrue whenFalse =>
    (expression_keeps place condition).bind fun _ =>
      (expression_keeps place whenTrue).bind fun _ =>
        (expression_keeps place whenFalse).bind fun _ => .pure _
  | .variable name _ =>
    (checkDefined_keeps name).bind fun _ => (locateRead_keeps name).bind fun _ => .pure _
  | .this keyword depth => by
    unfold expression
    split
    · exact (report_keeps _ _).bind fun _ => .pure _
    · exact (report_keeps _ _).bind fun _ => .pure _
    · exact (locate_keeps _).bind fun _ => .pure _
  | .assign name value _ =>
    (expression_keeps place value).bind fun _ => (locate_keeps name).bind fun _ => .pure _
  | .call callee _ arguments =>
    (expression_keeps place callee).bind fun _ =>
      (expressions_keeps place arguments).bind fun _ => .pure _
  | .property object _ => (expression_keeps place object).bind fun _ => .pure _
  | .setProperty object _ value =>
    (expression_keeps place value).bind fun _ =>
      (expression_keeps place object).bind fun _ => .pure _
  | .lambda code => (function_keeps ⟨.function, place.receiver⟩ code).bind fun _ => .pure _

theorem expressions_keeps (place : Surroundings) : ∀ es : List Expr, Keeps (expressions place es)
  | [] => .pure _
  | e :: es =>
    (expression_keeps place e).bind fun _ => (expressions_keeps place es).bind fun _ => .pure _

/-- A statement adds to the innermost scope at most. -/
theorem statement_grows (place : Surroundings) : ∀ s : Stmt, Grows (statement place s)
  | .expression value => ((expression_keeps place value).bind fun _ => .pure _).grows
  | .print value => ((expression_keeps place value).bind fun _ => .pure _).grows
  | .declare d => (declarator_grows place d).bind fun _ => .pure _
  | .declareAll ds => (declarators_grows place ds).bind fun _ => .pure _
  | .block body => fun r => (scoped_keeps [] (statements_grows place body) r).grows
  | .conditional condition whenTrue none =>
    (expression_keeps place condition).grows.bind fun _ =>
      (statement_grows place whenTrue).bind fun _ => .pure _
  | .conditional condition whenTrue (some whenFalse) =>
    (expression_keeps place condition).grows.bind fun _ =>
      (statement_grows place whenTrue).bind fun _ =>
        (statement_grows place whenFalse).bind fun _ => .pure _
  | .loop condition body =>
    (expression_keeps place condition).grows.bind fun _ =>
      (statement_grows place body).bind fun _ => .pure _
  | .declareFunction code => fun r =>
    (declared_grows code.name false (Keeps.pure ()) r).trans
      (function_keeps ⟨.function, place.receiver⟩ code _).grows
  | .returns keyword none => ((checkReturn_keeps place.body keyword).bind fun _ => .pure _).grows
  | .returns keyword (some value) =>
    ((checkReturn_keeps place.body keyword).bind fun _ =>
      (checkReturnValue_keeps place.body keyword).bind fun _ =>
        (expression_keeps place value).bind fun _ => .pure _).grows
  | .declareClass name ms ss => fun r =>
    (declared_grows name false (Keeps.pure ()) r).trans
      (scoped_keeps _ ((methods_keeps ms).grows.bind fun _ => (statics_keeps ss).grows) _).grows

theorem statements_grows (place : Surroundings) : ∀ ss : List Stmt, Grows (statements place ss)
  | [] => .pure _
  | s :: ss =>
    (statement_grows place s).bind fun _ => (statements_grows place ss).bind fun _ => .pure _

theorem declarator_grows (place : Surroundings) : ∀ d : Declarator, Grows (declarator place d)
  | ⟨name, none⟩ => declared_grows name true (Keeps.pure ())
  | ⟨name, some initial⟩ => declared_grows name true (expression_keeps place initial)

theorem declarators_grows (place : Surroundings) :
    ∀ ds : List Declarator, Grows (declarators place ds)
  | [] => .pure _
  | d :: ds =>
    (declarator_grows place d).bind fun _ => (declarators_grows place ds).bind fun _ => .pure _

/-- A function leaves the scopes around it as they are but for the use of names. -/
theorem function_keeps (place : Surroundings) : ∀ f : Function, Keeps (function place f)
  | ⟨_, params, body⟩ => fun r =>
    scoped_keeps [] ((declareParams_grows params).bind fun _ => statements_grows place body) r

theorem methods_keeps : ∀ fs : List Function, Keeps (methods fs)
  | [] => .pure _
  | f :: fs => (function_keeps _ f).bind fun _ => (methods_keeps fs).bind fun _ => .pure _

theorem statics_keeps : ∀ fs : List Function, Keeps (statics fs)
  | [] => .pure _
  | f :: fs => (function_keeps _ f).bind fun _ => (statics_keeps fs).bind fun _ => .pure _

end

/-- The walk over statements goes on where that over the first ones stopped. -/
theorem statements_append (place : Surroundings) (more : List Stmt) :
    ∀ (ss : List Stmt) (r : Resolution), statements place (ss ++ more) r =
      ((statements place ss r).1 ++ (statements place more (statements place ss r).2).1,
        (statements place more (statements place ss r).2).2)
  | [], _ => rfl
  | s :: ss, r => by
    have rest := statements_append place more ss (statement place s r).2
    show (_ :: (statements place (ss ++ more) (statement place s r).2).1,
      (statements place (ss ++ more) (statement place s r).2).2) = _
    rw [rest]
    rfl

end Resolve

end LoxLang
