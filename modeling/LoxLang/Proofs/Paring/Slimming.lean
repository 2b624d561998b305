import LoxLang.Proofs.Paring.Trees
import LoxLang.Proofs.Resolution.Unused
/-!
Walks over a program and over the one without a variable. The second walk opens and closes the same
scopes, but in the scope of the variable, once it has been declared, it lacks it (`Lacking`); and it
lacks its warning once the scope was closed (`Slim`).

What is proved: the second walk finds other names where the first one does (`Lacking.distance?`), and
each step finds the same faults and unused names in both, but for the variable (`Resolution.Lacks.read`
and its siblings). `Resolve.Pares` says so of whole walks, and is closed under the ways they are put
together.
-/
namespace LoxLang

/-! Warnings -/

/-- The second warnings are the first ones without so many of this one. -/
inductive Slim (w : Warning) : Nat → List Warning → List Warning → Prop
  | nil : Slim w 0 [] []
  | keep {n ws ws'} (u : Warning) : Slim w n ws ws' → Slim w n (u :: ws) (u :: ws')
  | drop {n ws ws'} : Slim w n ws ws' → Slim w (n + 1) (w :: ws) ws'

namespace Slim

variable {w : Warning} {n k : Nat} {ws ws' us us' : List Warning}

theorem refl (w : Warning) : ∀ ws : List Warning, Slim w 0 ws ws
  | [] => .nil
  | u :: ws => .keep u (refl w ws)

theorem append (h : Slim w n ws ws') (h' : Slim w k us us') :
    Slim w (n + k) (ws ++ us) (ws' ++ us') := by
  induction h with
  | nil => rwa [Nat.zero_add]
  | keep u _ ih => exact .keep u ih
  | drop _ ih =>
    rw [Nat.add_right_comm]
    exact .drop ih

theorem eq_of_zero (h : Slim w 0 ws ws') : ws' = ws := by
  generalize same : 0 = n at h
  induction h with
  | nil => rfl
  | keep u _ ih => exact congrArg _ (ih same)
  | drop => cases same

theorem split_of_one (h : Slim w 1 ws ws') :
    ∃ before after, ws = before ++ w :: after ∧ ws' = before ++ after := by
  generalize same : 1 = n at h
  induction h with
  | nil => cases same
  | keep u _ ih =>
    obtain ⟨before, after, rfl, rfl⟩ := ih same
    exact ⟨u :: before, after, rfl, rfl⟩
  | @drop n ws ws' rest =>
    cases same
    exact ⟨[], ws, rfl, rest.eq_of_zero⟩

end Slim

/-! Scopes -/

/-- Whether an open scope is that of the variable, and whether this was declared there yet. -/
inductive Phase where
  | other | ahead | behind
  deriving DecidableEq

/-- The scope of the variable is marked. -/
def Phase.mark : Phase → Bool
  | other => false
  | _ => true

namespace Locals

variable {x y : String} {a b ls : Locals} {l : Local}

theorem binds_append : binds x (a ++ b) = (a.binds x || b.binds x) := List.any_append

theorem binds_around (other : l.name ≠ x) : binds x (a ++ l :: b) = binds x (a ++ b) := by
  rw [binds_append, binds_append, binds, binds, binds, List.any_cons, beq_false_of_ne other,
    Bool.false_or]

theorem named?_around (other : l.name ≠ x) : named? x (a ++ l :: b) = named? x (a ++ b) := by
  rw [named?, named?, List.find?_append, List.find?_append, List.find?_cons,
    beq_false_of_ne other]

theorem binds_update {f : Local → Local} (same : ∀ l, (f l).name = l.name) :
    (ls.update y f).binds x = ls.binds x := by
  have name (l : Local) : (if l.name == y then f l else l).name = l.name := by
    split
    · exact same l
    · rfl
  simp only [update, binds, List.any_map, Function.comp_def, name]

theorem update_append {f : Local → Local} :
    update y f (a ++ b) = a.update y f ++ b.update y f := List.map_append

theorem update_cons {f : Local → Local} :
    update y f (l :: b) = (if l.name == y then f l else l) :: b.update y f := rfl

theorem update_around {f : Local → Local} (other : l.name ≠ y) :
    update y f (a ++ l :: b) = a.update y f ++ l :: b.update y f := by
  rw [update_append, update_cons, if_neg (by simpa using other)]

theorem unused_append : unused (a ++ b) = a.unused ++ b.unused := by
  rw [unused, List.filter_append, List.map_append]
  rfl

end Locals

namespace Resolve

variable {y : String} {ls : Locals} {ss : List Locals}

theorem distance?_cons : distance? y (ls :: ss) =
    if ls.binds y then some 0 else (distance? y ss).map (· + 1) := List.findIdx?_cons

theorem of_distance?_cons {d : Nat} (found : distance? y (ls :: ss) = some d) :
    (d = 0 ∧ ls.binds y = true) ∨ ∃ i, d = i + 1 ∧ ls.binds y = false ∧ distance? y ss = some i := by
  rw [distance?_cons] at found
  cases here : ls.binds y with
  | true =>
    rw [here] at found
    cases found
    exact .inl ⟨rfl, rfl⟩
  | false =>
    rw [here] at found
    obtain ⟨i, further, rfl⟩ := Option.map_eq_some_iff.mp found
    exact .inr ⟨i, rfl, rfl, further⟩

end Resolve

namespace Locals

/-- A scope, and the same one without the variable: this was declared in it, for the first time and
without being used, if it is behind. -/
inductive Lacks (w : Warning) : Phase → Locals → Locals → Prop
  | other (ls : Locals) : Lacks w .other ls ls
  | ahead {ls : Locals} : ls.binds w.name = false → Lacks w .ahead ls ls
  | behind {a b : Locals} (defined : Bool) : a.binds w.name = false → b.binds w.name = false →
    Lacks w .behind (a ++ ⟨w.name, w.line, defined, false, true⟩ :: b) (a ++ b)

namespace Lacks

variable {w : Warning} {p : Phase} {ls ls' : Locals} {y : String}

theorem binds (h : Lacks w p ls ls') (apart : p = .behind → w.name ≠ y) :
    ls'.binds y = ls.binds y := by
  cases h with
  | behind defined => exact (binds_around (apart rfl)).symm
  | _ => rfl

theorem named? (h : Lacks w p ls ls') (apart : p = .behind → w.name ≠ y) :
    ls'.named? y = ls.named? y := by
  cases h with
  | behind defined => exact (named?_around (apart rfl)).symm
  | _ => rfl

theorem binds_behind (h : Lacks w .behind ls ls') : ls.binds w.name = true := by
  cases h with
  | behind defined => simp [Locals.binds]

theorem update (h : Lacks w p ls ls') (apart : p = .behind → w.name ≠ y) {f : Local → Local}
    (same : ∀ l, (f l).name = l.name) : Lacks w p (ls.update y f) (ls'.update y f) := by
  cases h with
  | other ls => exact .other _
  | ahead absent => exact .ahead ((binds_update same).trans absent)
  | behind defined before after =>
    rw [update_around (apart rfl), update_append]
    exact .behind defined ((binds_update same).trans before) ((binds_update same).trans after)

theorem add (h : Lacks w p ls ls') {l : Local} (apart : p.mark = true → l.name ≠ w.name) :
    Lacks w p (ls ++ [l]) (ls' ++ [l]) := by
  have alone (other : l.name ≠ w.name) : Locals.binds w.name [l] = false := by
    simp [Locals.binds, other]
  cases h with
  | other ls => exact .other _
  | ahead absent => exact .ahead (by rw [binds_append, absent, alone (apart rfl)]; rfl)
  | behind defined before after =>
    rw [List.append_assoc, List.append_assoc, List.cons_append]
    exact .behind defined before (by rw [binds_append, after, alone (apart rfl)]; rfl)

theorem declared (h : Lacks w .ahead ls ls') :
    Lacks w .behind (ls ++ [⟨w.name, w.line, false, false, true⟩]) ls' := by
  cases h with
  | ahead absent =>
    have new : Lacks w .behind (ls ++ ⟨w.name, w.line, false, false, true⟩ :: []) (ls ++ []) :=
      .behind false absent rfl
    rwa [List.append_nil] at new

/-- The declaration of the variable is completed in the first one only. -/
theorem completed (h : Lacks w .behind ls ls') :
    Lacks w .behind (ls.update w.name fun l => { l with defined := true }) ls' := by
  have still {a : Locals} (absent : a.binds w.name = false) :
      (a.update w.name fun l => { l with defined := true }) = a := by
    refine (List.map_congr_left fun l mem => if_neg fun same => ?_).trans (List.map_id _)
    exact Bool.eq_false_iff.mp absent (List.any_eq_true.mpr ⟨l, mem, same⟩)
  cases h with
  | behind defined before after =>
    rw [update_append, update_cons, still before, still after, if_pos (beq_self_eq_true _)]
    exact .behind true before after

end Lacks

end Locals

/-- Open scopes, and the same ones without the variable. -/
inductive Lacking (w : Warning) : List Phase → List Locals → List Locals → Prop
  | nil : Lacking w [] [] []
  | cons {p ps ls ls' ss ss'} : Locals.Lacks w p ls ls' → Lacking w ps ss ss' →
    Lacking w (p :: ps) (ls :: ss) (ls' :: ss')

/-- A name is not that of the variable where it belongs to a marked scope. -/
def Phase.Spare (ps : List Phase) (x : String) (scopes : List Locals) (y : String) : Prop :=
  ∀ d, Resolve.distance? y scopes = some d → (ps.map Phase.mark).getD d false = true → y ≠ x

namespace Lacking

variable {w : Warning} {p : Phase} {ps : List Phase} {ls ls' : Locals} {ss ss' : List Locals}
  {y : String}

/-- A name that is no name of the innermost scope belongs to one further out. -/
theorem spare_tail (spare : Phase.Spare (p :: ps) w.name (ls :: ss) y) (outer : ls.binds y = false) :
    Phase.Spare ps w.name ss y := by
  intro d found
  refine spare (d + 1) ?_
  rw [Resolve.distance?_cons, outer, found]
  rfl

/-- Where the variable has been declared, another name is meant. -/
theorem ne_behind (first : Locals.Lacks w p ls ls')
    (spare : Phase.Spare (p :: ps) w.name (ls :: ss) y) (behind : p = .behind) : w.name ≠ y := by
  subst behind
  rintro rfl
  refine spare 0 ?_ rfl rfl
  rw [Resolve.distance?_cons, first.binds_behind]
  rfl

theorem distance? (h : Lacking w ps ss ss') (spare : Phase.Spare ps w.name ss y) :
    Resolve.distance? y ss' = Resolve.distance? y ss := by
  induction h with
  | nil => rfl
  | cons first _ ih =>
    rw [Resolve.distance?_cons, Resolve.distance?_cons, first.binds (ne_behind first spare)]
    split
    · rfl
    · rename_i outer
      rw [ih (spare_tail spare (Bool.eq_false_iff.mpr outer))]

theorem read (h : Lacking w ps ss ss') {d : Nat} (found : Resolve.distance? y ss = some d)
    (spare : Phase.Spare ps w.name ss y) :
    Lacking w ps (ss.modify d (Locals.update y fun l => { l with used := true }))
      (ss'.modify d (Locals.update y fun l => { l with used := true })) := by
  induction h generalizing d with
  | nil => cases found
  | cons first rest ih =>
    obtain ⟨rfl, _⟩ | ⟨i, rfl, outer, found⟩ := Resolve.of_distance?_cons found
    · exact .cons (first.update (ne_behind first spare) fun _ => rfl) rest
    · exact .cons first (ih found (spare_tail spare outer))

end Lacking

/-! Steps -/

namespace Resolution

/-- The second walk lacks the variable in open scopes, and so many of its warnings. -/
structure Lacks (w : Warning) (ps : List Phase) (n : Nat) (r r' : Resolution) : Prop where
  scopes : Lacking w ps r.scopes r'.scopes
  errors : r'.errors = r.errors
  warnings : Slim w n r.warnings r'.warnings

namespace Lacks

variable {w : Warning} {p : Phase} {ps : List Phase} {n k : Nat} {r r' : Resolution} {name : Token}

theorem empty : Lacks w [] 0 .empty .empty := ⟨.nil, rfl, .refl w []⟩

theorem report (h : Lacks w ps n r r') (fault : ScopeFault) (token : Token) :
    Lacks w ps n (Resolve.report fault token r).2 (Resolve.report fault token r').2 :=
  ⟨h.scopes, congrArg (fun errors => errors ++ [ScopeError.mk fault token]) h.errors, h.warnings⟩

theorem openScope (h : Lacks w ps n r r') {ls : Locals} (first : Locals.Lacks w p ls ls) :
    Lacks w (p :: ps) n (Resolve.openScope ls r).2 (Resolve.openScope ls r').2 :=
  ⟨.cons first h.scopes, h.errors, h.warnings⟩

/-- The scope of the variable is closed with a warning of it, in the first walk only. -/
theorem closeScope (h : Lacks w (p :: ps) n r r') (declared : p ≠ .ahead) :
    Lacks w ps (n + if p.mark then 1 else 0) (Resolve.closeScope r).2 (Resolve.closeScope r').2 := by
  obtain ⟨scopes, errors, warnings⟩ := r
  obtain ⟨scopes', errors', warnings'⟩ := r'
  obtain ⟨lacking, sameErrors, slim⟩ := h
  cases lacking with
  | cons first rest =>
    refine ⟨rest, sameErrors, slim.append ?_⟩
    cases first with
    | other ls => exact .refl w _
    | ahead => exact absurd rfl declared
    | @behind a b defined =>
      rw [Locals.unused_append, Locals.unused_append]
      have one := (Slim.refl w a.unused).append (.drop (Slim.refl w b.unused))
      rwa [Nat.zero_add] at one

theorem declare (h : Lacks w ps n r r') (tracked : Bool)
    (apart : name.Spares w.name ((ps.map Phase.mark).headD false)) :
    Lacks w ps n (Resolve.declare name tracked r).2 (Resolve.declare name tracked r').2 := by
  obtain ⟨scopes, errors, warnings⟩ := r
  obtain ⟨scopes', errors', warnings'⟩ := r'
  obtain ⟨lacking, sameErrors, slim⟩ := h
  cases lacking with
  | nil => exact ⟨.nil, sameErrors, slim⟩
  | @cons p ps ls ls' ss ss' first rest =>
    have other (behind : p = .behind) : w.name ≠ name.lexeme := by
      subst behind
      exact (apart rfl).symm
    show Lacks _ _ _ (if ls.binds name.lexeme then _ else _ : Resolution)
      (if ls'.binds name.lexeme then _ else _ : Resolution)
    rw [first.binds other]
    split
    · exact ⟨.cons (first.update other fun _ => rfl) rest,
        congrArg (· ++ [⟨.redeclared, name⟩]) sameErrors, slim⟩
    · exact ⟨.cons (first.add apart) rest, sameErrors, slim⟩

theorem define (h : Lacks w ps n r r')
    (apart : name.Spares w.name ((ps.map Phase.mark).headD false)) :
    Lacks w ps n (Resolve.define name r).2 (Resolve.define name r').2 := by
  obtain ⟨scopes, errors, warnings⟩ := r
  obtain ⟨scopes', errors', warnings'⟩ := r'
  obtain ⟨lacking, sameErrors, slim⟩ := h
  cases lacking with
  | nil => exact ⟨.nil, sameErrors, slim⟩
  | @cons p ps ls ls' ss ss' first rest =>
    have other (behind : p = .behind) : w.name ≠ name.lexeme := by
      subst behind
      exact (apart rfl).symm
    exact ⟨.cons (first.update other fun _ => rfl) rest, sameErrors, slim⟩

theorem declareLeft (h : Lacks w (.ahead :: ps) n r r') (same : name.lexeme = w.name)
    (line : name.line = w.line) :
    Lacks w (.behind :: ps) n (Resolve.declare name true r).2 r' := by
  obtain ⟨scopes, errors, warnings⟩ := r
  obtain ⟨scopes', errors', warnings'⟩ := r'
  obtain ⟨lacking, sameErrors, slim⟩ := h
  cases lacking with
  | @cons _ _ ls _ _ _ first rest =>
    have absent : ls.binds w.name = false := by
      cases first with
      | ahead absent => exact absent
    show Lacks _ _ _ (if ls.binds name.lexeme then _ else _ : Resolution) _
    rw [same, absent, line]
    exact ⟨.cons first.declared rest, sameErrors, slim⟩

/-- The declaration of the variable is completed in the first walk only. -/
theorem defineLeft (h : Lacks w (.behind :: ps) n r r') (same : name.lexeme = w.name) :
    Lacks w (.behind :: ps) n (Resolve.define name r).2 r' := by
  obtain ⟨scopes, errors, warnings⟩ := r
  obtain ⟨scopes', errors', warnings'⟩ := r'
  obtain ⟨lacking, sameErrors, slim⟩ := h
  cases lacking with
  | cons first rest =>
    refine ⟨.cons ?_ rest, sameErrors, slim⟩
    rw [same]
    exact first.completed

theorem checkDefined (h : Lacks w ps n r r')
    (spare : Phase.Spare ps w.name r.scopes name.lexeme) :
    Lacks w ps n (Resolve.checkDefined name r).2 (Resolve.checkDefined name r').2 := by
  have same : r'.top.find? name.lexeme = r.top.find? name.lexeme := by
    rw [top_eq, top_eq, Locals.find?_outline, Locals.find?_outline]
    obtain ⟨lacking, _, _⟩ := h
    generalize r.scopes = ss, r'.scopes = ss' at lacking spare
    cases lacking with
    | nil => rfl
    | cons first rest => exact congrArg _ (first.named? (Lacking.ne_behind first spare))
  rw [Resolve.checkDefined_eq, Resolve.checkDefined_eq, same]
  split
  · exact h.report _ _
  · exact h

theorem locateRead (h : Lacks w ps n r r')
    (spare : Phase.Spare ps w.name r.scopes name.lexeme) :
    Lacks w ps n (Resolve.locateRead name r).2 (Resolve.locateRead name r').2 := by
  have same := h.scopes.distance? spare
  cases found : Resolve.distance? name.lexeme r.scopes with
  | none =>
    rw [Resolve.locateRead_global found, Resolve.locateRead_global (same.trans found)]
    exact h
  | some d =>
    rw [Resolve.locateRead_local found, Resolve.locateRead_local (same.trans found)]
    exact ⟨h.scopes.read found spare, h.errors, h.warnings⟩

end Lacks

end Resolution

/-! Walks side by side -/

namespace Resolve

open Resolution

variable {α α' β β' : Type} {w : Warning} {ps ps₁ ps₂ : List Phase} {n k : Nat} {r : Resolution}
  {Q : α → α' → Prop} {Q' : β → β' → Prop} {walk : Resolve α} {walk' : Resolve α'}

/-- From here on, walks that lack the variable go on to lack it, and so many more of its warnings, and
make something of which something is known. -/
def Pares (w : Warning) (ps ps₁ : List Phase) (n : Nat) (Q : α → α' → Prop) (walk : Resolve α)
    (walk' : Resolve α') (r : Resolution) : Prop :=
  ∀ k r', Lacks w ps k r r' →
    Lacks w ps₁ (k + n) (walk r).2 (walk' r').2 ∧ Q (walk r).1 (walk' r').1

namespace Pares

theorem pure {a : α} {a' : α'} (q : Q a a') :
    Pares w ps ps 0 Q (Pure.pure a) (Pure.pure a') r := fun _ _ h => ⟨h, q⟩

theorem bind {next : α → Resolve β} {next' : α' → Resolve β'}
    (h : Pares w ps ps₁ n Q walk walk' r)
    (h' : ∀ a a', Q a a' → Pares w ps₁ ps₂ k Q' (next a) (next' a') (walk r).2) :
    Pares w ps ps₂ (n + k) Q' (walk >>= next) (walk' >>= next') r := by
  intro m r' lacks
  obtain ⟨lacks₁, q⟩ := h m r' lacks
  rw [← Nat.add_assoc]
  exact h' _ _ q _ _ lacks₁

theorem after {next : α → Resolve β} {next' : α' → Resolve β'}
    (first : ∀ k r', Lacks w ps k r r' → Lacks w ps₁ k (walk r).2 (walk' r').2)
    (h : ∀ a a', Pares w ps₁ ps₂ n Q' (next a) (next' a') (walk r).2) :
    Pares w ps ps₂ n Q' (walk >>= next) (walk' >>= next') r :=
  fun k r' lacks => h _ _ k _ (first k r' lacks)

theorem enclosed {p p' : Phase} {ls : Locals} {f : α → β} {f' : α' → β'}
    (h : Pares w (p :: ps) (p' :: ps) n Q walk walk' (openScope ls r).2)
    (first : Locals.Lacks w p ls ls) (declared : p' ≠ .ahead)
    (q : ∀ a a', Q a a' → Q' (f a) (f' a')) :
    Pares w ps ps (n + if p'.mark then 1 else 0) Q'
      (openScope ls >>= fun _ => walk >>= fun a => closeScope >>= fun _ => Pure.pure (f a))
      (openScope ls >>= fun _ => walk' >>= fun a => closeScope >>= fun _ => Pure.pure (f' a)) r := by
  intro k r' lacks
  obtain ⟨inside, made⟩ := h k _ (lacks.openScope first)
  rw [← Nat.add_assoc]
  exact ⟨inside.closeScope declared, q _ _ made⟩

end Pares

end Resolve

end LoxLang
