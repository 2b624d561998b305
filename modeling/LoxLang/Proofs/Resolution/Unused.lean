import LoxLang.Proofs.Resolution.Closings
import LoxLang.Proofs.Resolution.Faults
/-!
Variables that are never read. Which scope a name that is read belongs to is told by the way that leads to
it (`resolvesTo`), and so is what a scope declares, in order (`declaredAt`). A scope is left with a warning
for each variable whose declaration is the first of its name there, if no place in the program reads it
(`unusedAt`).

What is proved:
1. a tally of what is declared in the open scopes, and of what is read there, describes what the walk knows
   of them (`Tally.Describes`), step by step (`Tallies`) and over the whole walk;
2. the warnings of the walk are those of all scopes, in the order in which these are closed
   (`unused_exact`).
-/
namespace LoxLang

/-! What is declared and what is read -/

/-- A name that a scope declares. -/
structure Declared where
  name : String
  line : Nat
  /-- It is a variable. Parameters, functions, classes and `this` are not. -/
  tracked : Bool
  deriving DecidableEq

def Declarator.declared (d : Declarator) : Declared := ⟨d.name.lexeme, d.name.line, true⟩

/-- What is declared in the scope a statement stands in. -/
def Stmt.declared : Stmt → List Declared
  | .declare d => [d.declared]
  | .declareAll ds => ds.map Declarator.declared
  | .declareFunction code => [⟨code.name.lexeme, code.name.line, false⟩]
  | .declareClass name _ _ => [⟨name.lexeme, name.line, false⟩]
  | _ => []

theorem Stmt.declared_eq_nil {s : Stmt} (plain : s.isDeclaration = false) : s.declared = [] := by
  cases s <;> first | rfl | cases plain

def Token.declaredParams (params : List Token) : List Declared :=
  params.map fun p => ⟨p.lexeme, p.line, false⟩

/-- What is declared in the scope that a part opens, in order. -/
def Part.declared : Part → List Declared
  | .statement (.block body) => body.flatMap Stmt.declared
  | .statement (.declareClass name _ _) => [⟨Keyword.this.word, name.line, false⟩]
  | .function ⟨_, params, body⟩ => Token.declaredParams params ++ body.flatMap Stmt.declared
  | _ => []

/-- The first declarations of their names. -/
def firsts : List Declared → List Declared
  | [] => []
  | d :: ds => d :: (firsts ds).filter fun e => e.name != d.name

/-- The scope that a name at a place belongs to, told by its opener; none if the name is global. -/
def resolvesTo (program : List Stmt) (way : List Nat) (x : String) : Option (List Nat) :=
  ((scopesAt program way).findIdx? (Scope.declares x)).bind fun d => (openersAt program way)[d]?

def Part.readsName : Part → Bool
  | .expression (.variable ..) => true
  | _ => false

/-- The name that is read at a place and the scope it belongs to. -/
def readAt (program : List Stmt) (way : List Nat) : Option (List Nat × String) :=
  match partAt program way with
  | .expression (.variable name _) =>
    (resolvesTo program way name.lexeme).map fun o => (o, name.lexeme)
  | _ => none

/-- What is read at places in the part that a way leads to. -/
def readsIn (program : List Stmt) (way : List Nat) (ways : List (List Nat)) :
    List (List Nat × String) :=
  ways.filterMap fun w => readAt program (w ++ way)

def readsOf (program : List Stmt) : List (List Nat × String) :=
  readsIn program [] (Stmt.placesAll program)

/-- The variables among the first declarations that are not read. -/
def unread (reads : List String) (ds : List Declared) : List Warning :=
  (ds.filter fun d => d.tracked && !reads.contains d.name).map fun d => ⟨d.name, d.line⟩

/-- What is read of the scope with this opener. -/
def readFrom (o : List Nat) (reads : List (List Nat × String)) : List String :=
  (reads.filter fun r => r.1 == o).map (·.2)

/-- The variables of a scope that nothing in the program reads. -/
def unusedAt (program : List Stmt) (o : List Nat) : List Warning :=
  unread (readFrom o (readsOf program)) (firsts (partAt program o).declared)

/-! Tallies -/

/-- What is declared in an open scope so far, and what was read there. -/
structure Count where
  declared : List Declared
  read : List String

namespace Count

/-- One more declaration, which counts if its name is new. -/
def add (c : Count) (d : Declared) : Count :=
  if c.declared.any fun e => e.name == d.name then c else { c with declared := c.declared ++ [d] }

/-- More is read in the scope with this opener. -/
def reading (o : List Nat) (reads : List (List Nat × String)) (c : Count) : Count :=
  { c with read := c.read ++ readFrom o reads }

/-- The walk knows this of a scope. -/
structure Describes (c : Count) (ls : Locals) : Prop where
  entries : List.Forall₂ (fun d l => l.name = d.name ∧ l.line = d.line ∧ l.tracked = d.tracked ∧
    l.used = c.read.contains d.name) c.declared ls
  bound : ∀ x ∈ c.read, c.declared.any (fun d => d.name == x) = true

variable {c : Count} {ls : Locals} {d : Declared} {x : String}

theorem Describes.binds (h : c.Describes ls) (x : String) :
    ls.binds x = c.declared.any fun d => d.name == x := by
  obtain ⟨entries, _⟩ := h
  generalize c.declared = ds at entries
  induction entries with
  | nil => rfl
  | cons same _ ih =>
    rw [Locals.binds, List.any_cons, List.any_cons, same.1]
    exact congrArg _ ih

theorem Describes.update_defined (h : c.Describes ls) (x : String) (b : Bool) :
    c.Describes (ls.update x fun l => { l with defined := b }) where
  entries := by
    rw [Locals.update, List.forall₂_map_right_iff]
    refine h.entries.imp fun d l same => ?_
    split <;> exact same
  bound := h.bound

theorem Describes.update_used (h : c.Describes ls) (known : ls.binds x = true) :
    Count.Describes { c with read := c.read ++ [x] }
      (ls.update x fun l => { l with used := true }) where
  entries := by
    rw [Locals.update, List.forall₂_map_right_iff]
    refine h.entries.imp fun d l entry => ?_
    obtain ⟨name, line, tracked, used⟩ := entry
    by_cases same : l.name = x
    · subst same
      simp [name, line, tracked]
    · have other : d.name ≠ x := name ▸ same
      simp [name, line, tracked, used, other]
  bound y mem := by
    rcases List.mem_append.mp mem with old | new
    · exact h.bound y old
    · rw [List.mem_singleton.mp new, ← h.binds]
      exact known

theorem Describes.add (h : c.Describes ls) (fresh : ls.binds d.name = false) :
    (c.add d).Describes (ls ++ [⟨d.name, d.line, false, false, d.tracked⟩]) := by
  rw [h.binds] at fresh
  rw [Count.add, if_neg (by rw [fresh]; decide)]
  have unread : c.read.contains d.name = false := by
    rw [List.contains_eq_mem]
    refine decide_eq_false fun mem => ?_
    rw [h.bound _ mem] at fresh
    cases fresh
  refine ⟨List.rel_append h.entries (.cons ⟨rfl, rfl, rfl, unread.symm⟩ .nil), fun y mem => ?_⟩
  rw [List.any_append, h.bound y mem, Bool.true_or]

theorem Describes.unused (h : c.Describes ls) : ls.unused = unread c.read c.declared := by
  obtain ⟨entries, _⟩ := h
  unfold Locals.unused unread
  generalize c.declared = ds at entries
  induction entries with
  | nil => rfl
  | @cons d l _ _ same _ ih =>
    obtain ⟨name, line, tracked, used⟩ := same
    rw [List.filter_cons, List.filter_cons, tracked, used]
    split
    · rw [List.map_cons, List.map_cons, ih, name, line]
    · exact ih

theorem declared_foldl_add : ∀ (ds : List Declared) (c : Count), (ds.foldl add c).declared =
    c.declared ++ (firsts ds).filter fun d => !c.declared.any fun e => e.name == d.name
  | [], c => (List.append_nil _).symm
  | d :: ds, c => by
    rw [List.foldl_cons, declared_foldl_add ds, firsts, List.filter_cons, List.filter_filter, add]
    by_cases known : (c.declared.any fun e => e.name == d.name) = true
    · rw [if_pos known, if_neg (by rw [known]; decide)]
      congr 1
      refine List.filter_congr fun e _ => ?_
      by_cases same : e.name = d.name
      · rw [same, known]
        rfl
      · simp [same]
    · rw [if_neg known, if_pos (by simpa using known), List.append_assoc, List.singleton_append]
      congr 2
      refine List.filter_congr fun e _ => ?_
      simp only [List.any_append, List.any_cons, List.any_nil, Bool.or_false, Bool.not_or]
      rw [bne, BEq.comm]

theorem read_foldl_add : ∀ (ds : List Declared) (c : Count), (ds.foldl add c).read = c.read
  | [], _ => rfl
  | d :: ds, c => by
    rw [List.foldl_cons, read_foldl_add ds, add]
    split <;> rfl

end Count

/-- What is declared and read in the open scopes, the innermost first. -/
abbrev Tally := List Count

namespace Tally

def Describes (t : Tally) (scopes : List Locals) : Prop := List.Forall₂ Count.Describes t scopes

def declare (t : Tally) (d : Declared) : Tally :=
  match t with
  | [] => []
  | c :: t => c.add d :: t

/-- More is read in the scopes with these openers. -/
def read (reads : List (List Nat × String)) : List (List Nat) → Tally → Tally
  | o :: os, c :: t => c.reading o reads :: read reads os t
  | _, t => t

variable {t : Tally} {os : List (List Nat)} {reads reads' : List (List Nat × String)}
  {d : Declared} {scopes : List Locals}

@[simp]
theorem read_nil : ∀ (os : List (List Nat)) (t : Tally), read [] os t = t
  | [], _ => by simp [read]
  | _ :: _, [] => rfl
  | o :: os, c :: t => by
    rw [read, read_nil os t, Count.reading]
    simp [readFrom]

theorem read_append : ∀ (os : List (List Nat)) (t : Tally),
    read (reads ++ reads') os t = read reads' os (read reads os t)
  | [], _ => by simp [read]
  | _ :: _, [] => rfl
  | o :: os, c :: t => by
    simp only [read, read_append os t, Count.reading, readFrom, List.filter_append, List.map_append,
      List.append_assoc]

theorem declare_read (os : List (List Nat)) (t : Tally) :
    (read reads os t).declare d = read reads os (t.declare d) := by
  cases os with
  | nil => simp [read]
  | cons o os =>
    cases t with
    | nil => rfl
    | cons c t =>
      simp only [read, declare, Count.add, Count.reading]
      congr 1
      split <;> rfl

theorem foldl_declare_read : ∀ (ds : List Declared) (os : List (List Nat)) (t : Tally),
    ds.foldl declare (read reads os t) = read reads os (ds.foldl declare t)
  | [], _, _ => rfl
  | d :: ds, os, t => by
    rw [List.foldl_cons, declare_read, foldl_declare_read ds]
    rfl

theorem foldl_declare_cons : ∀ (ds : List Declared) (c : Count) (t : Tally),
    ds.foldl declare (c :: t) = ds.foldl Count.add c :: t
  | [], _, _ => rfl
  | _ :: ds, _, t => foldl_declare_cons ds _ t

/-- What is read where no scope has this opener changes nothing. -/
theorem read_other {r : List Nat × String} : ∀ (os : List (List Nat)) (t : Tally), r.1 ∉ os →
    read [r] os t = t
  | [], _, _ => by simp [read]
  | _ :: _, [], _ => rfl
  | o :: os, c :: t, other => by
    obtain ⟨first, rest⟩ := not_or.mp fun mem => other (List.mem_cons.mpr mem)
    rw [read, read_other os t rest, Count.reading, readFrom, List.filter_singleton,
      beq_false_of_ne first]
    simp

theorem Describes.read {x : String} : ∀ {os : List (List Nat)} {t : Tally} {scopes : List Locals}
    {k : Nat} {o : List Nat}, os.Nodup → Describes t scopes →
      scopes.findIdx? (Locals.binds x) = some k → os[k]? = some o →
        Describes (Tally.read [(o, x)] os t)
          (scopes.modify k (Locals.update x fun l => { l with used := true }))
  | _, _, _, _, _, _, .nil, found, _ => by cases found
  | [], _, _, _, _, _, _, _, opener => by cases opener
  | o' :: os, _, _, k, o, distinct, .cons (a := c) first rest,
    found, opener => by
    obtain ⟨fresh, distinct⟩ := List.nodup_cons.mp distinct
    rw [List.findIdx?_cons] at found
    split at found
    · rename_i binds
      cases found
      cases opener
      rw [Tally.read, read_other os _ fresh]
      refine .cons ?_ rest
      have read : c.reading o' [(o', x)] = { c with read := c.read ++ [x] } := by
        simp [Count.reading, readFrom]
      rw [read]
      exact first.update_used binds
    · obtain ⟨j, inside, rfl⟩ := Option.map_eq_some_iff.mp found
      rw [List.getElem?_cons_succ] at opener
      rw [List.modify_succ_cons, Tally.read]
      have other : o ≠ o' := fun same => fresh (same ▸ List.mem_of_getElem? opener)
      have same : c.reading o' [(o, x)] = c := by
        simp [Count.reading, readFrom, other]
      rw [same]
      exact .cons first (Describes.read distinct rest inside opener)

end Tally

/-! What single steps of the walk count -/

namespace Resolve

variable {t : Tally} {r : Resolution}

theorem declare_describes (name : Token) (tracked : Bool) (h : t.Describes r.scopes) :
    (t.declare ⟨name.lexeme, name.line, tracked⟩).Describes (declare name tracked r).2.scopes := by
  obtain ⟨scopes, errors, warnings⟩ := r
  cases h with
  | nil => exact .nil
  | @cons c ls t outer first rest =>
    show Tally.Describes (c.add _ :: t) (if ls.binds name.lexeme then _ else _ : Resolution).scopes
    split
    · rename_i bound
      rw [first.binds] at bound
      rw [Count.add, if_pos bound]
      exact .cons (first.update_defined _ _) rest
    · rename_i fresh
      exact .cons (first.add (d := ⟨name.lexeme, name.line, tracked⟩) (Bool.eq_false_iff.mpr fresh))
        rest

theorem define_describes (name : Token) (h : t.Describes r.scopes) :
    t.Describes (define name r).2.scopes := by
  obtain ⟨scopes, errors, warnings⟩ := r
  cases h with
  | nil => exact .nil
  | cons first rest => exact .cons (first.update_defined _ _) rest

theorem warnings_declare (name : Token) (tracked : Bool) (r : Resolution) :
    (declare name tracked r).2.warnings = r.warnings := by
  obtain ⟨scopes, errors, warnings⟩ := r
  cases scopes with
  | nil => rfl
  | cons ls outer =>
    show (if ls.binds name.lexeme then _ else _ : Resolution).warnings = _
    split <;> rfl

theorem warnings_define (name : Token) (r : Resolution) :
    (define name r).2.warnings = r.warnings := by
  obtain ⟨scopes, errors, warnings⟩ := r
  cases scopes <;> rfl

theorem checkDefined_still (name : Token) (r : Resolution) :
    (checkDefined name r).2.scopes = r.scopes ∧ (checkDefined name r).2.warnings = r.warnings := by
  rw [checkDefined_eq]
  split <;> exact ⟨rfl, rfl⟩

theorem checkReturn_still (body : Body) (keyword : Token) (r : Resolution) :
    (checkReturn body keyword r).2.scopes = r.scopes ∧
      (checkReturn body keyword r).2.warnings = r.warnings := by
  unfold checkReturn
  split <;> exact ⟨rfl, rfl⟩

theorem checkReturnValue_still (body : Body) (keyword : Token) (r : Resolution) :
    (checkReturnValue body keyword r).2.scopes = r.scopes ∧
      (checkReturnValue body keyword r).2.warnings = r.warnings := by
  unfold checkReturnValue
  split <;> exact ⟨rfl, rfl⟩

end Resolve

/-! What the walk counts -/

/-- Between the two states this was read, declared in the innermost scope and warned of. The openers are
those of the scopes that are open. -/
def Tallied (os : List (List Nat)) (reads : List (List Nat × String)) (declared : List Declared)
    (warned : List Warning) (r r' : Resolution) : Prop :=
  ∀ t : Tally, t.Describes r.scopes →
    Tally.Describes (Tally.read reads os (declared.foldl Tally.declare t)) r'.scopes ∧
      r'.warnings = r.warnings ++ warned

namespace Tallied

variable {os : List (List Nat)} {reads reads' : List (List Nat × String)}
  {declared declared' : List Declared} {warned warned' : List Warning} {r r' r'' : Resolution}

theorem nothing (scopes : r'.scopes = r.scopes) (warnings : r'.warnings = r.warnings) :
    Tallied os [] [] [] r r' := by
  intro t known
  rw [scopes, warnings, Tally.read_nil, List.append_nil]
  exact ⟨known, rfl⟩

theorem append (h : Tallied os reads declared warned r r')
    (h' : Tallied os reads' declared' warned' r' r'') :
    Tallied os (reads ++ reads') (declared ++ declared') (warned ++ warned') r r'' := by
  intro t known
  obtain ⟨first, warnings⟩ := h t known
  obtain ⟨second, warnings'⟩ := h' _ first
  rw [Tally.foldl_declare_read, ← Tally.read_append] at second
  rw [List.foldl_append, warnings', warnings, List.append_assoc]
  exact ⟨second, rfl⟩

/-- A scope is opened in which some names are bound from the start, and closed again. -/
theorem closed {o : List Nat} {c : Count} {r₁ r₂ : Resolution} (unread' : c.read = [])
    (opens : ∀ t : Tally, t.Describes r.scopes →
      Tally.Describes (c :: t) r₁.scopes ∧ r₁.warnings = r.warnings)
    (h : Tallied (o :: os) reads declared warned r₁ r₂) :
    Tallied os reads [] (warned ++ unread (readFrom o reads) (declared.foldl Count.add c).declared) r
      (Resolve.closeScope r₂).2 := by
  intro t known
  obtain ⟨opened, still⟩ := opens t known
  obtain ⟨inside, warnings⟩ := h _ opened
  rw [Tally.foldl_declare_cons, Tally.read] at inside
  obtain ⟨scopes, errors, noted⟩ := r₂
  cases inside with
  | cons first rest =>
    refine ⟨rest, ?_⟩
    have own := first.unused
    rw [Count.reading, Count.read_foldl_add, unread', List.nil_append] at own
    show noted ++ _ = _
    rw [own, ← List.append_assoc, ← still, ← warnings]

end Tallied

theorem readsIn_append (program : List Stmt) (way : List Nat) (ways ways' : List (List Nat)) :
    readsIn program way (ways ++ ways') = readsIn program way ways ++ readsIn program way ways' :=
  List.filterMap_append

theorem readsIn_under (program : List Stmt) (way : List Nat) (ways : List (List Nat)) (i : Nat) :
    readsIn program way (under i ways) = readsIn program (i :: way) ways := by
  simp only [readsIn, under, List.filterMap_map, Function.comp_def, List.append_assoc,
    List.singleton_append]

/-- The variables of a scope that nothing in it reads. -/
def unusedIn (program : List Stmt) (o : List Nat) : List Warning :=
  unread (readFrom o (readsIn program o (partAt program o).places)) (firsts (partAt program o).declared)

/-- What the walk over a part that a way leads to counts: what is read at these places in it, declared
in the scope it stands in, and unread in the scopes that are closed. -/
def Tallies (program : List Stmt) (way : List Nat) (ways : List (List Nat))
    (declared : List Declared) (closed : List (List Nat)) (r r' : Resolution) : Prop :=
  Tallied (openersAt program way) (readsIn program way ways) declared
    (closed.flatMap fun w => unusedIn program (w ++ way)) r r'

namespace Tallies

variable {program : List Stmt} {way : List Nat} {ways ways' closed closed' : List (List Nat)}
  {declared declared' : List Declared} {r r' r'' : Resolution}

theorem nothing (scopes : r'.scopes = r.scopes) (warnings : r'.warnings = r.warnings) :
    Tallies program way [] [] [] r r' := Tallied.nothing scopes warnings

theorem append (h : Tallies program way ways declared closed r r')
    (h' : Tallies program way ways' declared' closed' r' r'') :
    Tallies program way (ways ++ ways') (declared ++ declared') (closed ++ closed') r r'' := by
  rw [Tallies, readsIn_append, List.flatMap_append]
  exact Tallied.append h h'

theorem flatMap_under (program : List Stmt) (way : List Nat) (closed : List (List Nat)) (i : Nat) :
    (LoxLang.under i closed).flatMap (fun w => unusedIn program (w ++ way)) =
      closed.flatMap fun w => unusedIn program (w ++ i :: way) := by
  rw [LoxLang.under, List.flatMap_map]
  simp only [List.append_assoc, List.singleton_append]

theorem under {i : Nat} (same : (partAt program way).opens? i = none)
    (h : Tallies program (i :: way) ways declared closed r r') :
    Tallies program way (LoxLang.under i ways) declared (LoxLang.under i closed) r r' := by
  rw [Tallies, readsIn_under, flatMap_under, ← openersAt_same same]
  exact h

theorem readsIn_silent {p : Site} (site : siteAt program way = p) (ways : List (List Nat))
    (quiet : p.part.readsName = false := by rfl) :
    readsIn program way ([] :: ways) = readsIn program way ways := by
  have unread : readAt program way = none := by
    unfold readAt
    rw [partAt_eq, site]
    split
    · rename_i name depth part
      rw [part] at quiet
      cases quiet
    · rfl
  rw [readsIn, List.filterMap_cons, List.nil_append, unread]
  rfl

theorem silent {p : Site} (site : siteAt program way = p)
    (h : Tallies program way ways declared closed r r') (quiet : p.part.readsName = false := by rfl) :
    Tallies program way ([] :: ways) declared closed r r' := by
  rw [Tallies, readsIn_silent site ways quiet]
  exact h

theorem declare {d : Declared} (first : ∀ t : Tally, t.Describes r.scopes →
      (t.declare d).Describes r'.scopes ∧ r'.warnings = r.warnings)
    (h : Tallies program way ways declared closed r' r'') :
    Tallies program way ways (d :: declared) closed r r'' := by
  intro t known
  obtain ⟨describes, warnings⟩ := first t known
  rw [← warnings]
  exact h _ describes

theorem opened {s : Scope} {c : Count} {r₁ r₂ : Resolution} (unread' : c.read = [])
    (scope : (partAt program way).opens? 0 = some s)
    (opens : ∀ t : Tally, t.Describes r.scopes →
      Tally.Describes (c :: t) r₁.scopes ∧ r₁.warnings = r.warnings)
    (h : Tallies program (0 :: way) ways declared closed r₁ r₂)
    (own : unread (readFrom way (readsIn program (0 :: way) ways))
      (declared.foldl Count.add c).declared = unusedIn program way) :
    Tallies program way (LoxLang.under 0 ways) [] (LoxLang.under 0 closed ++ [[]]) r
      (Resolve.closeScope r₂).2 := by
  rw [Tallies, openersAt_opened scope] at h
  have whole := Tallied.closed unread' opens h
  rw [own] at whole
  rw [Tallies, readsIn_under, List.flatMap_append, flatMap_under, List.flatMap_singleton,
    List.nil_append]
  exact whole

end Tallies

section

open Resolve Site

variable {program : List Stmt}

/-- What a part counts that stands in no scope of its own counts for the part around it. -/
theorem Tallies.child {way : List Nat} {p : Site} {i : Nat} {ways closed : List (List Nat)}
    {declared : List Declared} {r r' : Resolution} (site : siteAt program way = p)
    (h : Tallies program (i :: way) ways declared closed r r')
    (same : p.part.opens? i = none := by rfl) :
    Tallies program way (LoxLang.under i ways) declared (LoxLang.under i closed) r r' :=
  .under (by rw [partAt_eq, site]; exact same) h

theorem Tallies.plain {s : Stmt} {way : List Nat} {ways closed : List (List Nat)} {r r' : Resolution}
    (noDeclaration : s.isDeclaration = false) (h : Tallies program way ways s.declared closed r r') :
    Tallies program way ways [] closed r r' := by
  rwa [Stmt.declared_eq_nil noDeclaration] at h

theorem variable_tallies (proper : Stmt.AllProper program) {way : List Nat} {name : Token}
    {depth : Option Nat} {place : Surroundings} {before : Resolution} {closing : List Locals}
    (site : siteAt program way = ⟨.expression (.variable name depth), place, before, closing⟩) :
    Tallies program way [[]] [] [] before (expression place (.variable name depth) before).2 := by
  have distance := distance?_siteAt proper way name.lexeme
  have depths := (mirrors_scopesAt proper way).length_eq
  have part := partAt_eq program way
  rw [site] at distance depths part
  obtain ⟨scopes, warnings⟩ := checkDefined_still name before
  dsimp only at distance depths part
  intro t known
  show Tally.Describes _ (locateRead name (checkDefined name before).2).2.scopes ∧
    (locateRead name (checkDefined name before).2).2.warnings = _
  have reads : readsIn program way [[]] =
      ((resolvesTo program way name.lexeme).map fun o => (o, name.lexeme)).toList := by
    simp only [readsIn, List.filterMap_cons, List.filterMap_nil, List.nil_append, readAt, part]
    cases resolvesTo program way name.lexeme <;> rfl
  rw [reads, resolvesTo, ← distance]
  rw [← scopes] at known ⊢
  cases found : distance? name.lexeme (checkDefined name before).2.scopes with
  | none =>
    rw [locateRead_global found]
    simpa [warnings] using known
  | some d =>
    have inside : d < (openersAt program way).length := by
      have bounded := (List.findIdx?_eq_some_iff_getElem.mp found).1
      rw [length_openersAt, depths, Resolution.length_outline, ← scopes]
      exact bounded
    rw [locateRead_local found]
    have opener := List.getElem?_eq_getElem inside
    simp only [Option.bind_some, opener, Option.map_some, Option.toList_some, List.foldl_nil,
      List.flatMap_nil, List.append_nil, warnings, and_true]
    exact known.read (nodup_openersAt program way) found opener

/-- A name is bound, and something that is counted before its declaration is complete. -/
theorem declared_tallies {way : List Nat} {ways closed : List (List Nat)} {name : Token}
    {tracked : Bool} {r r' r'' : Resolution} {declared : List Declared}
    (same : r' = (declare name tracked r).2)
    (h : Tallies program way ways declared closed r' r'') :
    Tallies program way ways (⟨name.lexeme, name.line, tracked⟩ :: declared) closed r
      (define name r'').2 := by
  subst same
  have whole : Tallies program way ways (⟨name.lexeme, name.line, tracked⟩ :: declared) closed r
      r'' :=
    h.declare fun t known => ⟨declare_describes name tracked known, warnings_declare name tracked r⟩
  intro t known
  obtain ⟨describes, warnings⟩ := whole t known
  exact ⟨define_describes name describes, (warnings_define name r'').trans warnings⟩

theorem declareParams_describes : ∀ (params : List Token) {t : Tally} {r : Resolution},
    t.Describes r.scopes →
      Tally.Describes ((Token.declaredParams params).foldl Tally.declare t)
          (declareParams params r).2.scopes ∧
        (declareParams params r).2.warnings = r.warnings
  | [], _, _, known => ⟨known, rfl⟩
  | p :: ps, _, r, known => by
    have first := define_describes p (declare_describes p false known)
    obtain ⟨describes, warnings⟩ := declareParams_describes ps first
    refine ⟨describes, warnings.trans ?_⟩
    rw [warnings_define, warnings_declare]

/-- Around the methods of a class there is a scope in which `this` is bound, and nothing is declared. -/
theorem members_tallies {name : Token} {ms ss : List Function} {way : List Nat} {place : Surroundings}
    {before r r' : Resolution} {closing : List Locals} {ways ways' closed closed' : List (List Nat)}
    (site : siteAt program way = ⟨.statement (.declareClass name ms ss), place, before, closing⟩)
    (first : Tallies program (0 :: way) ways [] closed (openClass name before).2 r)
    (second : Tallies program (1 :: way) ways' [] closed' r r') :
    Tallies program way (under 0 ways ++ under 1 ways') []
      (under 0 closed ++ under 1 closed' ++ [[]])
      (define name (declare name false before).2).2 (closeScope r').2 := by
  have scope (i : Nat) (h : i = 0 ∨ i = 1) : (partAt program way).opens? i =
      some ⟨[Keyword.this.word], true⟩ := by
    rw [partAt_eq, site]
    rcases h with rfl | rfl <;> rfl
  rw [Tallies, openersAt_opened (scope _ (.inl rfl)), ← Tallies.flatMap_under,
    ← readsIn_under] at first
  rw [Tallies, openersAt_opened (scope _ (.inr rfl)), ← Tallies.flatMap_under,
    ← readsIn_under] at second
  have opens (t : Tally) (known : t.Describes (define name (declare name false before).2).2.scopes) :
      Tally.Describes (⟨[⟨Keyword.this.word, name.line, false⟩], []⟩ :: t)
          (openClass name before).2.scopes ∧
        (openClass name before).2.warnings = (define name (declare name false before).2).2.warnings :=
    ⟨.cons ⟨.cons ⟨rfl, rfl, rfl, rfl⟩ .nil, fun _ mem => nomatch mem⟩ known, rfl⟩
  have inside := Tallied.closed rfl opens (first.append second)
  have nothing : unusedIn program way = [] := by
    rw [unusedIn, partAt_eq, site]
    rfl
  rw [Tallies, readsIn_append, List.flatMap_append, List.flatMap_append,
    List.flatMap_singleton, List.nil_append, nothing]
  exact inside

mutual

/-- The walk over an expression counts what is read at the places in it. -/
theorem expression_tallies (proper : Stmt.AllProper program) : ∀ (e : Expr) {way : List Nat}
    {place : Surroundings} {before : Resolution} {closing : List Locals},
    siteAt program way = ⟨.expression e, place, before, closing⟩ →
      Tallies program way e.places [] e.closings before (expression place e before).2
  | .literal _, _, _, _, _, site => .silent site (.nothing rfl rfl)
  | .group inner, _, _, _, _, site =>
    .silent site (.child site (expression_tallies proper inner (at_child site 0)))
  | .unary _ right, _, _, _, _, site =>
    .silent site (.child site (expression_tallies proper right (at_child site 0)))
  | .binary left _ right, _, _, _, _, site =>
    .silent site (.append
      (.child site (expression_tallies proper left (at_child site 0)))
      (.child site (expression_tallies proper right (at_child site 1))))
  | .logical left _ right, _, _, _, _, site =>
    .silent site (.append
      (.child site (expression_tallies proper left (at_child site 0)))
      (.child site (expression_tallies proper right (at_child site 1))))
  | .ternary condition whenTrue whenFalse, _, _, _, _, site =>
    .silent site (.append
      (.child site (expression_tallies proper condition (at_child site 0))) (.append
        (.child site (expression_tallies proper whenTrue (at_child site 1)))
        (.child site (expression_tallies proper whenFalse (at_child site 2)))))
  | .variable _ _, _, _, _, _, site => variable_tallies proper site
  | .this keyword depth, _, place, before, _, site => by
    refine .silent site (.nothing ?_ ?_)
    · obtain ⟨body, receiver⟩ := place
      cases receiver <;> rfl
    · obtain ⟨body, receiver⟩ := place
      cases receiver <;> rfl
  | .assign _ value _, _, _, _, _, site =>
    .silent site (.child site (expression_tallies proper value (at_child site 0)))
  | .call callee _ arguments, _, _, _, _, site =>
    .silent site (.append
      (.child site (expression_tallies proper callee (at_child site 0)))
      (.child site (expressions_tallies proper arguments (at_child site 1))))
  | .property object _, _, _, _, _, site =>
    .silent site (.child site (expression_tallies proper object (at_child site 0)))
  | .setProperty object _ value, _, _, _, _, site =>
    .silent site (.append
      (.child site (expression_tallies proper value (at_child site 1)))
      (.child site (expression_tallies proper object (at_child site 0))))
  | .lambda code, _, _, _, _, site =>
    .silent site (.child site (function_tallies proper code (at_child site 0)))

theorem expressions_tallies (proper : Stmt.AllProper program) : ∀ (es : List Expr) {way : List Nat}
    {place : Surroundings} {before : Resolution} {closing : List Locals},
    siteAt program way = ⟨.expressions es, place, before, closing⟩ →
      Tallies program way (Expr.placesAll es) [] (Expr.closingsAll es) before
        (expressions place es before).2
  | [], _, _, _, _, site => .silent site (.nothing rfl rfl)
  | e :: es, _, _, _, _, site =>
    .silent site (.append
      (.child site (expression_tallies proper e (at_child site 0)))
      (.child site (expressions_tallies proper es (at_child site 1))))

/-- The walk over a statement counts what is read at the places in it, and what it declares. -/
theorem statement_tallies (proper : Stmt.AllProper program) : ∀ (s : Stmt) {way : List Nat}
    {place : Surroundings} {before : Resolution} {closing : List Locals},
    siteAt program way = ⟨.statement s, place, before, closing⟩ →
      Tallies program way s.places s.declared s.closings before (statement place s before).2
  | .expression value, _, _, _, _, site =>
    .silent site (.child site (expression_tallies proper value (at_child site 0)))
  | .print value, _, _, _, _, site =>
    .silent site (.child site (expression_tallies proper value (at_child site 0)))
  | .declare d, way, place, before, closing, site => by
    have inside : siteAt program (0 :: way) = ⟨.declarators [d], place, before, closing⟩ :=
      at_child site 0
    -- A declaration alone is a list of one, behind which there is nothing to count.
    have ends : Tallies program (1 :: 0 :: way) [[]] [] [] (declarator place d before).2
        (declarator place d before).2 :=
      .silent (at_declarators inside) (.nothing rfl rfl)
    have whole := declarator_tallies proper d inside (.child inside ends)
    have none : under 1 [] = [] := rfl
    rw [none, List.append_nil] at whole
    exact .silent site (.child site whole)
  | .declareAll ds, _, _, _, _, site =>
    .silent site (.child site (declarators_tallies proper ds (at_child site 0)))
  | .block body, way, place, before, closing, site => by
    refine .silent site (.opened (c := ⟨[], []⟩) rfl (by rw [partAt_eq, site]; rfl) ?_
      (statements_tallies proper body (at_child site 0)) ?_)
    · exact fun t known => ⟨.cons ⟨.nil, nofun⟩ known, rfl⟩
    · rw [Count.declared_foldl_add, unusedIn, partAt_eq, site]
      simp [Part.declared, Part.places, Stmt.places, Tallies.readsIn_silent site, readsIn_under]
  | .conditional condition whenTrue none, way, _, _, _, site => by
    have wellFormed := proper_siteAt proper way
    rw [site] at wellFormed
    exact .silent site (.append
      (.child site (expression_tallies proper condition (at_child site 0)))
      (.child site (.plain wellFormed.2.1 (statement_tallies proper whenTrue (at_child site 1)))))
  | .conditional condition whenTrue (some whenFalse), way, _, _, _, site => by
    have wellFormed := proper_siteAt proper way
    rw [site] at wellFormed
    exact .silent site (.append
      (.child site (expression_tallies proper condition (at_child site 0))) (.append
        (.child site (.plain wellFormed.2.1.1 (statement_tallies proper whenTrue (at_child site 1))))
        (.child site (.plain wellFormed.2.2.1 (statement_tallies proper whenFalse (at_child site 2))))))
  | .loop condition body, way, _, _, _, site => by
    have wellFormed := proper_siteAt proper way
    rw [site] at wellFormed
    exact .silent site (.append
      (.child site (expression_tallies proper condition (at_child site 0)))
      (.child site (.plain wellFormed.2.1 (statement_tallies proper body (at_child site 1)))))
  | .declareFunction code, way, _, before, _, site => by
    have own : Tallies program way [] [⟨code.name.lexeme, code.name.line, false⟩] [] before
        (define code.name (declare code.name false before).2).2 :=
      declared_tallies rfl (.nothing rfl rfl)
    exact .silent site
      (own.append (.child site (function_tallies proper code (at_child site 0))))
  | .returns keyword none, way, place, before, _, site => by
    obtain ⟨scopes, warnings⟩ := checkReturn_still place.body keyword before
    exact .silent site (.nothing scopes warnings)
  | .returns keyword (some value), way, place, before, _, site => by
    obtain ⟨scopes, warnings⟩ := checkReturn_still place.body keyword before
    obtain ⟨scopes', warnings'⟩ :=
      checkReturnValue_still place.body keyword (checkReturn place.body keyword before).2
    have own : Tallies program way [] [] [] before
        (checkReturnValue place.body keyword (checkReturn place.body keyword before).2).2 :=
      .nothing (scopes'.trans scopes) (warnings'.trans warnings)
    exact .silent site
      (own.append (.child site (expression_tallies proper value (at_child site 0))))
  | .declareClass name ms ss, way, place, before, _, site => by
    have own : Tallies program way [] [⟨name.lexeme, name.line, false⟩] [] before
        (define name (declare name false before).2).2 :=
      declared_tallies rfl (.nothing rfl rfl)
    have first := methods_tallies proper ms (at_child site 0)
    have second := statics_tallies proper ss (at_child site 1)
    exact .silent site (own.append (members_tallies site first second))

theorem statements_tallies (proper : Stmt.AllProper program) : ∀ (ss : List Stmt) {way : List Nat}
    {place : Surroundings} {before : Resolution} {closing : List Locals},
    siteAt program way = ⟨.statements ss, place, before, closing⟩ →
      Tallies program way (Stmt.placesAll ss) (ss.flatMap Stmt.declared) (Stmt.closingsAll ss) before
        (statements place ss before).2
  | [], _, _, _, _, site => .silent site (.nothing rfl rfl)
  | s :: ss, _, _, _, _, site =>
    .silent site (.append
      (.child site (statement_tallies proper s (at_child site 0)))
      (.child site (statements_tallies proper ss (at_child site 1))))

/-- The first of some declarators, and what the walk counts behind it. -/
theorem declarator_tallies (proper : Stmt.AllProper program) : ∀ (d : Declarator)
    {ds : List Declarator} {way : List Nat} {place : Surroundings} {before after : Resolution}
    {closing : List Locals} {ways closed : List (List Nat)} {declared : List Declared},
    siteAt program way = ⟨.declarators (d :: ds), place, before, closing⟩ →
      Tallies program way ways declared closed (declarator place d before).2 after →
        Tallies program way ([] :: (d.places ++ ways)) (d.declared :: declared)
          (d.closings ++ closed) before after
  | ⟨name, none⟩, _, way, _, before, _, _, _, _, _, site, rest => by
    have own : Tallies program way [] [⟨name.lexeme, name.line, true⟩] [] before
        (define name (declare name true before).2).2 :=
      declared_tallies rfl (.nothing rfl rfl)
    exact .silent site (own.append rest)
  | ⟨name, some initial⟩, _, _, _, _, _, _, _, _, _, site, rest => by
    have own := declared_tallies rfl
      (.child site (expression_tallies proper initial (at_child site 0)))
    exact .silent site (own.append rest)

theorem declarators_tallies (proper : Stmt.AllProper program) : ∀ (ds : List Declarator)
    {way : List Nat} {place : Surroundings} {before : Resolution} {closing : List Locals},
    siteAt program way = ⟨.declarators ds, place, before, closing⟩ →
      Tallies program way (Declarator.placesAll ds) (ds.map Declarator.declared)
        (Declarator.closingsAll ds) before (declarators place ds before).2
  | [], _, _, _, _, site => .silent site (.nothing rfl rfl)
  | d :: ds, _, _, _, _, site =>
    declarator_tallies proper d site
      (.child site (declarators_tallies proper ds (at_declarators site)))

/-- The walk over a function counts what is read at the places in it. -/
theorem function_tallies (proper : Stmt.AllProper program) : ∀ (f : Function) {way : List Nat}
    {place : Surroundings} {before : Resolution} {closing : List Locals},
    siteAt program way = ⟨.function f, place, before, closing⟩ →
      Tallies program way f.places [] f.closings before (function place f before).2
  | ⟨name, params, body⟩, way, _, before, _, site => by
    refine .silent site (.opened
      (c := (Token.declaredParams params).foldl Count.add ⟨[], []⟩) ?_ (by rw [partAt_eq, site]; rfl)
      ?_ (statements_tallies proper body (at_child site 0)) ?_)
    · rw [Count.read_foldl_add]
    · intro t known
      have opened : Tally.Describes (⟨[], []⟩ :: t) (openScope [] before).2.scopes :=
        .cons ⟨.nil, nofun⟩ known
      obtain ⟨describes, warnings⟩ := declareParams_describes params opened
      rw [Tally.foldl_declare_cons] at describes
      exact ⟨describes, warnings⟩
    · rw [← List.foldl_append, Count.declared_foldl_add, unusedIn, partAt_eq, site]
      simp [Part.declared, Part.places, Function.places, Tallies.readsIn_silent site,
        readsIn_under]

theorem methods_tallies (proper : Stmt.AllProper program) : ∀ (fs : List Function) {way : List Nat}
    {place : Surroundings} {before : Resolution} {closing : List Locals},
    siteAt program way = ⟨.methods fs, place, before, closing⟩ →
      Tallies program way (Function.placesAll fs) [] (Function.closingsAll fs) before
        (methods fs before).2
  | [], _, _, _, _, site => .silent site (.nothing rfl rfl)
  | f :: fs, _, _, _, _, site =>
    .silent site (.append
      (.child site (function_tallies proper f (at_child site 0)))
      (.child site (methods_tallies proper fs (at_child site 1))))

theorem statics_tallies (proper : Stmt.AllProper program) : ∀ (fs : List Function) {way : List Nat}
    {place : Surroundings} {before : Resolution} {closing : List Locals},
    siteAt program way = ⟨.statics fs, place, before, closing⟩ →
      Tallies program way (Function.placesAll fs) [] (Function.closingsAll fs) before
        (statics fs before).2
  | [], _, _, _, _, site => .silent site (.nothing rfl rfl)
  | f :: fs, _, _, _, _, site =>
    .silent site (.append
      (.child site (function_tallies proper f (at_child site 0)))
      (.child site (statics_tallies proper fs (at_child site 1))))

end

end

/-! The warnings of a program -/

section

variable {program : List Stmt} {way o : List Nat} {x : String}

theorem mem_readsIn {ways : List (List Nat)} {r : List Nat × String} :
    r ∈ readsIn program way ways ↔ ∃ w ∈ ways, readAt program (w ++ way) = some r :=
  List.mem_filterMap

theorem mem_readsOf : (o, x) ∈ readsOf program ↔ ∃ way ∈ Stmt.placesAll program, ∃ name depth,
    partAt program way = .expression (.variable name depth) ∧ name.lexeme = x ∧
      resolvesTo program way x = some o := by
  rw [readsOf, mem_readsIn]
  constructor
  · rintro ⟨w, mem, read⟩
    rw [List.append_nil] at read
    unfold readAt at read
    split at read
    · rename_i name depth part
      obtain ⟨o', found, same⟩ := Option.map_eq_some_iff.mp read
      cases same
      exact ⟨w, mem, name, depth, part, rfl, found⟩
    · cases read
  · rintro ⟨w, mem, name, depth, part, rfl, found⟩
    refine ⟨w, mem, ?_⟩
    rw [List.append_nil, readAt, part]
    dsimp only
    rw [found]
    rfl

/-- A name belongs to a scope that encloses the place. -/
theorem resolvesTo_mem (h : resolvesTo program way x = some o) : o ∈ openersAt program way := by
  obtain ⟨d, _, opener⟩ := Option.bind_eq_some_iff.mp h
  exact List.mem_of_getElem? opener

theorem contains_readFrom {reads : List (List Nat × String)} :
    (readFrom o reads).contains x = decide ((o, x) ∈ reads) := by
  rw [List.contains_eq_mem]
  refine decide_eq_decide.mpr ?_
  simp only [readFrom, List.mem_map, List.mem_filter, beq_iff_eq]
  constructor
  · rintro ⟨⟨o', y⟩, ⟨mem, rfl⟩, rfl⟩
    exact mem
  · exact fun mem => ⟨(o, x), ⟨mem, rfl⟩, rfl⟩

theorem readFrom_inside (listed : o ∈ Stmt.placesAll program) (x : String) :
    (o, x) ∈ readsIn program o (partAt program o).places ↔ (o, x) ∈ readsOf program := by
  rw [readsOf, mem_readsIn, mem_readsIn]
  constructor
  · rintro ⟨w, mem, read⟩
    refine ⟨w ++ o, Part.mem_places_of_inside listed mem, ?_⟩
    rwa [List.append_nil]
  · rintro ⟨w, mem, read⟩
    rw [List.append_nil] at read
    have around : o ∈ openersAt program w := by
      unfold readAt at read
      split at read
      · obtain ⟨o', found, same⟩ := Option.map_eq_some_iff.mp read
        cases same
        exact resolvesTo_mem found
      · cases read
    obtain ⟨inside, i, rfl, _⟩ := of_mem_openersAt program around
    rw [List.append_cons] at mem read
    exact ⟨inside ++ [i], Part.append_mem_places mem, read⟩

theorem unusedIn_eq (listed : o ∈ Stmt.placesAll program) :
    unusedIn program o = unusedAt program o := by
  unfold unusedIn unusedAt unread
  congr 1
  refine List.filter_congr fun d _ => ?_
  rw [contains_readFrom, contains_readFrom, decide_eq_decide.mpr (readFrom_inside listed d.name)]

/-- The walk over a program warns of the unused variables of its scopes. -/
theorem warnings_ofProgram (proper : Stmt.AllProper program) :
    (Resolution.ofProgram program).2.warnings =
      (Stmt.closingsAll program).flatMap (unusedAt program) := by
  have walked : Tallies program [] (Stmt.placesAll program) (program.flatMap Stmt.declared)
      (Stmt.closingsAll program) .empty (Resolution.ofProgram program).2 :=
    statements_tallies proper program rfl
  obtain ⟨_, warnings⟩ := walked [] .nil
  rw [warnings]
  refine List.flatMap_congr fun o mem => ?_
  rw [List.append_nil]
  exact unusedIn_eq ((Part.mem_closings (.statements program)).mp mem).1

end

theorem firsts_sublist : ∀ ds : List Declared, (firsts ds).Sublist ds
  | [] => .slnil
  | d :: ds => (List.filter_sublist.trans (firsts_sublist ds)).cons_cons d

theorem nodup_firsts : ∀ ds : List Declared, ((firsts ds).map (·.name)).Nodup
  | [] => List.nodup_nil
  | d :: ds => by
    rw [firsts, List.map_cons, List.nodup_cons]
    refine ⟨fun mem => ?_, (nodup_firsts ds).sublist (List.filter_sublist.map _)⟩
    obtain ⟨e, mem, same⟩ := List.mem_map.mp mem
    simp [same] at mem

/-- A first declaration has none of its name in front of it. -/
theorem mem_firsts {d : Declared} : ∀ {ds : List Declared}, d ∈ firsts ds ↔
    ∃ earlier later, ds = earlier ++ d :: later ∧ ∀ e ∈ earlier, e.name ≠ d.name
  | [] => by simp [firsts]
  | e :: ds => by
    rw [firsts, List.mem_cons, List.mem_filter, mem_firsts, bne_iff_ne]
    constructor
    · rintro (rfl | ⟨⟨earlier, later, rfl, first⟩, other⟩)
      · exact ⟨[], ds, rfl, nofun⟩
      · refine ⟨e :: earlier, later, rfl, fun f mem => ?_⟩
        rcases List.mem_cons.mp mem with rfl | mem
        · exact other.symm
        · exact first f mem
    · rintro ⟨_ | ⟨f, earlier⟩, later, same, first⟩
      · cases same
        exact .inl rfl
      · cases same
        exact .inr ⟨⟨earlier, later, rfl, fun g mem => first g (List.mem_cons_of_mem e mem)⟩,
          (first e List.mem_cons_self).symm⟩

theorem unread_names {reads : List String} {ds : List Declared} :
    ((unread reads ds).map (·.name)).Sublist (ds.map (·.name)) := by
  rw [unread, List.map_map]
  exact List.filter_sublist.map _

/-- A variable is unused if its declaration is the first of its name in the scope, and no place in the
program reads that name from there. -/
theorem mem_unusedAt {program : List Stmt} {o : List Nat} {w : Warning} :
    w ∈ unusedAt program o ↔ ∃ d earlier later, w = ⟨d.name, d.line⟩ ∧ d.tracked = true ∧
      (partAt program o).declared = earlier ++ d :: later ∧ (∀ e ∈ earlier, e.name ≠ d.name) ∧
      ∀ way ∈ Stmt.placesAll program, ∀ name depth,
        partAt program way = .expression (.variable name depth) → name.lexeme = d.name →
          resolvesTo program way d.name ≠ some o := by
  simp only [unusedAt, unread, List.mem_map, List.mem_filter, contains_readFrom, Bool.and_eq_true,
    Bool.not_eq_true', decide_eq_false_iff_not, mem_readsOf, mem_firsts]
  constructor
  · rintro ⟨d, ⟨⟨earlier, later, whole, first⟩, tracked, silent⟩, rfl⟩
    exact ⟨d, earlier, later, rfl, tracked, whole, first, fun way mem name depth part same found =>
      silent ⟨way, mem, name, depth, part, same, found⟩⟩
  · rintro ⟨d, earlier, later, rfl, tracked, whole, first, silent⟩
    refine ⟨d, ⟨⟨earlier, later, whole, first⟩, tracked, ?_⟩, rfl⟩
    rintro ⟨way, mem, name, depth, part, same, found⟩
    exact silent way mem name depth part same found

namespace Session

/-- The walk warns of exactly the variables that are not used: scope by scope as it closes them, each
scope of the program once and behind the scopes in it, and in each scope in the order of the declarations,
of no name twice. A variable is one that a declarator declares, for the first time in its scope; it is
used where its name is read and belongs to that scope. -/
theorem unused_exact {input : Input} {program : List Stmt} (parsed : input.parsed = .ok program) :
    (Resolution.ofProgram program).2.warnings =
        (Stmt.closingsAll program).flatMap (unusedAt program) ∧
      (∀ o, o ∈ Stmt.closingsAll program ↔
        o ∈ Stmt.placesAll program ∧ (partAt program o).isScope = true) ∧
      (Stmt.closingsAll program).Pairwise (fun a b => ¬ a <:+ b) ∧
      ∀ o, (unusedAt program o).Sublist
          ((partAt program o).declared.map fun d => ⟨d.name, d.line⟩) ∧
        ((unusedAt program o).map (·.name)).Nodup ∧
        ∀ w, w ∈ unusedAt program o ↔ ∃ d earlier later, w = ⟨d.name, d.line⟩ ∧ d.tracked = true ∧
          (partAt program o).declared = earlier ++ d :: later ∧ (∀ e ∈ earlier, e.name ≠ d.name) ∧
          ∀ way ∈ Stmt.placesAll program, ∀ name depth,
            partAt program way = .expression (.variable name depth) → name.lexeme = d.name →
              resolvesTo program way d.name ≠ some o :=
  ⟨warnings_ofProgram (Input.proper_of_parsed parsed),
    fun _ => Part.mem_closings (.statements program), Part.closings_ordered (.statements program),
    fun _ => ⟨(List.filter_sublist.map _).trans ((firsts_sublist _).map _),
      (nodup_firsts _).sublist unread_names, fun _ => mem_unusedAt⟩⟩

/-- A variable is used in a lambda, and in a block inside; it is not used where it is assigned, or where
another of its name is read. Of two declarations of a name the first one counts. -/
theorem unused_exact_shadowed :
    let source := "\x7bvar a;var a;var b=1;{print b;}var c;c=2;" ++
      "fun f(p){var d;return lambda()d;}class K{m(){var e;var b;b;}}var g,h=g;\x7dvar i;"
    let unused := ["e", "a", "c", "h"]
    ∃ program, (Input.program source).parsed = .ok program ∧
      (Resolution.ofProgram program).2.warnings.map (·.name) = unused := by
  intro source unused
  let input := Input.program source
  have checked : input.parsed.toOption.any (fun program =>
      ((Stmt.closingsAll program).flatMap (unusedAt program)).map (·.name) == unused) = true := by
    decide +kernel
  obtain ⟨program, parsed, checked⟩ := (Option.any_eq_true _ _).mp checked
  have parsed := Input.parsed_of_toOption parsed
  refine ⟨program, parsed, ?_⟩
  rw [(unused_exact parsed).1]
  exact eq_of_beq checked

end Session

end LoxLang
