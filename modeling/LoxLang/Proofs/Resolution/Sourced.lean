import LoxLang.Proofs.Resolution.Unused
import LoxLang.Proofs.Syntax.Drawn
/-!
What the walk over the names reports is about tokens of the source. With a tree the parts at all its places
are drawn from the same tokens (`Site.Drawn`), and the made-up keyword of a function without a name stands
only where nothing is wrong with a `return`.

What is proved:
1. faults at places of a program that is drawn from some tokens are noticed at these (`faultsAt_drawn`);
2. an expression that is the body of a function without a name is no fault at the place of its `return`
   (`faultsAt_implied`);
3. each warning is about the name of a declarator in the program (`declarator_of_warning`).
-/
namespace LoxLang

variable {ts : List Token} {program : List Stmt}

/-! Parts -/

theorem Stmt.Drawn.mono {s : Stmt} {sole sole' : Bool} (h : s.Drawn ts sole)
    (imp : sole = true → sole' = true) : s.Drawn ts sole' := by
  cases sole with
  | false => exact h.weaken sole'
  | true => exact imp rfl ▸ h

theorem Function.Drawn.name : ∀ {f : Function} {nameless : Bool}, f.Drawn ts nameless → f.name ∈ ts
  | ⟨_, _, _⟩, _, h => h.1

theorem Function.Drawn.weaken : ∀ {f : Function}, f.Drawn ts false → ∀ nameless, f.Drawn ts nameless
  | ⟨_, _, _⟩, h, nameless => ⟨h.1, h.2.1, Stmt.AllDrawn.weaken h.2.2 nameless⟩

def Part.Drawn (ts : List Token) (nameless : Bool) : Part → Prop
  | expression e => e.Drawn ts
  | expressions es => Expr.AllDrawn ts es
  | statement s => s.Drawn ts nameless
  | statements ss => Stmt.AllDrawn ts nameless ss
  | declarators ds => Declarator.AllDrawn ts ds
  | function f => f.Drawn ts nameless
  | methods fs => Function.AllDrawn ts fs
  | statics fs => Function.AllDrawn ts fs

/-- The part keeps tokens from among these. Only in a function that is no method may a keyword be made up. -/
def Site.Drawn (ts : List Token) (p : Site) : Prop :=
  p.part.Drawn ts (decide (p.place.body = .function))

theorem Site.Drawn.child {p : Site} (h : p.Drawn ts) (i : Nat) : (p.child i).Drawn ts := by
  obtain ⟨part, place, before, closing⟩ := p
  unfold Site.child
  dsimp only
  split
  all_goals first
    -- a condition has a second branch or not
    | cases ‹Option Stmt› with
      | none => first | exact h.1 | exact Stmt.Drawn.weaken h.2 _
      | some => first | exact h.1 | exact Stmt.Drawn.weaken h.2.1 _
    | exact h
    | exact h.1
    | exact h.2
    | exact h.1.2
    | exact h.2.1
    | exact h.2.2
    | exact ⟨h, trivial⟩
    | exact Stmt.Drawn.weaken h.2 _
    | exact Stmt.Drawn.weaken h.2.2 _
    | exact Stmt.AllDrawn.weaken h _
    | exact Stmt.AllDrawn.weaken h.2 _
    | exact Function.Drawn.weaken h _
    | exact Function.Drawn.weaken h.1 _
    | exact Stmt.Drawn.mono h.1 fun sole => (Bool.and_eq_true_iff.mp sole).1

theorem drawn_siteAt (drawn : Stmt.AllDrawn ts false program) : ∀ way : List Nat,
    (siteAt program way).Drawn ts
  | [] => drawn
  | i :: way => (drawn_siteAt drawn way).child i

theorem Site.Within.drawn {p : Site} (h : Site.Within program p)
    (drawn : Stmt.AllDrawn ts false program) : p.Drawn ts := by
  induction h with
  | root => exact drawn
  | child i _ ih => exact ih.child i

/-! Faults -/

theorem token_of_redeclarations : ∀ {params : List Token} {names : List String} {e : ScopeError},
    e ∈ redeclarations names params → e.token ∈ params
  | t :: ts, names, e, mem => by
    rcases List.mem_append.mp mem with here | later
    · split at here
      · rw [List.mem_singleton.mp here]
        exact List.mem_cons_self
      · exact absurd here List.not_mem_nil
    · exact List.mem_cons_of_mem t (token_of_redeclarations later)

theorem token_of_redeclaration {scopes : List Scope} {name : Token} {e : ScopeError}
    (h : e ∈ redeclaration scopes name) : e.token = name := by
  cases scopes with
  | nil => exact absurd h List.not_mem_nil
  | cons s outer => exact List.mem_singleton.mp (token_of_redeclarations h)

/-- What is wrong with a part is noticed at a token that it keeps. A `return` in a function that is no
method is never wrong, so a made-up one is not. -/
theorem Part.token_of_faults {part : Part} {nameless : Bool} {around : Around} {e : ScopeError}
    (h : part.Drawn ts nameless) (inner : nameless = true → around.body = .function)
    (mem : e ∈ part.faults around) : e.token ∈ ts := by
  unfold Part.faults at mem
  split at mem
  · rename_i d ds
    rw [token_of_redeclaration mem]
    obtain ⟨name, initial⟩ := d
    cases initial with
    | none => exact h.1
    | some => exact h.1.1
  · rename_i code
    rw [token_of_redeclaration mem]
    exact Function.Drawn.name h
  · rw [token_of_redeclaration mem]
    exact h.1
  · exact h.2.1 (token_of_redeclarations mem)
  · split at mem
    · rw [List.mem_singleton.mp mem]
      exact h
    · exact absurd mem List.not_mem_nil
  · split at mem
    · rw [List.mem_singleton.mp mem]
      exact h
    · rw [List.mem_singleton.mp mem]
      exact h
    · exact absurd mem List.not_mem_nil
  · split at mem
    · rw [List.mem_singleton.mp mem]
      exact h
    · exact absurd mem List.not_mem_nil
  · rename_i keyword value
    have outer (outside : around.body ≠ .function) : keyword ∈ ts :=
      h.1.resolve_right fun made => outside (inner made.1)
    split at mem
    · rename_i outside
      rw [List.mem_singleton.mp mem]
      exact outer fun inside => absurd (outside.symm.trans inside) (by decide)
    · split at mem
      · rename_i outside
        rw [List.mem_singleton.mp mem]
        exact outer fun inside => absurd (outside.symm.trans inside) (by decide)
      · exact absurd mem List.not_mem_nil
  · exact absurd mem List.not_mem_nil

/-- What is wrong at the places of a program is noticed at tokens that it is drawn from. -/
theorem faultsAt_drawn (drawn : Stmt.AllDrawn ts false program) (way : List Nat) :
    ∀ e ∈ faultsAt program way, e.token ∈ ts := by
  intro e mem
  have site := drawn_siteAt drawn way
  rw [faultsAt, partAt_eq] at mem
  refine Part.token_of_faults site (fun inner => ?_) mem
  exact (bodyAt_eq program way).trans (of_decide_eq_true inner)

/-- At the place where a keyword may be made up nothing is wrong. -/
theorem faultsAt_implied {way : List Nat} {name keyword : Token} {params : List Token} {value : Expr}
    (h : partAt program way = .expression (.lambda ⟨name, params, [.returns keyword (some value)]⟩)) :
    faultsAt program (0 :: 0 :: 0 :: way) = [] := by
  have code : partAt program (0 :: way) = .function ⟨name, params, [.returns keyword (some value)]⟩ := by
    show (partAt program way).child 0 = _
    rw [h]
    rfl
  have body : partAt program (0 :: 0 :: way) = .statements [.returns keyword (some value)] := by
    show (partAt program (0 :: way)).child 0 = _
    rw [code]
    rfl
  have sole : partAt program (0 :: 0 :: 0 :: way) = .statement (.returns keyword (some value)) := by
    show (partAt program (0 :: 0 :: way)).child 0 = _
    rw [body]
    rfl
  have inside : bodyAt program (0 :: 0 :: 0 :: way) = .function := by
    rw [bodyAt, body, bodyAt, code, bodyAt, h]
    rfl
  rw [faultsAt, sole]
  show (if bodyAt program (0 :: 0 :: 0 :: way) = .program then [_]
    else if bodyAt program (0 :: 0 :: 0 :: way) = .initializer then [_] else []) = ([] : List ScopeError)
  rw [inside]
  rfl

/-! Warnings -/

theorem listed_child {way : List Nat} (listed : way ∈ Stmt.placesAll program) {i : Nat}
    (more : i ∈ (partAt program way).order) : i :: way ∈ Stmt.placesAll program :=
  @Part.places_closed (.statements program) way listed i more

theorem statement_of_mem {s : Stmt} : ∀ {ss : List Stmt} {way : List Nat},
    way ∈ Stmt.placesAll program → partAt program way = .statements ss → s ∈ ss →
      ∃ w ∈ Stmt.placesAll program, partAt program w = .statement s
  | s' :: ss, way, listed, part, mem => by
    have order : (partAt program way).order = [0, 1] := by rw [part]; rfl
    rcases List.mem_cons.mp mem with rfl | later
    · exact ⟨0 :: way, listed_child listed (order ▸ .head _), congrArg (·.child 0) part⟩
    · exact statement_of_mem (listed_child listed (order ▸ .tail _ (.head _)))
        (congrArg (·.child 1) part) later

theorem declarator_of_mem {d : Declarator} : ∀ {ds : List Declarator} {way : List Nat},
    way ∈ Stmt.placesAll program → partAt program way = .declarators ds → d ∈ ds →
      ∃ w ∈ Stmt.placesAll program, ∃ others, partAt program w = .declarators (d :: others)
  | d' :: ds, way, listed, part, mem => by
    rcases List.mem_cons.mp mem with rfl | later
    · exact ⟨way, listed, ds, part⟩
    · have next : 1 ∈ (partAt program way).order := by
        rw [part]
        obtain ⟨name, initial⟩ := d'
        cases initial with
        | none => exact .head _
        | some e => exact .tail _ (.head _)
      refine declarator_of_mem (listed_child listed next) ?_ later
      show (partAt program way).child 1 = _
      rw [part]
      obtain ⟨name, initial⟩ := d'
      cases initial <;> rfl

theorem declarator_of_statement {s : Stmt} {way : List Nat} {d : Declared}
    (listed : way ∈ Stmt.placesAll program) (part : partAt program way = .statement s)
    (mem : d ∈ s.declared) (tracked : d.tracked = true) :
    ∃ w ∈ Stmt.placesAll program, ∃ v others,
      partAt program w = .declarators (v :: others) ∧ d = v.declared := by
  have inside := @listed_child program way listed 0
  have next : partAt program (0 :: way) = (Part.statement s).child 0 := congrArg (·.child 0) part
  rw [part] at inside
  cases s with
  | declare v =>
    exact ⟨0 :: way, inside (.head _), v, [], next, List.mem_singleton.mp mem⟩
  | declareAll ds =>
    obtain ⟨v, among, rfl⟩ := List.mem_map.mp mem
    obtain ⟨w, listed', others, found⟩ := declarator_of_mem (inside (.head _)) next among
    exact ⟨w, listed', v, others, found, rfl⟩
  | declareFunction code =>
    rw [List.mem_singleton.mp mem] at tracked
    cases tracked
  | declareClass name methods statics =>
    rw [List.mem_singleton.mp mem] at tracked
    cases tracked
  | _ => exact absurd mem List.not_mem_nil

/-- The variables of a scope have their declarators in it. What else a scope binds, `this` among it, is no
variable. -/
theorem declarator_of_declared {o : List Nat} {d : Declared} (listed : o ∈ Stmt.placesAll program)
    (mem : d ∈ (partAt program o).declared) (tracked : d.tracked = true) :
    ∃ w ∈ Stmt.placesAll program, ∃ v others,
      partAt program w = .declarators (v :: others) ∧ d = v.declared := by
  -- A variable stands in the body, which is the first part of a block and of a function.
  have within {body : List Stmt} (first : 0 ∈ (partAt program o).order)
      (statements : (partAt program o).child 0 = .statements body)
      (among : d ∈ body.flatMap Stmt.declared) : ∃ w ∈ Stmt.placesAll program, ∃ v others,
        partAt program w = .declarators (v :: others) ∧ d = v.declared := by
    obtain ⟨s, inside, declared⟩ := List.mem_flatMap.mp among
    obtain ⟨w, listed', part⟩ := statement_of_mem
      (listed_child listed first) statements inside
    exact declarator_of_statement listed' part declared tracked
  cases part : partAt program o with
  | statement s =>
    rw [part] at mem within
    cases s with
    | block body => exact within (.head _) rfl mem
    | declareClass name methods statics =>
      rw [List.mem_singleton.mp mem] at tracked
      cases tracked
    | _ => exact absurd mem List.not_mem_nil
  | function f =>
    rw [part] at mem within
    obtain ⟨name, params, body⟩ := f
    rcases List.mem_append.mp mem with param | bound
    · obtain ⟨p, -, rfl⟩ := List.mem_map.mp param
      cases tracked
    · exact within (.head _) rfl bound
  | _ =>
    rw [part] at mem
    exact absurd mem List.not_mem_nil

/-- The walk warns of variables by the names of their declarators. -/
theorem declarator_of_warning (proper : Stmt.AllProper program) {w : Warning}
    (mem : w ∈ (Resolution.ofProgram program).2.warnings) :
    ∃ way ∈ Stmt.placesAll program, ∃ d others, partAt program way = .declarators (d :: others) ∧
      w = ⟨d.name.lexeme, d.name.line⟩ := by
  rw [warnings_ofProgram proper] at mem
  obtain ⟨o, closes, unused⟩ := List.mem_flatMap.mp mem
  obtain ⟨d, earlier, later, rfl, tracked, whole, -, -⟩ := mem_unusedAt.mp unused
  have listed := ((Part.mem_closings (.statements program)).mp closes).1
  obtain ⟨way, listed', v, others, part, rfl⟩ := declarator_of_declared listed
    (whole ▸ List.mem_append_right earlier List.mem_cons_self) tracked
  exact ⟨way, listed', v, others, part, rfl⟩

end LoxLang
