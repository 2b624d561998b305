import LoxLang.Proofs.Paring.Placing
import LoxLang.Proofs.Paring.Walking
import LoxLang.Proofs.Renaming.Invariance
/-!
A program from which a local variable was taken that is reported unused and is given no value. In a
program without faults it is declared once in its scope (`Surplus.given`), and there its declarator is what
gives way to its first value (`Surplus.body_apply`).

What is proved: the program without the variable has the same faults, and the same warnings but for that
of the variable, which was one of them (`Surplus.ofProgram_pares`).
-/
namespace LoxLang

open Resolve Resolution

/-! What a scope declares -/

theorem Stmt.names_declared (s : Stmt) : s.declared.map (·.name) = s.declares := by
  cases s with
  | declareAll ds =>
    simp [Stmt.declared, Stmt.declares, Stmt.locals, Stmt.callable?, Declarator.declared,
      Function.comp_def]
  | _ => rfl

theorem Stmt.names_declaredAll (ss : List Stmt) :
    (ss.flatMap Stmt.declared).map (·.name) = ss.flatMap Stmt.declares := by
  rw [List.map_flatMap]
  exact List.flatMap_congr fun s _ => s.names_declared

/-- A scope of a program without faults declares each name once. -/
theorem Site.nodup_declared {program : List Stmt}
    (accepted : (Resolution.ofProgram program).2.errors = []) {p : Site} (h : Within program p)
    (proper : p.part.Proper) : (p.part.declared.map (·.name)).Nodup := by
  have nodup := nodup_scope accepted h proper
  generalize p.part = part at nodup
  cases part with
  | function code =>
    obtain ⟨name, params, body⟩ := code
    rw [Part.declared, List.map_append, Stmt.names_declaredAll, Token.declaredParams, List.map_map]
    exact nodup
  | statement s =>
    cases s with
    | block body =>
      rw [Part.declared, Stmt.names_declaredAll]
      exact nodup
    | declareClass => exact List.nodup_singleton _
    | _ => exact List.nodup_nil
  | _ => exact List.nodup_nil

theorem Stmt.mem_locals_of_declared {d : Declared} (tracked : d.tracked = true) : ∀ {s : Stmt},
    d ∈ s.declared → ∃ t ∈ s.locals, t.lexeme = d.name
  | .declare d', mem => by
    rw [List.mem_singleton.mp mem]
    exact ⟨d'.name, .head _, rfl⟩
  | .declareAll ds, mem => by
    obtain ⟨d', mem', rfl⟩ := List.mem_map.mp mem
    exact ⟨d'.name, List.mem_map_of_mem mem', rfl⟩
  | .declareFunction _, mem | .declareClass _ _ _, mem => by
    rw [List.mem_singleton.mp mem] at tracked
    cases tracked

theorem Part.mem_locals_of_declared {d : Declared} (tracked : d.tracked = true) {part : Part}
    (mem : d ∈ part.declared) : ∃ t ∈ part.locals, t.lexeme = d.name := by
  have inside {body : List Stmt} (mem : d ∈ body.flatMap Stmt.declared) :
      ∃ t ∈ body.flatMap Stmt.locals, t.lexeme = d.name := by
    obtain ⟨s, here, mem⟩ := List.mem_flatMap.mp mem
    obtain ⟨t, mem, name⟩ := Stmt.mem_locals_of_declared tracked mem
    exact ⟨t, List.mem_flatMap.mpr ⟨s, here, mem⟩, name⟩
  cases part with
  | function code =>
    obtain ⟨name, params, body⟩ := code
    rcases List.mem_append.mp mem with param | mem
    · obtain ⟨t, _, rfl⟩ := List.mem_map.mp param
      cases tracked
    · obtain ⟨t, mem, name⟩ := inside mem
      exact ⟨t, List.mem_append_right _ mem, name⟩
  | statement s =>
    cases s with
    | block body => exact inside mem
    | declareClass =>
      rw [List.mem_singleton.mp mem] at tracked
      cases tracked
    | _ => cases mem
  | _ => cases mem

theorem Part.scoped?_of_declared {d : Declared} (tracked : d.tracked = true) {part : Part}
    (mem : d ∈ part.declared) : ∃ ss, part.scoped? = some ss := by
  cases part with
  | function => exact ⟨_, rfl⟩
  | statement s =>
    cases s with
    | block => exact ⟨_, rfl⟩
    | declareClass =>
      rw [List.mem_singleton.mp mem] at tracked
      cases tracked
    | _ => cases mem
  | _ => cases mem

/-- Where names are distinct, the one with this name is the only one. -/
theorem Declared.filter_of_nodup {earlier later : List Declared} {d : Declared}
    (nodup : ((earlier ++ d :: later).map (·.name)).Nodup) :
    ((earlier ++ d :: later).filter fun e => e.name == d.name) = [d] := by
  rw [List.map_append, List.map_cons, List.nodup_append, List.nodup_cons] at nodup
  obtain ⟨_, ⟨fresh, _⟩, apart⟩ := nodup
  have before : (earlier.filter fun e => e.name == d.name) = [] :=
    List.filter_eq_nil_iff.mpr fun e mem same =>
      apart e.name (List.mem_map_of_mem mem) d.name (.head _) (eq_of_beq same)
  have after : (later.filter fun e => e.name == d.name) = [] :=
    List.filter_eq_nil_iff.mpr fun e mem same => fresh (eq_of_beq same ▸ List.mem_map_of_mem mem)
  rw [List.filter_append, List.filter_cons, before, after, beq_self_eq_true]
  rfl

namespace Surplus

variable {v : Surplus} {program : List Stmt} {line : Nat}

/-- A variable that is reported unused, and to which no name belongs that is given a value. -/
theorem given (accepted : (Resolution.ofProgram program).2.errors = [])
    (proper : Stmt.AllProper program) (unused : v.warning line ∈ unusedAt program v.scope)
    (unassigned : ∀ way ∈ Stmt.placesAll program, ∀ name value depth,
      partAt program way = .expression (.assign name value depth) → name.lexeme = v.name →
        resolvesTo program way v.name ≠ some v.scope) : v.Given program line := by
  obtain ⟨d, earlier, later, same, tracked, whole, -, unread⟩ := mem_unusedAt.mp unused
  obtain ⟨name, d_line, d_tracked⟩ := d
  obtain ⟨rfl, rfl⟩ : v.name = name ∧ line = d_line :=
    ⟨congrArg Warning.name same, congrArg Warning.line same⟩
  obtain rfl : d_tracked = true := tracked
  have mem : Declared.mk v.name line true ∈ (partAt program v.scope).declared :=
    whole ▸ List.mem_append_right _ (.head _)
  have properPart := proper_siteAt proper v.scope
  have nodup := Site.nodup_declared accepted (within_siteAt program v.scope) properPart
  rw [← partAt_eq] at nodup properPart
  rw [whole] at nodup
  obtain ⟨t, variable_, lexeme⟩ := Part.mem_locals_of_declared rfl mem
  have ne_this : v.name ≠ Keyword.this.word := fun same =>
    (isName_of_variable properPart variable_).lexeme_ne .this (lexeme.trans same)
  refine ⟨proper, ne_this, ?_, unread, unassigned⟩
  rw [whole]
  exact Declared.filter_of_nodup nodup

/-- The statements at the top of a program, of whose names nothing is known. -/
theorem toplevel_pares (given : v.Given program line) : ∀ (ss : List Stmt) {here : List Nat}
    {place : Surroundings} {before : Resolution} {closing : List Locals},
    v.Visit program [] here ⟨.statements ss, place, before, closing⟩ →
      Pares (v.warning line) [] [] (v.closed here (Stmt.closingsAll ss))
        (Stmt.AllPared v.name [] true) (statements place ss)
        (statements place (Stmt.pareAll v false here ss)) before
  | [], _, _, _, _, _ => .pure (.nil true)
  | s :: ss, _, _, _, _, visit =>
    .part (statement_pares given s (visit.child 0 (.head _)) nofun) fun _ _ first =>
      .last (toplevel_pares given ss (visit.child 1 (.tail _ (.head _)))) fun _ _ rest =>
        .cons first rest

/-- Of the scope, the variable's declarator gives way to its first value. -/
theorem body_apply (scope : v.scope ∈ Stmt.closingsAll program)
    (unused : v.warning line ∈ unusedAt program v.scope) :
    ∃ ss, (partAt program v.scope).scoped? = some ss ∧
      (partAt (v.apply program) v.scope).scoped? = some (ss.flatMap (Stmt.without v.name)) := by
  obtain ⟨d, earlier, later, -, tracked, whole, -, -⟩ := mem_unusedAt.mp unused
  have mem : d ∈ (partAt program v.scope).declared := whole ▸ List.mem_append_right _ (.head _)
  obtain ⟨ss, there⟩ := Part.scoped?_of_declared tracked mem
  exact ⟨ss, there, partAt_apply ((Part.mem_closings (.statements program)).mp scope).1 there⟩

/-- A scope of a program is closed once. -/
theorem closed_once (scope : v.scope ∈ Stmt.closingsAll program) :
    v.closed [] (Stmt.closingsAll program) = 1 := by
  have nodup : (Stmt.closingsAll program).Nodup := by
    refine List.Pairwise.imp ?_ (Part.closings_ordered (.statements program))
    rintro a _ apart rfl
    exact apart List.suffix_rfl
  have once := List.count_eq_one_of_mem nodup scope
  simp only [closed, List.append_nil]
  exact once

/-- The walk over the program without the variable finds the same faults, and one warning less. -/
theorem ofProgram_pares (given : v.Given program line)
    (scope : v.scope ∈ Stmt.closingsAll program) :
    Stmt.AllPared v.name [] true (Resolution.ofProgram program).1
        (Resolution.ofProgram (v.apply program)).1 ∧
      (Resolution.ofProgram (v.apply program)).2.errors =
        (Resolution.ofProgram program).2.errors ∧
      ∃ before after,
        (Resolution.ofProgram program).2.warnings = before ++ v.warning line :: after ∧
        (Resolution.ofProgram (v.apply program)).2.warnings = before ++ after := by
  have visit : v.Visit program [] [] (.root program) :=
    ⟨Part.nil_mem_places (.statements program), rfl, rfl⟩
  have walked := toplevel_pares given program visit 0 .empty .empty
  rw [closed_once scope] at walked
  obtain ⟨⟨_, errors, warnings⟩, pared⟩ := walked
  exact ⟨pared, errors, warnings.split_of_one⟩

end Surplus

end LoxLang
