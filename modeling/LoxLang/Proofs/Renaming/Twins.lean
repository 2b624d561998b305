import LoxLang.Syntax
/-!
Programs that differ in the name of a variable. Two names are exchanged in some of the scopes of a
program, where they are declared and wherever an occurrence stands for what is declared there; all
other names are the same. Whether a scope is one of them is a mark: `marks` holds the marks of the
open scopes, the innermost first, and an occurrence finds the mark of its scope at its distance.

What is proved:
  1. an exchange of names is its own inverse and so never merges two names (`Exchange.swap_inj`), and
     it leaves `this` alone (`Exchange.swap_this`);
  2. every program is a twin of itself with no scope marked (`Stmt.twin_self` and its siblings).
-/
namespace LoxLang

/-- Two names to be exchanged, neither of which is `this`. -/
structure Exchange where
  old : String
  new : String
  old_ne : old ≠ Keyword.this.word
  new_ne : new ≠ Keyword.this.word

namespace Exchange

variable (σ : Exchange)

/-- A name in a scope that is marked or not. -/
def swap (mark : Bool) (x : String) : String :=
  if mark then if x = σ.old then σ.new else if x = σ.new then σ.old else x else x

/-- The mark of the scope that a distance leads to; the globals are not marked. -/
def mark (marks : List Bool) : Option Nat → Bool
  | some d => marks.getD d false
  | none => false

@[simp] theorem swap_false (x : String) : σ.swap false x = x := rfl

theorem swap_swap (mark : Bool) (x : String) : σ.swap mark (σ.swap mark x) = x := by
  cases mark with
  | false => rfl
  | true =>
    simp only [Exchange.swap, if_true]
    by_cases isOld : x = σ.old
    · by_cases same : σ.new = σ.old
      · simp [isOld, same]
      · simp [isOld, same]
    · by_cases isNew : x = σ.new
      · subst isNew
        simp [isOld]
      · simp [isOld, isNew]

theorem swap_inj {mark : Bool} {x z : String} : σ.swap mark x = σ.swap mark z ↔ x = z := by
  constructor
  · intro same
    have back := congrArg (σ.swap mark) same
    rwa [swap_swap, swap_swap] at back
  · intro same
    rw [same]

theorem swap_this (mark : Bool) : σ.swap mark Keyword.this.word = Keyword.this.word := by
  cases mark with
  | false => rfl
  | true => simp [Exchange.swap, σ.old_ne.symm, σ.new_ne.symm]

theorem swap_of_ne {x : String} (notOld : x ≠ σ.old) (notNew : x ≠ σ.new) (mark : Bool) :
    σ.swap mark x = x := by
  cases mark <;> simp [Exchange.swap, notOld, notNew]

theorem mark_of_unmarked {marks : List Bool} (h : ∀ b ∈ marks, b = false) (depth : Option Nat) :
    mark marks depth = false := by
  cases depth with
  | none => rfl
  | some d =>
    rw [mark, List.getD_eq_getElem?_getD]
    cases found : marks[d]? with
    | none => rfl
    | some b => exact h b (List.mem_of_getElem? found)

end Exchange

/-- The token stands for the same name, as far as the scope is concerned. -/
def Token.Twin (σ : Exchange) (mark : Bool) (t t' : Token) : Prop :=
  t'.lexeme = σ.swap mark t.lexeme

inductive Token.AllTwin (σ : Exchange) (mark : Bool) : List Token → List Token → Prop
  | nil : AllTwin σ mark [] []
  | cons {t t' : Token} {ts ts' : List Token} : Token.Twin σ mark t t' → AllTwin σ mark ts ts' →
    AllTwin σ mark (t :: ts) (t' :: ts')

mutual

/-- Expressions that differ in the names in marked scopes. -/
inductive Expr.Twin (σ : Exchange) : List Bool → Expr → Expr → Prop
  | literal {marks} (value : Literal) : Expr.Twin σ marks (.literal value) (.literal value)
  | group {marks inner inner'} : Expr.Twin σ marks inner inner' →
    Expr.Twin σ marks (.group inner) (.group inner')
  | unary {marks right right'} (op : Token) : Expr.Twin σ marks right right' →
    Expr.Twin σ marks (.unary op right) (.unary op right')
  | binary {marks left left' right right'} (op : Token) : Expr.Twin σ marks left left' →
    Expr.Twin σ marks right right' → Expr.Twin σ marks (.binary left op right) (.binary left' op right')
  | logical {marks left left' right right'} (op : Token) : Expr.Twin σ marks left left' →
    Expr.Twin σ marks right right' → Expr.Twin σ marks (.logical left op right) (.logical left' op right')
  | ternary {marks a a' b b' c c'} : Expr.Twin σ marks a a' → Expr.Twin σ marks b b' → Expr.Twin σ marks c c' →
    Expr.Twin σ marks (.ternary a b c) (.ternary a' b' c')
  | variable {marks name name' depth} : name.Twin σ (Exchange.mark marks depth) name' →
    Expr.Twin σ marks (.variable name depth) (.variable name' depth)
  | this {marks keyword depth} : keyword.Twin σ (Exchange.mark marks depth) keyword →
    Expr.Twin σ marks (.this keyword depth) (.this keyword depth)
  | assign {marks name name' value value' depth} : Expr.Twin σ marks value value' →
    name.Twin σ (Exchange.mark marks depth) name' →
    Expr.Twin σ marks (.assign name value depth) (.assign name' value' depth)
  | call {marks callee callee' arguments arguments'} (paren : Token) : Expr.Twin σ marks callee callee' →
    Expr.AllTwin σ marks arguments arguments' →
    Expr.Twin σ marks (.call callee paren arguments) (.call callee' paren arguments')
  | property {marks object object'} (name : Token) : Expr.Twin σ marks object object' →
    Expr.Twin σ marks (.property object name) (.property object' name)
  | setProperty {marks object object' value value'} (name : Token) : Expr.Twin σ marks object object' →
    Expr.Twin σ marks value value' →
    Expr.Twin σ marks (.setProperty object name value) (.setProperty object' name value')
  | lambda {marks code code'} : Function.Twin σ marks code code' →
    Expr.Twin σ marks (.lambda code) (.lambda code')

inductive Expr.AllTwin (σ : Exchange) : List Bool → List Expr → List Expr → Prop
  | nil {marks} : Expr.AllTwin σ marks [] []
  | cons {marks e e' es es'} : Expr.Twin σ marks e e' → Expr.AllTwin σ marks es es' →
    Expr.AllTwin σ marks (e :: es) (e' :: es')

/-- Statements that differ in the names in marked scopes. Functions and classes keep their names. -/
inductive Stmt.Twin (σ : Exchange) : List Bool → Stmt → Stmt → Prop
  | expression {marks value value'} : Expr.Twin σ marks value value' →
    Stmt.Twin σ marks (.expression value) (.expression value')
  | print {marks value value'} : Expr.Twin σ marks value value' →
    Stmt.Twin σ marks (.print value) (.print value')
  | declare {marks d d'} : Declarator.Twin σ marks d d' → Stmt.Twin σ marks (.declare d) (.declare d')
  | declareAll {marks ds ds'} : Declarator.AllTwin σ marks ds ds' →
    Stmt.Twin σ marks (.declareAll ds) (.declareAll ds')
  | block {marks body body'} (mark : Bool) : Stmt.AllTwin σ (mark :: marks) body body' →
    Stmt.Twin σ marks (.block body) (.block body')
  | onlyIf {marks condition condition' whenTrue whenTrue'} : Expr.Twin σ marks condition condition' →
    Stmt.Twin σ marks whenTrue whenTrue' →
    Stmt.Twin σ marks (.conditional condition whenTrue none) (.conditional condition' whenTrue' none)
  | orElse {marks condition condition' whenTrue whenTrue' whenFalse whenFalse'} :
    Expr.Twin σ marks condition condition' → Stmt.Twin σ marks whenTrue whenTrue' →
    Stmt.Twin σ marks whenFalse whenFalse' → Stmt.Twin σ marks
      (.conditional condition whenTrue (some whenFalse))
      (.conditional condition' whenTrue' (some whenFalse'))
  | loop {marks condition condition' body body'} : Expr.Twin σ marks condition condition' →
    Stmt.Twin σ marks body body' → Stmt.Twin σ marks (.loop condition body) (.loop condition' body')
  | declareFunction {marks code code'} : Function.Twin σ marks code code' →
    code.name.Twin σ (marks.headD false) code.name →
    Stmt.Twin σ marks (.declareFunction code) (.declareFunction code')
  | returns {marks} (keyword : Token) : Stmt.Twin σ marks (.returns keyword none) (.returns keyword none)
  | returnsValue {marks value value'} (keyword : Token) : Expr.Twin σ marks value value' →
    Stmt.Twin σ marks (.returns keyword (some value)) (.returns keyword (some value'))
  | declareClass {marks name methods methods' statics statics'} :
    Function.AllTwin σ (false :: marks) methods methods' →
    Function.AllTwin σ (false :: marks) statics statics' →
    name.Twin σ (marks.headD false) name →
    Stmt.Twin σ marks (.declareClass name methods statics) (.declareClass name methods' statics')

inductive Stmt.AllTwin (σ : Exchange) : List Bool → List Stmt → List Stmt → Prop
  | nil {marks} : Stmt.AllTwin σ marks [] []
  | cons {marks s s' ss ss'} : Stmt.Twin σ marks s s' → Stmt.AllTwin σ marks ss ss' →
    Stmt.AllTwin σ marks (s :: ss) (s' :: ss')

/-- Declarators that differ in the names in marked scopes. -/
inductive Declarator.Twin (σ : Exchange) : List Bool → Declarator → Declarator → Prop
  | plain {marks name name'} : name.Twin σ (marks.headD false) name' →
    Declarator.Twin σ marks ⟨name, none⟩ ⟨name', none⟩
  | initialized {marks name name' initial initial'} : name.Twin σ (marks.headD false) name' →
    Expr.Twin σ marks initial initial' → Declarator.Twin σ marks ⟨name, some initial⟩ ⟨name', some initial'⟩

inductive Declarator.AllTwin (σ : Exchange) : List Bool → List Declarator → List Declarator → Prop
  | nil {marks} : Declarator.AllTwin σ marks [] []
  | cons {marks d d' ds ds'} : Declarator.Twin σ marks d d' → Declarator.AllTwin σ marks ds ds' →
    Declarator.AllTwin σ marks (d :: ds) (d' :: ds')

/-- Functions that differ in the names in marked scopes. -/
inductive Function.Twin (σ : Exchange) : List Bool → Function → Function → Prop
  | code {marks name params params' body body'} (mark : Bool) :
    Token.AllTwin σ mark params params' → Stmt.AllTwin σ (mark :: marks) body body' →
    Function.Twin σ marks ⟨name, params, body⟩ ⟨name, params', body'⟩

inductive Function.AllTwin (σ : Exchange) : List Bool → List Function → List Function → Prop
  | nil {marks} : Function.AllTwin σ marks [] []
  | cons {marks f f' fs fs'} : Function.Twin σ marks f f' → Function.AllTwin σ marks fs fs' →
    Function.AllTwin σ marks (f :: fs) (f' :: fs')

end

/-! Every program is its own twin -/

section

variable {σ : Exchange} {marks : List Bool}

/-- No scope in sight is marked. -/
def Unmarked (marks : List Bool) : Prop := ∀ b ∈ marks, b = false

theorem Unmarked.nil : Unmarked [] := fun _ mem => nomatch mem

theorem Unmarked.cons (h : Unmarked marks) : Unmarked (false :: marks) :=
  List.forall_mem_cons.mpr ⟨rfl, h⟩

theorem Unmarked.head (h : Unmarked marks) : marks.headD false = false := by
  cases marks with
  | nil => rfl
  | cons b rest => exact h b List.mem_cons_self

theorem Token.twin_self (t : Token) : t.Twin σ false t := rfl

theorem Token.twin_at (h : Unmarked marks) (t : Token) (depth : Option Nat) :
    t.Twin σ (Exchange.mark marks depth) t := by
  rw [Exchange.mark_of_unmarked h]
  exact t.twin_self

theorem Token.twin_head (h : Unmarked marks) (t : Token) : t.Twin σ (marks.headD false) t := by
  rw [h.head]
  exact t.twin_self

theorem Token.allTwin_self : ∀ ts : List Token, Token.AllTwin σ false ts ts
  | [] => .nil
  | t :: ts => .cons t.twin_self (Token.allTwin_self ts)

mutual

theorem Expr.twin_self : ∀ {marks : List Bool} (e : Expr), Unmarked marks → Expr.Twin σ marks e e
  | _, .literal value, _ => .literal value
  | _, .group inner, h => .group (Expr.twin_self inner h)
  | _, .unary op right, h => .unary op (Expr.twin_self right h)
  | _, .binary left op right, h => .binary op (Expr.twin_self left h) (Expr.twin_self right h)
  | _, .logical left op right, h => .logical op (Expr.twin_self left h) (Expr.twin_self right h)
  | _, .ternary a b c, h => .ternary (Expr.twin_self a h) (Expr.twin_self b h) (Expr.twin_self c h)
  | _, .variable name depth, h => .variable (name.twin_at h depth)
  | _, .this keyword depth, h => .this (keyword.twin_at h depth)
  | _, .assign name value depth, h => .assign (Expr.twin_self value h) (name.twin_at h depth)
  | _, .call callee paren arguments, h =>
    .call paren (Expr.twin_self callee h) (Expr.allTwin_self arguments h)
  | _, .property object name, h => .property name (Expr.twin_self object h)
  | _, .setProperty object name value, h =>
    .setProperty name (Expr.twin_self object h) (Expr.twin_self value h)
  | _, .lambda code, h => .lambda (Function.twin_self code h)

theorem Expr.allTwin_self : ∀ {marks : List Bool} (es : List Expr), Unmarked marks →
    Expr.AllTwin σ marks es es
  | _, [], _ => .nil
  | _, e :: es, h => .cons (Expr.twin_self e h) (Expr.allTwin_self es h)

theorem Stmt.twin_self : ∀ {marks : List Bool} (s : Stmt), Unmarked marks → Stmt.Twin σ marks s s
  | _, .expression value, h => .expression (Expr.twin_self value h)
  | _, .print value, h => .print (Expr.twin_self value h)
  | _, .declare d, h => .declare (Declarator.twin_self d h)
  | _, .declareAll ds, h => .declareAll (Declarator.allTwin_self ds h)
  | _, .block body, h => .block false (Stmt.allTwin_self body h.cons)
  | _, .conditional condition whenTrue none, h =>
    .onlyIf (Expr.twin_self condition h) (Stmt.twin_self whenTrue h)
  | _, .conditional condition whenTrue (some whenFalse), h =>
    .orElse (Expr.twin_self condition h) (Stmt.twin_self whenTrue h) (Stmt.twin_self whenFalse h)
  | _, .loop condition body, h => .loop (Expr.twin_self condition h) (Stmt.twin_self body h)
  | _, .declareFunction code, h =>
    .declareFunction (Function.twin_self code h) (code.name.twin_head h)
  | _, .returns keyword none, _ => .returns keyword
  | _, .returns keyword (some value), h => .returnsValue keyword (Expr.twin_self value h)
  | _, .declareClass name methods statics, h =>
    .declareClass (Function.allTwin_self methods h.cons) (Function.allTwin_self statics h.cons)
      (name.twin_head h)

theorem Stmt.allTwin_self : ∀ {marks : List Bool} (ss : List Stmt), Unmarked marks →
    Stmt.AllTwin σ marks ss ss
  | _, [], _ => .nil
  | _, s :: ss, h => .cons (Stmt.twin_self s h) (Stmt.allTwin_self ss h)

theorem Declarator.twin_self : ∀ {marks : List Bool} (d : Declarator), Unmarked marks →
    Declarator.Twin σ marks d d
  | _, ⟨name, none⟩, h => .plain (name.twin_head h)
  | _, ⟨name, some initial⟩, h => .initialized (name.twin_head h) (Expr.twin_self initial h)

theorem Declarator.allTwin_self : ∀ {marks : List Bool} (ds : List Declarator), Unmarked marks →
    Declarator.AllTwin σ marks ds ds
  | _, [], _ => .nil
  | _, d :: ds, h => .cons (Declarator.twin_self d h) (Declarator.allTwin_self ds h)

theorem Function.twin_self : ∀ {marks : List Bool} (f : Function), Unmarked marks →
    Function.Twin σ marks f f
  | _, ⟨_, params, body⟩, h =>
    .code false (Token.allTwin_self params) (Stmt.allTwin_self body h.cons)

theorem Function.allTwin_self : ∀ {marks : List Bool} (fs : List Function), Unmarked marks →
    Function.AllTwin σ marks fs fs
  | _, [], _ => .nil
  | _, f :: fs, h => .cons (Function.twin_self f h) (Function.allTwin_self fs h)

end

end

end LoxLang
