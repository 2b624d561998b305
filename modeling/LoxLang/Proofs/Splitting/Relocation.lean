import LoxLang.Syntax
/-!
Trees whose tokens stand on other lines. A map of line numbers moves every token of a tree and leaves
the rest of it as it is; to move a tree by one map and then by another is to move it by both at once.
-/
namespace LoxLang

variable {f g : Nat → Nat}

/-- The token on another line. -/
def Token.relocate (f : Nat → Nat) (t : Token) : Token := { t with line := f t.line }

namespace Token

variable (f) (t : Token)

@[simp] theorem kind_relocate : (t.relocate f).kind = t.kind := rfl

@[simp] theorem lexeme_relocate : (t.relocate f).lexeme = t.lexeme := rfl

@[simp] theorem isKeyword_relocate (k : Keyword) : (t.relocate f).isKeyword k = t.isKeyword k := rfl

theorem relocate_relocate : (t.relocate f).relocate g = t.relocate (g ∘ f) := rfl

end Token

mutual

def Expr.relocate (f : Nat → Nat) : Expr → Expr
  | .literal value => .literal value
  | .group inner => .group (inner.relocate f)
  | .unary op right => .unary (op.relocate f) (right.relocate f)
  | .binary left op right => .binary (left.relocate f) (op.relocate f) (right.relocate f)
  | .logical left op right => .logical (left.relocate f) (op.relocate f) (right.relocate f)
  | .ternary condition whenTrue whenFalse =>
    .ternary (condition.relocate f) (whenTrue.relocate f) (whenFalse.relocate f)
  | .variable name depth => .variable (name.relocate f) depth
  | .this keyword depth => .this (keyword.relocate f) depth
  | .assign name value depth => .assign (name.relocate f) (value.relocate f) depth
  | .call callee paren arguments =>
    .call (callee.relocate f) (paren.relocate f) (Expr.relocateAll f arguments)
  | .property object name => .property (object.relocate f) (name.relocate f)
  | .setProperty object name value =>
    .setProperty (object.relocate f) (name.relocate f) (value.relocate f)
  | .lambda code => .lambda (code.relocate f)

def Expr.relocateAll (f : Nat → Nat) : List Expr → List Expr
  | [] => []
  | e :: es => e.relocate f :: Expr.relocateAll f es

def Stmt.relocate (f : Nat → Nat) : Stmt → Stmt
  | .expression value => .expression (value.relocate f)
  | .print value => .print (value.relocate f)
  | .declare d => .declare (d.relocate f)
  | .declareAll ds => .declareAll (Declarator.relocateAll f ds)
  | .block body => .block (Stmt.relocateAll f body)
  | .conditional condition whenTrue none =>
    .conditional (condition.relocate f) (whenTrue.relocate f) none
  | .conditional condition whenTrue (some whenFalse) =>
    .conditional (condition.relocate f) (whenTrue.relocate f) (some (whenFalse.relocate f))
  | .loop condition body => .loop (condition.relocate f) (body.relocate f)
  | .declareFunction code => .declareFunction (code.relocate f)
  | .returns keyword none => .returns (keyword.relocate f) none
  | .returns keyword (some value) => .returns (keyword.relocate f) (some (value.relocate f))
  | .declareClass name methods statics =>
    .declareClass (name.relocate f) (Function.relocateAll f methods)
      (Function.relocateAll f statics)

def Stmt.relocateAll (f : Nat → Nat) : List Stmt → List Stmt
  | [] => []
  | s :: ss => s.relocate f :: Stmt.relocateAll f ss

def Declarator.relocate (f : Nat → Nat) : Declarator → Declarator
  | ⟨name, none⟩ => ⟨name.relocate f, none⟩
  | ⟨name, some initial⟩ => ⟨name.relocate f, some (initial.relocate f)⟩

def Declarator.relocateAll (f : Nat → Nat) : List Declarator → List Declarator
  | [] => []
  | d :: ds => d.relocate f :: Declarator.relocateAll f ds

def Function.relocate (f : Nat → Nat) : Function → Function
  | ⟨name, params, body⟩ => ⟨name.relocate f, params.map (·.relocate f), Stmt.relocateAll f body⟩

def Function.relocateAll (f : Nat → Nat) : List Function → List Function
  | [] => []
  | code :: rest => code.relocate f :: Function.relocateAll f rest

end

/-! The parts of what is moved -/

@[simp]
theorem Function.name_relocate (code : Function) : (code.relocate f).name = code.name.relocate f := by
  obtain ⟨name, params, body⟩ := code
  simp only [Function.relocate]

@[simp]
theorem Function.params_relocate (code : Function) :
    (code.relocate f).params = code.params.map (·.relocate f) := by
  obtain ⟨name, params, body⟩ := code
  simp only [Function.relocate]

/-! Moving twice -/

theorem Token.relocate_comp (ts : List Token) :
    (ts.map (·.relocate f)).map (·.relocate g) = ts.map (·.relocate (g ∘ f)) := by
  rw [List.map_map]
  rfl

mutual

theorem Expr.relocate_relocate : ∀ e : Expr, (e.relocate f).relocate g = e.relocate (g ∘ f)
  | .literal _ => by simp only [Expr.relocate]
  | .group inner => by simp only [Expr.relocate, inner.relocate_relocate]
  | .unary op right => by
    simp only [Expr.relocate, Token.relocate_relocate, right.relocate_relocate]
  | .binary left op right => by
    simp only [Expr.relocate, Token.relocate_relocate, left.relocate_relocate,
      right.relocate_relocate]
  | .logical left op right => by
    simp only [Expr.relocate, Token.relocate_relocate, left.relocate_relocate,
      right.relocate_relocate]
  | .ternary condition whenTrue whenFalse => by
    simp only [Expr.relocate, condition.relocate_relocate, whenTrue.relocate_relocate,
      whenFalse.relocate_relocate]
  | .variable name depth => by simp only [Expr.relocate, Token.relocate_relocate]
  | .this keyword depth => by simp only [Expr.relocate, Token.relocate_relocate]
  | .assign name value depth => by
    simp only [Expr.relocate, Token.relocate_relocate, value.relocate_relocate]
  | .call callee paren arguments => by
    simp only [Expr.relocate, Token.relocate_relocate, callee.relocate_relocate,
      Expr.relocateAll_relocateAll arguments]
  | .property object name => by
    simp only [Expr.relocate, Token.relocate_relocate, object.relocate_relocate]
  | .setProperty object name value => by
    simp only [Expr.relocate, Token.relocate_relocate, object.relocate_relocate,
      value.relocate_relocate]
  | .lambda code => by simp only [Expr.relocate, code.relocate_relocate]

theorem Expr.relocateAll_relocateAll : ∀ es : List Expr,
    Expr.relocateAll g (Expr.relocateAll f es) = Expr.relocateAll (g ∘ f) es
  | [] => rfl
  | e :: es => by
    simp only [Expr.relocateAll, e.relocate_relocate, Expr.relocateAll_relocateAll es]

theorem Stmt.relocate_relocate : ∀ s : Stmt, (s.relocate f).relocate g = s.relocate (g ∘ f)
  | .expression value => by simp only [Stmt.relocate, value.relocate_relocate]
  | .print value => by simp only [Stmt.relocate, value.relocate_relocate]
  | .declare d => by simp only [Stmt.relocate, d.relocate_relocate]
  | .declareAll ds => by simp only [Stmt.relocate, Declarator.relocateAll_relocateAll ds]
  | .block body => by simp only [Stmt.relocate, Stmt.relocateAll_relocateAll body]
  | .conditional condition whenTrue none => by
    simp only [Stmt.relocate, condition.relocate_relocate, whenTrue.relocate_relocate]
  | .conditional condition whenTrue (some whenFalse) => by
    simp only [Stmt.relocate, condition.relocate_relocate, whenTrue.relocate_relocate,
      whenFalse.relocate_relocate]
  | .loop condition body => by
    simp only [Stmt.relocate, condition.relocate_relocate, body.relocate_relocate]
  | .declareFunction code => by simp only [Stmt.relocate, code.relocate_relocate]
  | .returns keyword none => by simp only [Stmt.relocate, Token.relocate_relocate]
  | .returns keyword (some value) => by
    simp only [Stmt.relocate, Token.relocate_relocate, value.relocate_relocate]
  | .declareClass name methods statics => by
    simp only [Stmt.relocate, Token.relocate_relocate, Function.relocateAll_relocateAll methods,
      Function.relocateAll_relocateAll statics]

theorem Stmt.relocateAll_relocateAll : ∀ ss : List Stmt,
    Stmt.relocateAll g (Stmt.relocateAll f ss) = Stmt.relocateAll (g ∘ f) ss
  | [] => rfl
  | s :: ss => by
    simp only [Stmt.relocateAll, s.relocate_relocate, Stmt.relocateAll_relocateAll ss]

theorem Declarator.relocate_relocate : ∀ d : Declarator,
    (d.relocate f).relocate g = d.relocate (g ∘ f)
  | ⟨name, none⟩ => by simp only [Declarator.relocate, Token.relocate_relocate]
  | ⟨name, some initial⟩ => by
    simp only [Declarator.relocate, Token.relocate_relocate, initial.relocate_relocate]

theorem Declarator.relocateAll_relocateAll : ∀ ds : List Declarator,
    Declarator.relocateAll g (Declarator.relocateAll f ds) = Declarator.relocateAll (g ∘ f) ds
  | [] => rfl
  | d :: ds => by
    simp only [Declarator.relocateAll, d.relocate_relocate, Declarator.relocateAll_relocateAll ds]

theorem Function.relocate_relocate : ∀ code : Function,
    (code.relocate f).relocate g = code.relocate (g ∘ f)
  | ⟨name, params, body⟩ => by
    simp only [Function.relocate, Token.relocate_relocate, Token.relocate_comp,
      Stmt.relocateAll_relocateAll body]

theorem Function.relocateAll_relocateAll : ∀ fs : List Function,
    Function.relocateAll g (Function.relocateAll f fs) = Function.relocateAll (g ∘ f) fs
  | [] => rfl
  | code :: rest => by
    simp only [Function.relocateAll, code.relocate_relocate, Function.relocateAll_relocateAll rest]

end

/-! Not moving at all -/

@[simp]
theorem Token.relocate_id (t : Token) : t.relocate id = t := rfl

mutual

theorem Expr.relocate_id : ∀ e : Expr, e.relocate id = e
  | .literal _ => by simp only [Expr.relocate]
  | .group inner => by simp only [Expr.relocate, inner.relocate_id]
  | .unary op right => by simp only [Expr.relocate, Token.relocate_id, right.relocate_id]
  | .binary left op right => by
    simp only [Expr.relocate, Token.relocate_id, left.relocate_id, right.relocate_id]
  | .logical left op right => by
    simp only [Expr.relocate, Token.relocate_id, left.relocate_id, right.relocate_id]
  | .ternary condition whenTrue whenFalse => by
    simp only [Expr.relocate, condition.relocate_id, whenTrue.relocate_id, whenFalse.relocate_id]
  | .variable name depth => by simp only [Expr.relocate, Token.relocate_id]
  | .this keyword depth => by simp only [Expr.relocate, Token.relocate_id]
  | .assign name value depth => by
    simp only [Expr.relocate, Token.relocate_id, value.relocate_id]
  | .call callee paren arguments => by
    simp only [Expr.relocate, Token.relocate_id, callee.relocate_id, Expr.relocateAll_id arguments]
  | .property object name => by
    simp only [Expr.relocate, Token.relocate_id, object.relocate_id]
  | .setProperty object name value => by
    simp only [Expr.relocate, Token.relocate_id, object.relocate_id, value.relocate_id]
  | .lambda code => by simp only [Expr.relocate, code.relocate_id]

theorem Expr.relocateAll_id : ∀ es : List Expr, Expr.relocateAll id es = es
  | [] => rfl
  | e :: es => by simp only [Expr.relocateAll, e.relocate_id, Expr.relocateAll_id es]

theorem Stmt.relocate_id : ∀ s : Stmt, s.relocate id = s
  | .expression value => by simp only [Stmt.relocate, value.relocate_id]
  | .print value => by simp only [Stmt.relocate, value.relocate_id]
  | .declare d => by simp only [Stmt.relocate, d.relocate_id]
  | .declareAll ds => by simp only [Stmt.relocate, Declarator.relocateAll_id ds]
  | .block body => by simp only [Stmt.relocate, Stmt.relocateAll_id body]
  | .conditional condition whenTrue none => by
    simp only [Stmt.relocate, condition.relocate_id, whenTrue.relocate_id]
  | .conditional condition whenTrue (some whenFalse) => by
    simp only [Stmt.relocate, condition.relocate_id, whenTrue.relocate_id, whenFalse.relocate_id]
  | .loop condition body => by simp only [Stmt.relocate, condition.relocate_id, body.relocate_id]
  | .declareFunction code => by simp only [Stmt.relocate, code.relocate_id]
  | .returns keyword none => by simp only [Stmt.relocate, Token.relocate_id]
  | .returns keyword (some value) => by
    simp only [Stmt.relocate, Token.relocate_id, value.relocate_id]
  | .declareClass name methods statics => by
    simp only [Stmt.relocate, Token.relocate_id, Function.relocateAll_id methods,
      Function.relocateAll_id statics]

theorem Stmt.relocateAll_id : ∀ ss : List Stmt, Stmt.relocateAll id ss = ss
  | [] => rfl
  | s :: ss => by simp only [Stmt.relocateAll, s.relocate_id, Stmt.relocateAll_id ss]

theorem Declarator.relocate_id : ∀ d : Declarator, d.relocate id = d
  | ⟨name, none⟩ => by simp only [Declarator.relocate, Token.relocate_id]
  | ⟨name, some initial⟩ => by
    simp only [Declarator.relocate, Token.relocate_id, initial.relocate_id]

theorem Declarator.relocateAll_id : ∀ ds : List Declarator, Declarator.relocateAll id ds = ds
  | [] => rfl
  | d :: ds => by simp only [Declarator.relocateAll, d.relocate_id, Declarator.relocateAll_id ds]

theorem Function.relocate_id : ∀ code : Function, code.relocate id = code
  | ⟨name, params, body⟩ => by
    simp only [Function.relocate, Token.relocate_id, List.map_id', Stmt.relocateAll_id body]

theorem Function.relocateAll_id : ∀ fs : List Function, Function.relocateAll id fs = fs
  | [] => rfl
  | code :: rest => by
    simp only [Function.relocateAll, code.relocate_id, Function.relocateAll_id rest]

end

end LoxLang
