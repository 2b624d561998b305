import LoxLang.Diagnostic
import LoxLang.Syntax
/-!
Reading trees off tokens. A `Parse` reads from a cursor over the tokens in front of the end; it
gives a value, or fails at the token under the cursor. Faults that do not stop it are collected
with the cursor. `starved` is the answer of a rule that ran out of the depth it was given.
-/
namespace LoxLang

/-- The tokens still to be read and the faults found so far, in the order they were found. -/
structure Cursor where
  rest : List Token
  errors : List SyntaxError

inductive Reply (α : Type) where
  | ok (value : α) (next : Cursor)
  | fail (error : SyntaxError) (next : Cursor)
  | starved

/-- A way to read an `α`. -/
def Parse (α : Type) : Type := Cursor → Reply α

namespace Parse

@[always_inline, inline]
protected def pure {α : Type} (a : α) : Parse α := fun c => .ok a c

@[always_inline, inline]
protected def bind {α β : Type} (p : Parse α) (f : α → Parse β) : Parse β := fun c =>
  match p c with
  | .ok a next => f a next
  | .fail e next => .fail e next
  | .starved => .starved

@[always_inline]
instance : Monad Parse where
  pure := Parse.pure
  bind := Parse.bind

@[simp]
theorem pure_apply {α : Type} (a : α) (c : Cursor) : (pure a : Parse α) c = .ok a c := rfl

theorem bind_apply {α β : Type} (p : Parse α) (f : α → Parse β) (c : Cursor) :
    (p >>= f) c =
      match p c with
      | .ok a next => f a next
      | .fail e next => .fail e next
      | .starved => .starved := rfl

instance : LawfulMonad Parse :=
  LawfulMonad.mk' Parse
    (by
      intro α p; funext c
      show Parse.bind p Parse.pure c = p c
      unfold Parse.bind; cases p c <;> rfl)
    (by intros; rfl)
    (by
      intro α β γ p f g; funext c
      show Parse.bind (Parse.bind p f) g c = Parse.bind p (fun a => Parse.bind (f a) g) c
      unfold Parse.bind; cases p c <;> rfl)

/-- The rule that has no depth left. -/
def starved {α : Type} : Parse α := fun _ => .starved

/-- Notes a fault at a token and goes on. -/
def report (fault : SyntaxFault) (token : Token) : Parse Unit := fun c =>
  .ok () ⟨c.rest, c.errors ++ [⟨fault, token⟩]⟩

/-- Whether the token under the cursor satisfies `p`; false at the end. -/
def next (p : Token → Bool) : Parse Bool := fun c =>
  match c.rest with
  | t :: _ => .ok (p t) c
  | [] => .ok false c

/-- Reads the token under the cursor if it satisfies `p`. -/
def take? (p : Token → Bool) : Parse (Option Token) := fun c =>
  match c.rest with
  | t :: ts => if p t then .ok (some t) ⟨ts, c.errors⟩ else .ok none c
  | [] => .ok none c

/-- Reads the token under the cursor if it satisfies `p`, and tells whether it did. -/
def accept (p : Token → Bool) : Parse Bool := fun c =>
  match c.rest with
  | t :: ts => if p t then .ok true ⟨ts, c.errors⟩ else .ok false c
  | [] => .ok false c

section

variable (last : Token)

/-- The token under the cursor, `last` at the end. -/
def peek : Parse Token := fun c => .ok (c.rest.headD last) c

/-- Fails at the token under the cursor. -/
def fail {α : Type} (fault : SyntaxFault) : Parse α := fun c =>
  .fail ⟨fault, c.rest.headD last⟩ c

/-- Reads the token under the cursor, which has to satisfy `p`. -/
def expect (p : Token → Bool) (fault : SyntaxFault) : Parse Token := fun c =>
  match c.rest with
  | t :: ts => if p t then .ok t ⟨ts, c.errors⟩ else .fail ⟨fault, t⟩ c
  | [] => .fail ⟨fault, last⟩ c

end

end Parse

end LoxLang
