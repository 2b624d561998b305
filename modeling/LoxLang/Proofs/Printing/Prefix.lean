import LoxLang.Proofs.Printing.Words
import LoxLang.Proofs.Syntax.Drawn
/-!
Prefix form is unambiguous. The prefix form of an expression is the text of a bracketed one: names and
constants are words, and all else is in parentheses. Of an expression that was read off a source, and has no
string in it, no function without a name and no number but finite ones, each of these words is solid, so that
the text tells the bracketed expression. Its heads alone do not tell the expression: an operator may have one
operand or two, an assignment begins as the setting of a property does, and a name may be any head that is
made of letters and no keyword.

What is proved:
1. prefix form is the text of a bracketed expression (`Expr.toList_prefixForm`), and of a readable one all
   words are words (`Expr.Readable.sound`);
2. the bracketed expression shows of what shape the expression is (`Expr.shape_bracketed`), and by
   induction on the tree all of it but for the lines of its tokens (`Expr.eq_of_bracketed`);
3. what was read off two sources, and has the same prefix form, is the same but for the lines of its tokens
   (`Expr.prefixForm_unambiguous`).
-/
namespace LoxLang

open Bracketed

/-- All tokens but those at the end are spelled. -/
def Token.AllSpelled (ts : List Token) : Prop := ∀ t ∈ ts, t.kind ≠ .eof → t.Spelled

/-- What an expression is at its root. -/
inductive Expr.Shape where
  | constant | group | unary | binary | logical | ternary | variable | this | assign | call | property
  | setProperty | lambda

namespace Expr

def shape : Expr → Shape
  | .literal _ => .constant
  | .group _ => .group
  | .unary .. => .unary
  | .binary .. => .binary
  | .logical .. => .logical
  | .ternary .. => .ternary
  | .variable .. => .variable
  | .this .. => .this
  | .assign .. => .assign
  | .call .. => .call
  | .property .. => .property
  | .setProperty .. => .setProperty
  | .lambda _ => .lambda

mutual

/-- The prefix form of an expression with its parts apart. Functions without a name are taken whole. -/
def bracketed : Expr → Bracketed
  | .literal value => .word value.text
  | .group inner => .form "group" [inner.bracketed]
  | .unary op right => .form op.lexeme [right.bracketed]
  | .binary left op right | .logical left op right => .form op.lexeme [left.bracketed, right.bracketed]
  | .ternary condition whenTrue whenFalse =>
    .form "?:" [condition.bracketed, whenTrue.bracketed, whenFalse.bracketed]
  | .variable name _ => .word name.lexeme
  | .this _ _ => .word "this"
  | .assign name value _ => .form "=" [.word name.lexeme, value.bracketed]
  | .call callee _ arguments => .form "call" (callee.bracketed :: bracketedAll arguments)
  | .property object name => .form "." [object.bracketed, .word name.lexeme]
  | .setProperty object name value =>
    .form "=" [.form "." [object.bracketed, .word name.lexeme], value.bracketed]
  | .lambda code => .word (Expr.lambda code).prefixForm

/-- The prefix forms of expressions with their parts apart. -/
def bracketedAll : List Expr → List Bracketed
  | [] => []
  | e :: es => e.bracketed :: bracketedAll es

end

mutual

/-- Prefix form is the text of a bracketed expression. -/
theorem toList_prefixForm : ∀ e : Expr, e.prefixForm.toList = e.bracketed.chars
  | .literal _ | .variable .. | .this .. | .lambda _ => by
    simp only [bracketed, chars, prefixForm]
  | .group inner => by
    simp [bracketed, chars, charsAll, prefixForm, inner.toList_prefixForm]
  | .unary op right => by
    simp [bracketed, chars, charsAll, prefixForm, right.toList_prefixForm]
  | .binary left op right | .logical left op right => by
    simp [bracketed, chars, charsAll, prefixForm, left.toList_prefixForm, right.toList_prefixForm]
  | .ternary condition whenTrue whenFalse => by
    simp [bracketed, chars, charsAll, prefixForm, condition.toList_prefixForm,
      whenTrue.toList_prefixForm, whenFalse.toList_prefixForm]
  | .assign name value _ => by
    simp [bracketed, chars, charsAll, prefixForm, value.toList_prefixForm]
  | .call callee _ arguments => by
    simp [bracketed, chars, charsAll, prefixForm, callee.toList_prefixForm,
      toList_prefixForms arguments]
  | .property object name => by
    simp [bracketed, chars, charsAll, prefixForm, object.toList_prefixForm]
  | .setProperty object name value => by
    simp [bracketed, chars, charsAll, prefixForm, object.toList_prefixForm, value.toList_prefixForm]

theorem toList_prefixForms : ∀ es : List Expr, (prefixForms es).toList = charsAll (bracketedAll es)
  | [] => rfl
  | e :: es => by
    simp [bracketedAll, charsAll, prefixForms, e.toList_prefixForm, toList_prefixForms es]

end

/-! Expressions that show in their prefix form -/

mutual

/-- Whether an expression has no string in it, no function without a name, and no number but finite ones. -/
def legible : Expr → Bool
  | .literal value => value.legible
  | .group inner => inner.legible
  | .unary _ right => right.legible
  | .binary left _ right | .logical left _ right => left.legible && right.legible
  | .ternary condition whenTrue whenFalse =>
    condition.legible && (whenTrue.legible && whenFalse.legible)
  | .variable .. | .this .. => true
  | .assign _ value _ => value.legible
  | .call callee _ arguments => callee.legible && legibleAll arguments
  | .property object _ => object.legible
  | .setProperty object _ value => object.legible && value.legible
  | .lambda _ => false

def legibleAll : List Expr → Bool
  | [] => true
  | e :: es => e.legible && legibleAll es

end

mutual

/-- A legible expression, the tokens of which are spelled as their places ask for. -/
def Readable : Expr → Prop
  | .literal value => value.legible = true
  | .group inner => inner.Readable
  | .unary op right => op.IsSign ∧ right.Readable
  | .binary left op right => left.Readable ∧ op.IsSign ∧ right.Readable
  | .logical left op right => left.Readable ∧ op.IsConnective ∧ right.Readable
  | .ternary condition whenTrue whenFalse =>
    condition.Readable ∧ whenTrue.Readable ∧ whenFalse.Readable
  | .variable name depth => name.IsReference ∧ depth = none
  | .this keyword depth => (keyword.Spelled ∧ keyword.kind = .keyword .this) ∧ depth = none
  | .assign name value depth => name.IsReference ∧ value.Readable ∧ depth = none
  | .call callee paren arguments =>
    callee.Readable ∧ (paren.Spelled ∧ paren.kind = .symbol .rightParen) ∧ AllReadable arguments
  | .property object name => object.Readable ∧ name.IsReference
  | .setProperty object name value => object.Readable ∧ name.IsReference ∧ value.Readable
  | .lambda _ => False

/-- Legible expressions, the tokens of which are spelled as their places ask for. -/
def AllReadable : List Expr → Prop
  | [] => True
  | e :: es => e.Readable ∧ AllReadable es

end

section

variable {ts : List Token} {t : Token} (spelled : Token.AllSpelled ts) (among : t ∈ ts)

include spelled among

theorem isReference_of_mem (is : t.IsName) : t.IsReference :=
  ⟨spelled t among (by rw [is.1]; exact Kind.noConfusion), is.1⟩

theorem isSign_of_mem (is : ∃ s : Symbol, t.kind = .symbol s ∧ s.operates = true) : t.IsSign := by
  obtain ⟨s, kind, operates⟩ := is
  exact ⟨spelled t among (by rw [kind]; exact Kind.noConfusion), s, kind, operates⟩

theorem isConnective_of_mem (is : t.IsLogical) : t.IsConnective := by
  refine ⟨spelled t among fun eof => ?_, is.kind⟩
  rcases is.kind with kind | kind <;> (rw [kind] at eof; cases eof)

end

variable {ts : List Token}

mutual

/-- The tokens of an expression that was read without a fault are spelled as their places ask for. -/
theorem readable (spelled : Token.AllSpelled ts) : ∀ e : Expr, e.Proper → e.Drawn ts →
    e.legible = true → e.Readable
  | .literal _, _, _, legible => legible
  | .group inner, proper, drawn, legible => readable spelled inner proper drawn legible
  | .unary _ right, proper, drawn, legible =>
    ⟨isSign_of_mem spelled drawn.1 (Token.operates_of_isUnaryOperator proper.1),
      readable spelled right proper.2 drawn.2 legible⟩
  | .binary left _ right, ⟨hl, ho, hr⟩, ⟨dl, among, dr⟩, legible => by
    obtain ⟨first, second⟩ := Bool.and_eq_true_iff.mp legible
    exact ⟨readable spelled left hl dl first, isSign_of_mem spelled among ho.operates,
      readable spelled right hr dr second⟩
  | .logical left _ right, ⟨hl, ho, hr⟩, ⟨dl, among, dr⟩, legible => by
    obtain ⟨first, second⟩ := Bool.and_eq_true_iff.mp legible
    exact ⟨readable spelled left hl dl first, isConnective_of_mem spelled among ho,
      readable spelled right hr dr second⟩
  | .ternary condition whenTrue whenFalse, ⟨hc, ht, hf⟩, ⟨dc, dt, df⟩, legible => by
    obtain ⟨first, others⟩ := Bool.and_eq_true_iff.mp legible
    obtain ⟨second, third⟩ := Bool.and_eq_true_iff.mp others
    exact ⟨readable spelled condition hc dc first, readable spelled whenTrue ht dt second,
      readable spelled whenFalse hf df third⟩
  | .variable _ _, ⟨is, fresh⟩, among, _ => ⟨isReference_of_mem spelled among is, fresh⟩
  | .this keyword _, ⟨is, fresh⟩, among, _ =>
    ⟨⟨spelled keyword among (by rw [is.1]; exact Kind.noConfusion), is.1⟩, fresh⟩
  | .assign _ value _, ⟨is, hv, fresh⟩, ⟨among, dv⟩, legible =>
    ⟨isReference_of_mem spelled among is, readable spelled value hv dv legible, fresh⟩
  | .call callee paren arguments, ⟨hc, _, ha⟩, ⟨dc, ⟨among, is⟩, da⟩, legible => by
    obtain ⟨first, others⟩ := Bool.and_eq_true_iff.mp legible
    have kind := Token.kind_of_isSymbol is
    exact ⟨readable spelled callee hc dc first,
      ⟨spelled paren among (by rw [kind]; exact Kind.noConfusion), kind⟩,
      allReadable spelled arguments ha da others⟩
  | .property object _, ⟨ho, is⟩, ⟨d, among⟩, legible =>
    ⟨readable spelled object ho d legible, isReference_of_mem spelled among is⟩
  | .setProperty object _ value, ⟨ho, is, hv⟩, ⟨d, among, dv⟩, legible => by
    obtain ⟨first, second⟩ := Bool.and_eq_true_iff.mp legible
    exact ⟨readable spelled object ho d first, isReference_of_mem spelled among is,
      readable spelled value hv dv second⟩
  | .lambda _, _, _, legible => Bool.noConfusion legible

theorem allReadable (spelled : Token.AllSpelled ts) : ∀ es : List Expr, AllProper es → AllDrawn ts es →
    legibleAll es = true → AllReadable es
  | [], _, _, _ => trivial
  | e :: es, ⟨first, others⟩, ⟨drawn, drawn'⟩, legible => by
    obtain ⟨legible, legible'⟩ := Bool.and_eq_true_iff.mp legible
    exact ⟨readable spelled e first drawn legible, allReadable spelled es others drawn' legible'⟩

end

/-! The bracketed expression -/

mutual

theorem Readable.sound : ∀ {e : Expr}, e.Readable → e.bracketed.Sound
  | .literal _, h => (Literal.isWord_text h).1
  | .group inner, h => ⟨by decide, Readable.sound (e := inner) h, trivial⟩
  | .unary _ _, h => ⟨h.1.isWord, h.2.sound, trivial⟩
  | .binary _ _ _, h => ⟨h.2.1.isWord, h.1.sound, h.2.2.sound, trivial⟩
  | .logical _ _ _, h => ⟨h.2.1.isWord, h.1.sound, h.2.2.sound, trivial⟩
  | .ternary _ _ _, h => ⟨by decide, h.1.sound, h.2.1.sound, h.2.2.sound, trivial⟩
  | .variable _ _, h => h.1.isWord
  | .this _ _, _ => show IsWord "this" by decide
  | .assign _ _ _, h => ⟨by decide, h.1.isWord, h.2.1.sound, trivial⟩
  | .call _ _ _, h => ⟨by decide, h.1.sound, AllReadable.sound h.2.2⟩
  | .property _ _, h => ⟨by decide, h.1.sound, h.2.isWord, trivial⟩
  | .setProperty _ _ _, h => ⟨by decide, ⟨by decide, h.1.sound, h.2.1.isWord, trivial⟩, h.2.2.sound, trivial⟩

theorem AllReadable.sound : ∀ {es : List Expr}, AllReadable es → SoundAll (bracketedAll es)
  | [], _ => trivial
  | _ :: _, h => ⟨h.1.sound, h.2.sound⟩

end

end Expr

/-- The shape of the expression that a bracketed one is. -/
def Bracketed.shape : Bracketed → Expr.Shape
  | .word text => if isConstant text then .constant else if text = "this" then .this else .variable
  | .form head parts =>
    if head = "group" then .group
    else if head = "?:" then .ternary
    else if head = "call" then .call
    else if head = "." then .property
    else if head = "=" then
      match parts with
      | .form _ _ :: _ => .setProperty
      | _ => .assign
    else if head = "or" ∨ head = "and" then .logical
    else if parts.length = 1 then .unary else .binary

theorem Token.IsSign.shape {op : Token} (h : op.IsSign) (parts : List Bracketed) :
    (form op.lexeme parts).shape = if parts.length = 1 then .unary else .binary := by
  obtain ⟨s, operates, text⟩ := h.text
  rw [text]
  revert operates
  cases s <;> first | exact fun _ => rfl | exact Bool.noConfusion

theorem Token.IsConnective.shape {op : Token} (h : op.IsConnective) (parts : List Bracketed) :
    (form op.lexeme parts).shape = .logical := by
  rcases h.text with text | text <;> (rw [text]; rfl)

namespace Expr

/-- The shape of a readable expression shows in its prefix form. -/
theorem shape_bracketed : ∀ {e : Expr}, e.Readable → e.bracketed.shape = e.shape
  | .literal _, h => if_pos (Literal.isWord_text h).2
  | .unary _ _, h => h.1.shape _
  | .binary _ _ _, h => h.2.1.shape _
  | .logical _ _ _, h => h.2.1.shape _
  | .variable name _, h => by
    have noKeyword := (h.1.1.identifier h.1.2).2 .this
    simp only [bracketed, Bracketed.shape, h.1.not_isConstant]
    exact if_neg noKeyword
  | .group _, _ | .ternary _ _ _, _ | .this _ _, _ | .assign _ _ _, _ | .call _ _ _, _ | .property _ _, _
  | .setProperty _ _ _, _ => rfl

mutual

/-- A readable expression is told by its bracketed form, but for the lines of its tokens. -/
theorem eq_of_bracketed : ∀ e e' : Expr, e.Readable → e'.Readable → e.bracketed = e'.bracketed →
    (e.relocate fun _ => 1) = e'.relocate fun _ => 1
  | e, e', h, h', same => by
    -- The shapes agree, which leaves one case for each; the rest is what the parts have in common.
    have shapes : e.shape = e'.shape := by
      rw [← shape_bracketed h, ← shape_bracketed h', same]
    cases e with
    | literal v =>
      cases e' with
      | literal v' => rw [Literal.text_injective h h' (word.inj same)]
      | _ => cases shapes
    | group inner =>
      cases e' with
      | group inner' =>
        simp only [bracketed, form.injEq, List.cons.injEq, and_true, true_and] at same
        simp only [relocate, eq_of_bracketed inner inner' h h' same]
      | _ => cases shapes
    | unary op right =>
      cases e' with
      | unary op' right' =>
        simp only [bracketed, form.injEq, List.cons.injEq, and_true] at same
        simp only [relocate, h.1.1.relocate_eq h'.1.1 same.1, eq_of_bracketed right right' h.2 h'.2 same.2]
      | _ => cases shapes
    | binary left op right =>
      cases e' with
      | binary left' op' right' =>
        simp only [bracketed, form.injEq, List.cons.injEq, and_true] at same
        obtain ⟨ops, lefts, rights⟩ := same
        simp only [relocate, h.2.1.1.relocate_eq h'.2.1.1 ops, eq_of_bracketed left left' h.1 h'.1 lefts,
          eq_of_bracketed right right' h.2.2 h'.2.2 rights]
      | _ => cases shapes
    | logical left op right =>
      cases e' with
      | logical left' op' right' =>
        simp only [bracketed, form.injEq, List.cons.injEq, and_true] at same
        obtain ⟨ops, lefts, rights⟩ := same
        simp only [relocate, h.2.1.1.relocate_eq h'.2.1.1 ops, eq_of_bracketed left left' h.1 h'.1 lefts,
          eq_of_bracketed right right' h.2.2 h'.2.2 rights]
      | _ => cases shapes
    | ternary condition whenTrue whenFalse =>
      cases e' with
      | ternary condition' whenTrue' whenFalse' =>
        simp only [bracketed, form.injEq, List.cons.injEq, and_true, true_and] at same
        obtain ⟨conditions, whensTrue, whensFalse⟩ := same
        simp only [relocate, eq_of_bracketed condition condition' h.1 h'.1 conditions,
          eq_of_bracketed whenTrue whenTrue' h.2.1 h'.2.1 whensTrue,
          eq_of_bracketed whenFalse whenFalse' h.2.2 h'.2.2 whensFalse]
      | _ => cases shapes
    | «variable» name depth =>
      cases e' with
      | «variable» name' depth' =>
        simp only [relocate, h.1.1.relocate_eq h'.1.1 (word.inj same), h.2, h'.2]
      | _ => cases shapes
    | this keyword depth =>
      cases e' with
      | this keyword' depth' =>
        have words := (h.1.1.keyword h.1.2).trans (h'.1.1.keyword h'.1.2).symm
        simp only [relocate, h.1.1.relocate_eq h'.1.1 words, h.2, h'.2]
      | _ => cases shapes
    | assign name value depth =>
      cases e' with
      | assign name' value' depth' =>
        simp only [bracketed, form.injEq, word.injEq, List.cons.injEq, and_true, true_and] at same
        simp only [relocate, h.1.1.relocate_eq h'.1.1 same.1, h.2.2, h'.2.2,
          eq_of_bracketed value value' h.2.1 h'.2.1 same.2]
      | _ => cases shapes
    | call callee paren arguments =>
      cases e' with
      | call callee' paren' arguments' =>
        have parens := (h.2.1.1.symbol h.2.1.2).trans (h'.2.1.1.symbol h'.2.1.2).symm
        simp only [bracketed, form.injEq, List.cons.injEq, true_and] at same
        simp only [relocate, h.2.1.1.relocate_eq h'.2.1.1 parens,
          eq_of_bracketed callee callee' h.1 h'.1 same.1,
          eq_of_bracketedAll arguments arguments' h.2.2 h'.2.2 same.2]
      | _ => cases shapes
    | property object name =>
      cases e' with
      | property object' name' =>
        simp only [bracketed, form.injEq, word.injEq, List.cons.injEq, and_true, true_and] at same
        simp only [relocate, h.2.1.relocate_eq h'.2.1 same.2, eq_of_bracketed object object' h.1 h'.1 same.1]
      | _ => cases shapes
    | setProperty object name value =>
      cases e' with
      | setProperty object' name' value' =>
        simp only [bracketed, form.injEq, word.injEq, List.cons.injEq, and_true, true_and] at same
        obtain ⟨⟨objects, names⟩, values⟩ := same
        simp only [relocate, h.2.1.1.relocate_eq h'.2.1.1 names,
          eq_of_bracketed object object' h.1 h'.1 objects, eq_of_bracketed value value' h.2.2 h'.2.2 values]
      | _ => cases shapes
    | lambda code => exact h.elim

theorem eq_of_bracketedAll : ∀ es es' : List Expr, AllReadable es → AllReadable es' →
    bracketedAll es = bracketedAll es' → relocateAll (fun _ => 1) es = relocateAll (fun _ => 1) es'
  | [], [], _, _, _ => rfl
  | [], _ :: _, _, _, same => by cases same
  | _ :: _, [], _, _, same => by cases same
  | e :: es, e' :: es', h, h', same => by
    obtain ⟨first, others⟩ := List.cons.inj same
    simp only [relocateAll, eq_of_bracketed e e' h.1 h'.1 first, eq_of_bracketedAll es es' h.2 h'.2 others]

end

/-- What is read off a source is readable if it is legible. -/
theorem readable_of_ofTokens {source : String} {e : Expr}
    (read : Expr.ofTokens (Scan.ofSource source).tokens = .ok e) (legible : e.legible = true) :
    e.Readable := by
  have drawn := drawn_of_ofTokens (Scan.ended_ofSource source)
  have proper := proper_of_ofTokens (fun _ among => genuine_of_mem_scan among) read
  rw [read] at drawn
  exact readable (fun _ among inner => Scan.spelled_of_mem among inner) e proper drawn legible

/-- Prefix form is unambiguous. If two expressions that were read off sources have the same prefix form, and
neither has a string in it, a function without a name or a number that is not finite, then they are the same
expression, with tokens that may stand on other lines. -/
theorem prefixForm_unambiguous {source source' : String} {e e' : Expr}
    (read : Expr.ofTokens (Scan.ofSource source).tokens = .ok e)
    (read' : Expr.ofTokens (Scan.ofSource source').tokens = .ok e')
    (legible : e.legible = true) (legible' : e'.legible = true) (same : e.prefixForm = e'.prefixForm) :
    (e.relocate fun _ => 1) = e'.relocate fun _ => 1 := by
  have readable := readable_of_ofTokens read legible
  have readable' := readable_of_ofTokens read' legible'
  have texts : e.bracketed.chars = e'.bracketed.chars := by
    rw [← toList_prefixForm, ← toList_prefixForm, same]
  exact eq_of_bracketed e e' readable readable' (chars_injective readable.sound readable'.sound texts)

/-- Names may be what heads are, numbers may be written in two ways and lines broken elsewhere. -/
theorem prefixForm_unambiguous_group :
    let source := "group.call = -f(x, 2.5) ? 0 : this"
    let source' := "group . call =\n  - f(x,\n 2.50) ? 00\n : this;"
    let parse (source : String) := Expr.ofTokens (Scan.ofSource source).tokens
    ∃ e e', parse source = .ok e ∧ parse source' = .ok e' ∧ e.legible = true ∧ e'.legible = true ∧
      e.prefixForm = "(= (. group call) (?: (- (call f x 2.5)) 0 this))" ∧ e.prefixForm = e'.prefixForm ∧
      (e.relocate fun _ => 1) = e'.relocate fun _ => 1 := by
  intro source source' parse
  let text := "(= (. group call) (?: (- (call f x 2.5)) 0 this))"
  have shows (source : String) (shown : (parse source).toOption.map (fun e => (e.legible, e.prefixForm)) =
      some (true, text)) : ∃ e, parse source = .ok e ∧ e.legible = true ∧ e.prefixForm = text := by
    cases read : parse source with
    | error es =>
      rw [read] at shown
      cases shown
    | ok e =>
      rw [read] at shown
      obtain ⟨legible, same⟩ := Prod.mk.inj (Option.some.inj shown)
      exact ⟨e, rfl, legible, same⟩
  obtain ⟨e, read, legible, same⟩ := shows source (by decide +kernel)
  obtain ⟨e', read', legible', same'⟩ := shows source' (by decide +kernel)
  have texts := same.trans same'.symm
  exact ⟨e, e', read, read', legible, legible', same, texts,
    prefixForm_unambiguous read read' legible legible' texts⟩

end Expr

end LoxLang
