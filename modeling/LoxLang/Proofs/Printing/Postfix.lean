import LoxLang.Proofs.Printing.Prefix
/-!
Postfix form can be read back. Between its blanks stand words, and these are read from the left with a stack: an
operand is pushed, an operator takes its operands from the stack and pushes what it makes of them. What an
expression of constants, names and operators is written as leaves the expression on the stack, without its
groups. The sign of negation differs from that of a difference for this, and no operator is spelled as a
constant or as a name is.

What is proved:
1. the words of a postfix form are those of its parts, one behind the other (`words_append`);
2. each word shows what it is (`item_unarySign`, `item_binary`, `item_logical`, `item_constant`,
   `item_name`);
3. the words of an expression push its tree, whatever is on the stack and whatever follows
   (`read_postfixForm`), so that postfix form tells all but the groups (`Expr.postfixForm_reads`).
-/
namespace LoxLang

open Bracketed

namespace Expr

/-- Whether an expression is made of groups and operators, of names, and of constants that show in their
texts. -/
def plain : Expr → Bool
  | .literal value => value.legible
  | .group inner => inner.plain
  | .unary _ right => right.plain
  | .binary left _ right | .logical left _ right => left.plain && right.plain
  | .variable .. => true
  | _ => false

/-- A plain expression without its groups. -/
def ungrouped : Expr → Expr
  | .group inner => inner.ungrouped
  | .unary op right => .unary op right.ungrouped
  | .binary left op right => .binary left.ungrouped op right.ungrouped
  | .logical left op right => .logical left.ungrouped op right.ungrouped
  | e => e

theorem legible_of_plain : ∀ {e : Expr}, e.plain = true → e.legible = true
  | .literal _, h => h
  | .group inner, h => legible_of_plain (e := inner) h
  | .unary _ right, h => legible_of_plain (e := right) h
  | .binary _ _ _, h | .logical _ _ _, h => by
    obtain ⟨left, right⟩ := Bool.and_eq_true_iff.mp h
    exact Bool.and_eq_true_iff.mpr ⟨legible_of_plain left, legible_of_plain right⟩
  | .variable .., _ => rfl

end Expr

namespace Postfix

/-! Reading -/

/-- The words that stand between the blanks of a text. -/
def words (text : String) : List String := (text.toList.splitOn ' ').map String.ofList

/-- What a word of a postfix form is. -/
inductive Item where
  | operand (e : Expr)
  | unary (op : Token)
  | binary (op : Token)
  | logical (op : Token)

def constant? (w : String) : Option Literal :=
  if w = "nil" then some .nil
  else if w = "true" then some (.bool true)
  else if w = "false" then some (.bool false)
  else if startsNumber w then (Decimal.ofText? w).map .number
  else none

/-- The operator of two operands that a word is. -/
def binary? (w : String) : Option Symbol :=
  Symbol.all.find? fun s => s.operates && s.text == w

/-- The operand that a word is, a constant or else a name. -/
def operand (w : String) : Expr :=
  match constant? w with
  | some value => .literal value
  | none => .variable ⟨.identifier, w, 1⟩ none

/-- What a word is; its tokens stand on the first line. -/
def item (w : String) : Item :=
  if w = "~" then .unary ⟨.symbol .minus, "-", 1⟩
  else if w = "!" then .unary ⟨.symbol .bang, w, 1⟩
  else if w = "or" then .logical ⟨.keyword .or, w, 1⟩
  else if w = "and" then .logical ⟨.keyword .and, w, 1⟩
  else match binary? w with
  | some s => .binary ⟨.symbol s, w, 1⟩
  | none => .operand (operand w)

/-- One item is read: an operand is pushed, and an operator takes its operands from the stack, the last one
first, and pushes its expression. There is no stack afterwards if not all of its operands were there. -/
def step : Item → List Expr → Option (List Expr)
  | .operand e, stack => some (e :: stack)
  | .unary op, right :: stack => some (.unary op right :: stack)
  | .binary op, right :: left :: stack => some (.binary left op right :: stack)
  | .logical op, right :: left :: stack => some (.logical left op right :: stack)
  | _, _ => none

/-- Words are read from the left. -/
def read : List String → List Expr → Option (List Expr)
  | [], stack => some stack
  | w :: rest, stack => (step (item w) stack).bind (read rest)

/-! Words -/

theorem words_append (a b : String) : words (a ++ " " ++ b) = words a ++ words b := by
  have text : (a ++ " " ++ b).toList = a.toList ++ ' ' :: b.toList := by
    rw [String.toList_append, String.toList_append, List.append_assoc]
    rfl
  rw [words, text, List.splitOn_append_cons_self, List.map_append]
  rfl

theorem words_of_isWord {text : String} (solid : IsWord text) : words text = [text] := by
  have noBlank : ' ' ∉ text.toList := fun mem => by
    have separated := solid.solid ' ' mem
    cases separated
  rw [words, List.splitOn_eq_singleton noBlank, List.map_singleton, String.ofList_toList]

/-- The text of a finite number has a digit in it. -/
theorem exists_isDigit_render {x : Float} (finite : x.isFinite = true) :
    ∃ c ∈ (Literal.numberLayout.render x).toList, c.isDigit = true := by
  have first {cs : List Char} (numeral : Lexical.Numeral cs) : ∃ c ∈ cs, c.isDigit = true := by
    cases cs with
    | nil => exact absurd numeral Lexical.not_numeral_nil
    | cons c cs => exact ⟨c, List.mem_cons_self, numeral.head⟩
  rcases Literal.render_signed finite with numeral | ⟨cs, numeral, text⟩
  · exact first numeral
  · obtain ⟨c, mem, digit⟩ := first numeral
    exact ⟨c, text ▸ List.mem_cons_of_mem _ mem, digit⟩

variable {op name : Token}

/-- The sign of a unary operator is a word and shows the operator. -/
theorem item_unarySign (spelled : op.Spelled) (is : Grammar.isUnaryOperator op = true) :
    IsWord (Expr.unarySign op) ∧ item (Expr.unarySign op) = .unary (op.relocate fun _ => 1) := by
  rcases Bool.or_eq_true _ _ |>.mp is with bang | minus
  · have kind := Token.kind_of_isSymbol bang
    have text := spelled.symbol kind
    rw [Expr.unarySign, Token.relocate, kind, text]
    exact ⟨by decide, rfl⟩
  · have kind := Token.kind_of_isSymbol minus
    have text := spelled.symbol kind
    rw [Expr.unarySign, Token.relocate, kind, text]
    exact ⟨by decide, rfl⟩

theorem ne_bang_of_isBinary (is : op.IsBinary) : op.kind ≠ .symbol .bang := by
  intro bang
  obtain ⟨kind, lexeme, line⟩ := op
  cases bang
  rcases is with is | is | is | is <;> cases is

theorem item_symbol {s : Symbol} (operates : s.operates = true) (other : s ≠ .bang) :
    item s.text = .binary ⟨.symbol s, s.text, 1⟩ := by
  cases s <;> first | rfl | exact absurd rfl other | cases operates

theorem item_binary (spelled : op.Spelled) (is : op.IsBinary) :
    item op.lexeme = .binary (op.relocate fun _ => 1) := by
  obtain ⟨s, kind, operates⟩ := is.operates
  have other : s ≠ .bang := fun bang => ne_bang_of_isBinary is (kind.trans (congrArg Kind.symbol bang))
  rw [Token.relocate, kind, spelled.symbol kind]
  exact item_symbol operates other

theorem item_logical (is : op.IsConnective) : item op.lexeme = .logical (op.relocate fun _ => 1) := by
  obtain ⟨spelled, kind | kind⟩ := is
  · rw [Token.relocate, kind, spelled.keyword kind]
    rfl
  · rw [Token.relocate, kind, spelled.keyword kind]
    rfl

/-- No symbol has a letter, a digit or an underscore in it. -/
theorem inWord_of_mem_text {s : Symbol} {c : Char} (mem : c ∈ s.text.toList) : Piece.inWord c = false := by
  have none : s.text.toList.all (fun c => !Piece.inWord c) = true := by
    cases s <;> decide
  exact (Bool.not_eq_true' _).mp (List.all_eq_true.mp none c mem)

/-- A word that has a letter, a digit or an underscore in it is an operand, unless it is a connective. -/
theorem item_operand {w : String} {c : Char} (mem : c ∈ w.toList) (inWord : Piece.inWord c = true)
    (noConnective : w ≠ "or" ∧ w ≠ "and") : item w = .operand (operand w) := by
  have noSymbol (s : Symbol) : s.text ≠ w := fun same => by
    rw [← same] at mem
    rw [inWord_of_mem_text mem] at inWord
    cases inWord
  have noBinary : binary? w = none := by
    refine List.find?_eq_none.mpr fun s _ found => ?_
    exact noSymbol s (eq_of_beq (Bool.and_eq_true_iff.mp found).2)
  have noTilde : w ≠ "~" := fun same => by
    rw [same] at mem
    rw [List.mem_singleton.mp mem] at inWord
    cases inWord
  have noBang : w ≠ "!" := (noSymbol .bang).symm
  rw [item, if_neg noTilde, if_neg noBang, if_neg noConnective.1, if_neg noConnective.2, noBinary]

theorem constant?_eq_none {w : String} (noConstant : isConstant w = false) : constant? w = none := by
  obtain ⟨words, starts⟩ := Bool.or_eq_false_iff.mp noConstant
  have other : w ≠ "nil" ∧ w ≠ "true" ∧ w ≠ "false" := by simpa [List.contains_eq_any_beq] using words
  rw [constant?, if_neg other.1, if_neg other.2.1, if_neg other.2.2, starts]
  rfl

theorem item_name (is : name.IsReference) :
    item name.lexeme = .operand (.variable (name.relocate fun _ => 1) none) := by
  obtain ⟨word, noKeyword⟩ := is.1.identifier is.2
  have asOperand : operand name.lexeme = .variable (name.relocate fun _ => 1) none := by
    rw [operand, constant?_eq_none is.not_isConstant, Token.relocate, is.2]
  cases letters : name.lexeme.toList with
  | nil =>
    rw [letters] at word
    exact word.elim
  | cons c cs =>
    rw [letters] at word
    have inWord : Piece.inWord c = true :=
      Piece.inWord_iff.mpr (word.1.imp_left fun letter => by rw [Char.isAlphanum, letter, Bool.true_or])
    rw [← asOperand]
    exact item_operand (letters ▸ List.mem_cons_self) inWord ⟨noKeyword .or, noKeyword .and⟩

theorem constant?_render {x : Float} (finite : x.isFinite = true) :
    constant? (Literal.numberLayout.render x) = some (.number x) := by
  have starts := (Literal.isWord_render finite).2
  have other {w : String} (letters : startsNumber w = false) : Literal.numberLayout.render x ≠ w := by
    intro same
    rw [same, letters] at starts
    cases starts
  rw [constant?, if_neg (other (by decide)), if_neg (other (by decide)), if_neg (other (by decide)),
    if_pos starts, Literal.ofText?_render finite]
  rfl

/-- A constant that shows in its text is read as that constant. -/
theorem item_constant {v : Literal} (legible : v.legible = true) : item v.text = .operand (.literal v) := by
  cases v with
  | nil => rfl
  | bool b => cases b <;> rfl
  | number x =>
    obtain ⟨c, mem, digit⟩ := exists_isDigit_render legible
    have starts := (Literal.isWord_render legible).2
    have noConnective : Literal.numberLayout.render x ≠ "or" ∧ Literal.numberLayout.render x ≠ "and" := by
      constructor <;> (intro same; rw [same] at starts; cases starts)
    have shows := item_operand mem (Piece.inWord_iff.mpr (.inl (by simp [Char.isAlphanum, digit]))) noConnective
    rw [operand, constant?_render legible] at shows
    exact shows
  | string s => cases legible

/-! Reading what was written -/

/-- A word on top of others is read. -/
theorem read_word {text : String} (solid : IsWord text) {stack stack' : List Expr}
    (steps : step (item text) stack = some stack') (rest : List String) :
    read (words text ++ rest) stack = read rest stack' := by
  rw [words_of_isWord solid, List.singleton_append, read, steps, Option.bind_some]

/-- The words of a plain expression push its tree, whatever is on the stack and whatever follows. -/
theorem read_postfixForm : ∀ {e : Expr}, e.Proper → e.Readable → e.plain = true →
    ∀ (rest : List String) (stack : List Expr), read (words e.postfixForm ++ rest) stack =
      read rest ((e.ungrouped.relocate fun _ => 1) :: stack)
  | .literal _, _, readable, _, rest, stack =>
    read_word (Literal.isWord_text readable).1 (by rw [item_constant readable]; rfl) rest
  | .group inner, proper, readable, plain, rest, stack =>
    read_postfixForm (e := inner) proper readable plain rest stack
  | .unary op right, ⟨is, proper⟩, ⟨sign, readable⟩, plain, rest, stack => by
    obtain ⟨solid, shows⟩ := item_unarySign sign.1 is
    rw [Expr.postfixForm, words_append, List.append_assoc, read_postfixForm proper readable plain]
    exact read_word solid (by rw [shows]; rfl) rest
  | .binary left op right, ⟨hl, is, hr⟩, ⟨rl, sign, rr⟩, plain, rest, stack => by
    obtain ⟨pl, pr⟩ := Bool.and_eq_true_iff.mp plain
    have shows := item_binary sign.1 is
    -- Two operands are pushed, the right one last, and the operator takes both.
    rw [Expr.postfixForm, words_append, words_append, List.append_assoc, List.append_assoc,
      read_postfixForm hl rl pl, read_postfixForm hr rr pr]
    exact read_word sign.isWord (by rw [shows]; rfl) rest
  | .logical left op right, ⟨hl, _, hr⟩, ⟨rl, connective, rr⟩, plain, rest, stack => by
    obtain ⟨pl, pr⟩ := Bool.and_eq_true_iff.mp plain
    have shows := item_logical connective
    rw [Expr.postfixForm, words_append, words_append, List.append_assoc, List.append_assoc,
      read_postfixForm hl rl pl, read_postfixForm hr rr pr]
    exact read_word connective.isWord (by rw [shows]; rfl) rest
  | .variable name depth, _, ⟨is, fresh⟩, _, rest, stack => by
    have shows := item_name is
    subst fresh
    exact read_word is.isWord (by rw [shows]; rfl) rest

end Postfix

open Postfix

/-- Postfix form can be read back. The words of what was read off a source, if it is made of groups, operators,
names and constants that show in their texts, leave one tree on the stack and never ask for an operand that is
not there; the tree is the expression without its groups. So another one has the same postfix form only if it is
the same but for groups and lines. -/
theorem Expr.postfixForm_reads {source : String} {e : Expr}
    (parsed : Expr.ofTokens (Scan.ofSource source).tokens = .ok e) (plain : e.plain = true) :
    read (words e.postfixForm) [] = some [e.ungrouped.relocate fun _ => 1] ∧
      ∀ (source' : String) (e' : Expr), Expr.ofTokens (Scan.ofSource source').tokens = .ok e' →
        e'.plain = true → e.postfixForm = e'.postfixForm →
        (e.ungrouped.relocate fun _ => 1) = e'.ungrouped.relocate fun _ => 1 := by
  have reads {source : String} {e : Expr} (parsed : Expr.ofTokens (Scan.ofSource source).tokens = .ok e)
      (plain : e.plain = true) : read (words e.postfixForm) [] = some [e.ungrouped.relocate fun _ => 1] := by
    have proper := proper_of_ofTokens (fun _ among => genuine_of_mem_scan among) parsed
    have readable := readable_of_ofTokens parsed (legible_of_plain plain)
    have pushed := read_postfixForm proper readable plain [] []
    rwa [List.append_nil] at pushed
  refine ⟨reads parsed plain, fun source' e' parsed' plain' same => ?_⟩
  -- The same words leave the same tree.
  have first := reads parsed plain
  rw [same, reads parsed' plain'] at first
  exact (List.cons.inj (Option.some.inj first)).1.symm

/-- Both minus signs, both operators that a bang begins, and groups that leave no trace. -/
theorem Expr.postfixForm_reads_signs :
    let source := "(a - -1.5) * 2 != !(b or nil) and true"
    let source' := "((a) - (-1.50)) * 2\n  != !(b or nil)\nand (true)"
    let parse (source : String) := Expr.ofTokens (Scan.ofSource source).tokens
    ∃ e e', parse source = .ok e ∧ parse source' = .ok e' ∧ e.plain = true ∧ e'.plain = true ∧
      e.postfixForm = "a 1.5 ~ - 2 * b nil or ! != true and" ∧ e.postfixForm = e'.postfixForm ∧
      read (words e.postfixForm) [] = some [e.ungrouped.relocate fun _ => 1] ∧
      (e.ungrouped.relocate fun _ => 1) = e'.ungrouped.relocate fun _ => 1 := by
  intro source source' parse
  let text := "a 1.5 ~ - 2 * b nil or ! != true and"
  have shows (source : String) (shown : (parse source).toOption.map (fun e => (e.plain, e.postfixForm)) =
      some (true, text)) : ∃ e, parse source = .ok e ∧ e.plain = true ∧ e.postfixForm = text := by
    cases parsed : parse source with
    | error es =>
      rw [parsed] at shown
      cases shown
    | ok e =>
      rw [parsed] at shown
      obtain ⟨plain, same⟩ := Prod.mk.inj (Option.some.inj shown)
      exact ⟨e, rfl, plain, same⟩
  obtain ⟨e, parsed, plain, same⟩ := shows source (by decide +kernel)
  obtain ⟨e', parsed', plain', same'⟩ := shows source' (by decide +kernel)
  have texts := same.trans same'.symm
  obtain ⟨reads, tells⟩ := postfixForm_reads parsed plain
  exact ⟨e, e', parsed, parsed', plain, plain', same, texts, reads, tells source' e' parsed' plain' texts⟩

end LoxLang
