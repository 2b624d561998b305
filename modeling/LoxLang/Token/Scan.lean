import LoxLang.Source.Piece
/-!
The tokens of a program. Every piece of the text that is neither blank nor comment gives a token
or a fault, on the line where the piece ends; an end token follows on the last line.
-/
namespace LoxLang

/-- The tokens of a text, the end token last, and its faults. -/
structure Scan where
  tokens : List Token
  errors : List LexError

namespace Token

def lineBreaks (cs : List Char) : Nat := cs.countP (· == '\n')

/-- What a piece that ends on `line` gives. -/
def ofPiece? (p : Piece) (line : Nat) : Option (Except LexError Token) :=
  match p.role with
  | .blank | .comment => none
  | .token kind => some (.ok ⟨kind, String.ofList p.text, line⟩)
  | .fault f => some (.error ⟨f, line⟩)

/-- Tokens and faults of pieces that begin on `line`. -/
def ofPieces (line : Nat) : List Piece → List (Except LexError Token)
  | [] => [.ok (eof line)]
  | p :: ps =>
    let last := line + lineBreaks p.text
    (ofPiece? p last).toList ++ ofPieces last ps

/-- Tokens and faults of a text in the order in which they stand. -/
def items (source : String) : List (Except LexError Token) :=
  ofPieces 1 (Piece.pieces source.toList)

end Token

namespace Scan

/-- Tokens and faults apart, each in order. -/
def ofItems : List (Except LexError Token) → Scan
  | [] => ⟨[], []⟩
  | .ok t :: rest => let s := ofItems rest; ⟨t :: s.tokens, s.errors⟩
  | .error e :: rest => let s := ofItems rest; ⟨s.tokens, e :: s.errors⟩

def ofSource (source : String) : Scan := ofItems (Token.items source)

end Scan

end LoxLang
