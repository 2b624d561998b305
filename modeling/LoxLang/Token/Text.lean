import LoxLang.Token
import LoxLang.Decimal.Layout
import LoxLang.Text.Quoted
/-!
Token listings: a token on a line of its own, and tokens as JSON objects, compact or spread over
indented lines.
-/
namespace LoxLang

/-- In listings a number has all its digits if it is whole, and `.0` then; zero has no sign. -/
def Token.numberLayout : Decimal.Layout :=
  ⟨"NaN", "inf", "-inf", false, true, ".0", .up, none⟩

/-- In JSON a number has the fewest digits, `.0` if it is whole, and an exponent outside
`1e-5` to `1e15`; what has no digits is `null`. -/
def Token.jsonLayout : Decimal.Layout :=
  ⟨"null", "null", "null", true, false, ".0", .toEven, some (-5, 15)⟩

/-- The value a token carries, as listings show it. -/
def Kind.literalText : Kind → String
  | .string s => s
  | .number x => Token.numberLayout.render x
  | _ => "null"

namespace Token

def text (t : Token) : String := t.kind.name ++ " " ++ t.lexeme ++ " " ++ t.kind.literalText

/-- The value of a token that carries one, in JSON. -/
def literalJson? : Kind → Option String
  | .string s => some (Text.jsonString s)
  | .number x => some (jsonLayout.render x)
  | _ => none

def json (t : Token) : String :=
  let kind := Text.jsonString t.kind.name
  let kind := match literalJson? t.kind with
    | some v => "\x7b" ++ kind ++ ":" ++ v ++ "\x7d"
    | none => kind
  "\x7b\"token_type\":" ++ kind ++ ",\"lexeme\":" ++ Text.jsonString t.lexeme ++ ",\"line\":"
    ++ toString t.line ++ "\x7d"

/-- The token as a JSON object on lines indented by two blanks. -/
def jsonLines (t : Token) : String :=
  let kind := Text.jsonString t.kind.name
  let kind := match literalJson? t.kind with
    | some v => "\x7b\n      " ++ kind ++ ": " ++ v ++ "\n    \x7d"
    | none => kind
  "  \x7b\n    \"token_type\": " ++ kind ++ ",\n    \"lexeme\": " ++ Text.jsonString t.lexeme
    ++ ",\n    \"line\": " ++ toString t.line ++ "\n  \x7d"

/-- A list of tokens as a JSON array on indented lines. -/
def jsonDocument (ts : List Token) : String :=
  match ts with
  | [] => "[]"
  | _ => "[\n" ++ String.intercalate ",\n" (ts.map jsonLines) ++ "\n]"

end Token

end LoxLang
