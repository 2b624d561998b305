import LoxLang.Text.Unprintable
/-!
Texts between double quotes. `jsonString` is the JSON form, in which only quotes, backslashes and
control characters are escaped; `debugString` shows a text to people, and escapes in addition
every character that cannot be seen on its own.
-/
namespace LoxLang.Text

def hex (n : Nat) : String := String.ofList (Nat.toDigits 16 n)

def jsonChar (c : Char) : String :=
  match c with
  | '"' => "\\\""
  | '\\' => "\\\\"
  | '\x08' => "\\b"
  | '\x0c' => "\\f"
  | '\n' => "\\n"
  | '\r' => "\\r"
  | '\t' => "\\t"
  | c =>
    if c.toNat < 16 then "\\u000" ++ hex c.toNat
    else if c.toNat < 32 then "\\u00" ++ hex c.toNat
    else String.singleton c

def jsonString (s : String) : String := "\"" ++ String.join (s.toList.map jsonChar) ++ "\""

/-- A character as shown to people. Of the quotes only double ones are escaped. -/
def debugChar (c : Char) : String :=
  match c with
  | '\x00' => "\\0"
  | '\t' => "\\t"
  | '\r' => "\\r"
  | '\n' => "\\n"
  | '\\' => "\\\\"
  | '"' => "\\\""
  | c => if isUnprintable c then "\\u\x7b" ++ hex c.toNat ++ "\x7d" else String.singleton c

/-- A text as shown to people, between double quotes. -/
def debugString (s : String) : String := "\"" ++ String.join (s.toList.map debugChar) ++ "\""

end LoxLang.Text
