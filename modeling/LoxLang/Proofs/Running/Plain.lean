import LoxLang.Value.Operators
/-!
Values that refer to nothing: what constants and operators come to.

What is proved: constants are plain (`Literal.plain`), and so is whatever an operator makes, of
plain values or of others (`plain_of_unary`, `plain_of_binary`).
-/
namespace LoxLang

/-- A value that is no function, class or instance. -/
inductive Value.Plain : Value → Prop
  | nil : Value.Plain .nil
  | bool (b : Bool) : Value.Plain (.bool b)
  | number (x : Float) : Value.Plain (.number x)
  | string (s : String) : Value.Plain (.string s)

theorem Literal.plain : ∀ value : Literal, value.toValue.Plain
  | .nil => .nil
  | .bool b => .bool b
  | .number x => .number x
  | .string s => .string s

theorem plain_of_unary {op : Kind} {right v : Value} (h : right.unary? op = .ok v) : v.Plain := by
  unfold Value.unary? at h
  split at h
  · cases h
    exact .bool _
  · split at h
    · cases h
      exact .number _
    · cases h
  · cases h

theorem plain_of_arithmetic {op : Kind} {x y : Float} {v : Value}
    (h : Value.arithmetic? op x y = .ok v) : v.Plain := by
  unfold Value.arithmetic? at h
  split at h
  case h_8 =>
    split at h
    · cases h
    · cases h
      exact .number _
  case h_9 => cases h
  all_goals
    cases h
    constructor

theorem plain_of_add {left right v : Value} (h : left.add? right = .ok v) : v.Plain := by
  unfold Value.add? at h
  split at h
  · cases h
    exact .number _
  · cases h
    exact .string _
  · cases h

theorem plain_of_binary {op : Kind} {left right v : Value} (h : left.binary? op right = .ok v) :
    v.Plain := by
  unfold Value.binary? at h
  split at h
  · cases h
    exact .bool _
  · cases h
    exact .bool _
  · exact plain_of_add h
  · split at h
    · exact plain_of_arithmetic h
    · cases h

end LoxLang
