import IndentMarkup.Text.Basic

/-!
Values in JSON, and how they are written for people to read.

* `Json.pretty` — a value over several lines, two spaces for every level.
-/

namespace IndentMarkup

/-- A value as JSON has it; the fields of an object stand in a fixed order. -/
inductive Json where
  | null
  | bool (b : Bool)
  | number (n : Nat)
  | string (t : Text)
  | array (items : List Json)
  | object (fields : List (Text × Json))

namespace Json

instance : Inhabited Json := ⟨null⟩

/-! ### Strings -/

/-- The two hexadecimal digits of a number below 256. -/
def hexByte (n : Nat) : Text := [Nat.digitChar (n / 16), Nat.digitChar (n % 16)]

/-- A character inside a string. Quotes, backslashes and control characters are escaped,
those with a letter of their own by it; all others stand as they are. -/
def quoteChar (c : Char) : Text :=
  match c with
  | '"' => ['\\', '"']
  | '\\' => ['\\', '\\']
  | '\x08' => ['\\', 'b']
  | '\x0c' => ['\\', 'f']
  | '\n' => ['\\', 'n']
  | '\r' => ['\\', 'r']
  | '\t' => ['\\', 't']
  | c => if c.toNat < 0x20 then "\\u00".toList ++ hexByte c.toNat else [c]

/-- A text as a string. -/
def quote (t : Text) : Text := '"' :: t.flatMap quoteChar ++ ['"']

/-! ### Layout -/

/-- A line feed, and the indentation of a level. -/
def newline (level : Nat) : Text := '\n' :: List.replicate (2 * level) ' '

mutual

/-- A value at a level. Every item of a list and every field of an object that has any
stands on a line of its own, one level deeper. -/
def prettyAt (level : Nat) : Json → Text
  | null => "null".toList
  | bool b => if b then "true".toList else "false".toList
  | number n => Text.ofNat n
  | string t => quote t
  | array [] => "[]".toList
  | array (v :: vs) =>
      '[' :: newline (level + 1) ++ prettyAt (level + 1) v ++ prettyItems level vs
        ++ newline level ++ [']']
  | object [] => "\x7b\x7d".toList
  | object ((name, v) :: fs) =>
      '\x7b' :: newline (level + 1) ++ quote name ++ ": ".toList ++ prettyAt (level + 1) v
        ++ prettyFields level fs ++ newline level ++ ['\x7d']

/-- The items behind the first of a list, each behind a comma. -/
def prettyItems (level : Nat) : List Json → Text
  | [] => []
  | v :: vs => ',' :: newline (level + 1) ++ prettyAt (level + 1) v ++ prettyItems level vs

/-- The fields behind the first of an object, each behind a comma. -/
def prettyFields (level : Nat) : List (Text × Json) → Text
  | [] => []
  | (name, v) :: fs =>
      ',' :: newline (level + 1) ++ quote name ++ ": ".toList ++ prettyAt (level + 1) v
        ++ prettyFields level fs

end

/-- A value over several lines, without a line feed at the end. -/
def pretty (v : Json) : Text := prettyAt 0 v

/-! ### Values -/

/-- A value that may be absent. -/
def ofOption {α : Type} (f : α → Json) : Option α → Json
  | none => null
  | some a => f a

end Json

end IndentMarkup
