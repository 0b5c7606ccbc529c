import IndentMarkup.Table

/-!
The stylesheet of the custom classes.

Every class is one rule; the rules stand in the order of the names. A name has to be a
class name in CSS without escapes, and declarations must not have braces, so that no
class can open or close a rule but its own.

* `Stylesheet.ofClasses` — the stylesheet, or the first class that has none.
-/

namespace IndentMarkup

/-- Why a class has no rule. -/
inductive StylesheetError where
  /-- The name is no class name. -/
  | invalidName (name : Text)
  /-- The declarations have braces. -/
  | braces (name : Text)
  deriving DecidableEq, Repr

namespace StylesheetError

/-- What the author is told about the class. -/
def message : StylesheetError → Text
  | invalidName name => "Invalid custom class name '".toList ++ name ++ ['\'']
  | braces name => "Custom class '".toList ++ name ++ "' must not contain braces".toList

/-- The message as it is reported. -/
def report (e : StylesheetError) : Text := "Codegen error: ".toList ++ e.message

end StylesheetError

namespace Stylesheet

/-- The ASCII letters and digits. -/
def isAlphanumeric (c : Char) : Bool :=
  ('a' ≤ c && c ≤ 'z') || ('A' ≤ c && c ≤ 'Z') || ('0' ≤ c && c ≤ '9')

/-- ASCII letters, digits, hyphens and underscores, and no digit at the start. -/
def isClassName (name : Text) : Bool :=
  name.all (fun c => isAlphanumeric c || c = '-' || c = '_')
    && !name.head?.any fun c => '0' ≤ c && c ≤ '9'

/-- The character opens or closes a rule. -/
def isBrace (c : Char) : Bool := c = '\x7b' || c = '\x7d'

/-- The lines of a text that has none behind its last line feed, each without a carriage
return at its end if a line feed followed it. -/
def linesOf (t : Text) : List Text :=
  let all := Text.splitLines t
  let dropReturn (line : Text) : Text :=
    if line.getLast? = some '\r' then line.dropLast else line
  all.dropLast.map dropReturn ++ (match all.getLast? with
    | none | some [] => []
    | some last => [last])

/-- The rule of a class. -/
def rule (name declarations : Text) : Text :=
  '.' :: name ++ " \x7b\n".toList
    ++ (linesOf declarations).flatMap (fun line => "  ".toList ++ line ++ ['\n'])
    ++ "\x7d\n".toList

/-- The rules of classes, or the first class that has none. -/
def ofEntries : List (Text × Text) → Except StylesheetError Text
  | [] => .ok []
  | (name, declarations) :: es =>
      if !isClassName name then .error (.invalidName name)
      else if declarations.any isBrace then .error (.braces name)
      else
        match ofEntries es with
        | .ok rules => .ok (rule name declarations ++ rules)
        | .error e => .error e

/-- The stylesheet of a table of classes with their declarations. -/
def ofClasses (classes : Table Text) : Except StylesheetError Text := ofEntries classes.entries

end Stylesheet

end IndentMarkup
