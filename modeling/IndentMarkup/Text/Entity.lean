import IndentMarkup.Text.Basic

/-!
Characters that HTML gives a meaning, written as character references.

Three sets of characters are replaced, each where it would be misread: markup
characters in literal text (`escapeMarkup`), the double quote in an attribute
value (`escapeQuotes`), and the characters an author escapes with a backslash in
formatted text (`escapable?`).
-/

namespace IndentMarkup.Text

/-- Write a text so that HTML reads it back as it is. -/
def escapeMarkup (t : Text) : Text :=
  t.flatMap fun
    | '&' => "&amp;".toList
    | '<' => "&lt;".toList
    | '>' => "&gt;".toList
    | c => [c]

/-- Write a text so that it can stand between double quotes. -/
def escapeQuotes (t : Text) : Text :=
  t.flatMap fun
    | '"' => "&quot;".toList
    | c => [c]

/-- The reference that stands for a character written after a backslash. A
backslash before any other character is an ordinary character. -/
def escapable? : Char → Option Text
  | '\\' => some "&#92;".toList
  | '<' => some "&lt;".toList
  | '>' => some "&gt;".toList
  | _ => none

end IndentMarkup.Text
