import IndentMarkup.Table

/-!
The bracket shorthand for attributes.

A tag is followed by groups in brackets, `div(hero)[color:red]` for instance: round
brackets hold classes, square ones style declarations, curly ones a link. Groups
may be repeated and mixed; the bodies of one kind of bracket together are the
value of one attribute.

A text is read by an automaton, character by character. It stands in the name, in
an open group, behind a backslash in an open group, or behind a closed group, and
it refuses a character as soon as no reading of the text can go on with it; the
error carries the column of that character.

* `Extent` — whether a space ends the shorthand or belongs to it.
* `Shorthand.read` — the reader; `readToken` and `readAll` fix the extent.
* `Shorthand.attributes` — the attributes that the groups stand for.
-/

namespace IndentMarkup

/-! ### Brackets -/

/-- The three kinds of brackets. -/
inductive Bracket where
  /-- Round brackets hold classes. -/
  | round
  /-- Square brackets hold style declarations. -/
  | square
  /-- Curly brackets hold a link. -/
  | curly
  deriving DecidableEq, Repr

namespace Bracket

/-- All brackets, in the order in which their attributes are written down. -/
def all : List Bracket := [round, square, curly]

/-- The character that opens a group. -/
def opener : Bracket → Char
  | round => '('
  | square => '['
  | curly => '\x7b'

/-- The character that closes a group. -/
def closer : Bracket → Char
  | round => ')'
  | square => ']'
  | curly => '\x7d'

/-- The attribute that the groups set. -/
def key : Bracket → Text
  | round => "class".toList
  | square => "style".toList
  | curly => "href".toList

/-- What stands between the bodies of two groups in the attribute's value. -/
def separator : Bracket → Text
  | round => [' ']
  | square => [';']
  | curly => []

/-- The bracket that a character opens. -/
def opening? (c : Char) : Option Bracket := all.find? (·.opener = c)

/-- The bracket that a character closes. -/
def closing? (c : Char) : Option Bracket := all.find? (·.closer = c)

end Bracket

/-! ### What is read -/

/-- A group: its brackets and what stands in them, escapes undone. -/
structure Group where
  bracket : Bracket
  body : Text
  deriving DecidableEq, Repr

/-- A name with its groups, and the text behind them. -/
structure Shorthand where
  /-- The characters in front of the groups. -/
  tag : Text
  /-- The groups, in order. -/
  groups : List Group
  /-- What the shorthand leaves of the text. -/
  rest : Text
  deriving DecidableEq, Repr

namespace Shorthand

/-- The value of a bracket's attribute: the bodies that are not empty, in order,
with the bracket's separator. Without a group there is no value. -/
def value? (s : Shorthand) (b : Bracket) : Option Text :=
  match s.groups.filter (·.bracket = b) with
  | [] => none
  | gs => some (Text.join b.separator ((gs.map (·.body)).filter (· ≠ [])))

/-- The attributes that the groups stand for. -/
def attributes (s : Shorthand) : Table Text :=
  Bracket.all.foldl (fun m b => match s.value? b with
    | none => m
    | some v => m.insert b.key v) ∅

end Shorthand

/-! ### Reading -/

/-- How far a shorthand reaches. -/
inductive Extent where
  /-- To the first space outside the groups. -/
  | token
  /-- To the end of the text; the name may have spaces, and spaces may stand
  behind the groups. -/
  | whole
  deriving DecidableEq, Repr

/-- What can be wrong with a shorthand. -/
inductive ShorthandFault where
  /-- A closing bracket that closes nothing. -/
  | unexpectedCloser (c : Char)
  /-- A character behind a group that opens none. -/
  | outsideGroup (c : Char)
  /-- The text ends in an open group. -/
  | unclosed (b : Bracket)
  deriving DecidableEq, Repr

/-- What the author is told about the fault. -/
def ShorthandFault.message : ShorthandFault → Text
  | .unexpectedCloser c =>
      "Unexpected attribute closing character: '".toList ++ [c] ++ "'.".toList
  | .outsideGroup c => "Unexpected character outside of attribute: '".toList ++ [c] ++ "'.".toList
  | .unclosed b => "Unclosed attribute: missing '".toList ++ [b.closer] ++ "'.".toList

/-- A fault and the column, in characters from the start of the text, where it
shows. -/
structure ShorthandError where
  fault : ShorthandFault
  column : Nat
  deriving DecidableEq, Repr

namespace Shorthand

/-- Where the reader stands. -/
inductive Place where
  /-- In the name; no group has been opened. -/
  | name
  /-- In a group with this body so far. -/
  | group (b : Bracket) (body : Text)
  /-- Behind a backslash in a group with this body so far. -/
  | escape (b : Bracket) (body : Text)
  /-- Behind a closed group. -/
  | behind
  deriving DecidableEq, Repr

/-- What has been read, and where the reader stands. -/
structure Progress where
  tag : Text
  groups : List Group
  place : Place
  deriving DecidableEq, Repr

/-- Nothing has been read. -/
def Progress.start : Progress := ⟨[], [], .name⟩

namespace Progress

/-- The reader stands outside the groups. -/
def isOutside (p : Progress) : Bool :=
  match p.place with
  | .name | .behind => true
  | .group .. | .escape .. => false

/-- Read a character outside the groups. -/
def stepOutside (x : Extent) (p : Progress) (c : Char) : Except ShorthandFault Progress :=
  match Bracket.opening? c with
  | some b => .ok { p with place := .group b [] }
  | none =>
      if (Bracket.closing? c).isSome then .error (.unexpectedCloser c)
      else if p.place = .name then .ok { p with tag := p.tag ++ [c] }
      else if c = ' ' ∧ x = .whole then .ok p
      else .error (.outsideGroup c)

/-- Read one character. In a group a backslash takes the next character as it is,
an opening bracket is a character like any other, and only the group's own
closing bracket may stand. -/
def step (x : Extent) (p : Progress) (c : Char) : Except ShorthandFault Progress :=
  match p.place with
  | .name | .behind => p.stepOutside x c
  | .escape b body => .ok { p with place := .group b (body ++ [c]) }
  | .group b body =>
      if c = '\\' then .ok { p with place := .escape b body }
      else if c = b.closer then .ok { p with groups := p.groups ++ [⟨b, body⟩], place := .behind }
      else if (Bracket.closing? c).isSome then .error (.unexpectedCloser c)
      else .ok { p with place := .group b (body ++ [c]) }

/-- The text ends here; no group may be open. -/
def finish (p : Progress) : Except ShorthandFault Shorthand :=
  match p.place with
  | .name | .behind => .ok ⟨p.tag, p.groups, []⟩
  | .group b _ | .escape b _ => .error (.unclosed b)

end Progress

/-- Read on from `p`, whose next character stands in the given column. -/
def readFrom (x : Extent) : Progress → Nat → Text → Except ShorthandError Shorthand
  | p, column, [] =>
      match p.finish with
      | .ok s => .ok s
      | .error f => .error ⟨f, column⟩
  | p, column, c :: t =>
      if x = .token ∧ c = ' ' ∧ p.isOutside then .ok ⟨p.tag, p.groups, c :: t⟩
      else match p.step x c with
        | .ok q => readFrom x q (column + 1) t
        | .error f => .error ⟨f, column⟩

/-- Read the shorthand at the start of a text. -/
def read (x : Extent) (t : Text) : Except ShorthandError Shorthand := readFrom x .start 0 t

/-- Read a shorthand that ends at the first space outside its groups. -/
def readToken (t : Text) : Except ShorthandError Shorthand := read .token t

/-- Read a shorthand that fills the text. -/
def readAll (t : Text) : Except ShorthandError Shorthand := read .whole t

end Shorthand

end IndentMarkup
