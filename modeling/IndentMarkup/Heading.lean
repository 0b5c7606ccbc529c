import IndentMarkup.Inline
import IndentMarkup.Outline

/-!
The lines of sections and tabs.

Behind its marker such a line has a name, which is formatted text, and behind the name
a description in round brackets. Brackets inside a span of the name belong to the
span; only groups at the very end of the line are read as a shorthand.

* `Heading.split` — where the groups at the end start.
* `Heading.read` — name and description of a line.
-/

namespace IndentMarkup.Heading

/-! ### The groups at the end -/

/-- The brackets outside spans with their offsets, in order, from a text that starts at
`offset` in `depth` spans. The character behind a backslash is passed over, as are the
first `skip` characters. -/
def bracketsFrom : (skip depth offset : Nat) → Text → List (Nat × Char)
  | _, _, _, [] => []
  | skip + 1, depth, offset, _ :: t => bracketsFrom skip depth (offset + 1) t
  | 0, depth, offset, c :: t =>
      if c = '\\' then bracketsFrom 1 depth (offset + 1) t
      else if c = '<' then bracketsFrom 0 (depth + 1) (offset + 1) t
      else if c = '>' then bracketsFrom 0 (depth - 1) (offset + 1) t
      else if depth = 0 ∧ ((Bracket.opening? c).isSome ∨ (Bracket.closing? c).isSome) then
        (offset, c) :: bracketsFrom 0 depth (offset + 1) t
      else bracketsFrom 0 depth (offset + 1) t

/-- Where the groups in front of `start` begin that touch one another and `start`. The
brackets in front of `start` are given last first; with `some b` the closing bracket of
a group has been passed, and the group goes back to the next opening one of its kind. A
group that is never opened is none. -/
def groupsStart (start : Nat) : Option Bracket → List (Nat × Char) → Nat
  | _, [] => start
  | none, (offset, c) :: before =>
      match Bracket.closing? c with
      | some b => if offset + 1 = start then groupsStart start (some b) before else start
      | none => start
  | some b, (offset, c) :: before =>
      if c = b.opener then groupsStart offset none before
      else groupsStart start (some b) before

/-- The text in front of the groups at its end, and these groups. -/
def split (t : Text) : Text × Text :=
  t.splitAt (groupsStart t.length none (bracketsFrom 0 0 0 t).reverse)

/-! ### The line -/

/-- The description that a shorthand at the end of a heading gives. Nothing but a
description may stand there. -/
def readDescription (groups : Text) (line column : Nat) : CompileM (Option Text) :=
  if groups = [] then pure none
  else
    match Shorthand.readAll groups with
    | .error e => .failAt (.shorthand e.fault) line (some (column + e.column))
    | .ok s =>
        if s.groups.all (·.bracket = .round) then pure (s.value? .round)
        else .failAt .notDescription line (some column)

/-- Name and description of a line whose marker has the given length. Columns count
the characters of the line, except that blank characters between the marker and the
name count with their bytes. -/
def read (expand : Expander) (l : Line) (marker : Nat) : CompileM Heading := do
  let raw := l.content.drop marker
  let column := l.width + marker
    + (Text.byteLength raw - Text.byteLength (Text.trimStart raw))
  let (front, groups) := split (Text.trim raw)
  let description ← readDescription groups l.number (column + front.length)
  let name := Text.trim front
  if name = [] then return ⟨none, description⟩
  else return ⟨some (← Inline.format expand name l.number column), description⟩

end IndentMarkup.Heading
