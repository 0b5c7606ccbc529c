import IndentMarkup.Path

/-!
Where a source is: the identity of a file, whatever path leads to it.

* `Location.ofPath` — the location that a path leads to when nothing is known but
  the text of the path.
* `Location.text` — the location as a path.
-/

namespace IndentMarkup

/-- The place of a file or folder, by the names that lead to it. -/
structure Location where
  /-- The names start at the root. -/
  absolute : Bool
  names : List Text
  deriving DecidableEq, Repr

namespace Location

/-- The location as a path. -/
def text (l : Location) : Text :=
  if l.absolute then '/' :: Text.join ['/'] l.names else Text.join ['/'] l.names

/-- The location above; the one above all names is the relative place that paths
start from. -/
def parent (l : Location) : Location :=
  if l.names = [] then ⟨false, []⟩ else { l with names := l.names.dropLast }

/-- One part of a path, taken after the names before it: a step up removes the last
of them, and stays as a name of its own where there is none. -/
def step (names : List Text) (part : Text) : List Text :=
  if Path.isSilentPart part then names
  else if part = Path.parentPart then
    if names = [] then [Path.parentPart] else names.dropLast
  else names ++ [part]

/-- The location that a path leads to, read part by part. -/
def ofPath (path : Text) : Location :=
  ⟨Path.isAbsolute path, (Path.parts path).foldl step []⟩

end Location

end IndentMarkup
