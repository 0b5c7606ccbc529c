import IndentMarkup.Text.Basic

/-!
Paths as an author writes them.

A path is a text of names between slashes. Empty parts and single full stops say
nothing, two full stops lead to the parent; a path that starts with a slash is
absolute. These operations look at the text alone and keep what they need not
change.

* `Path.lastName?` — the name a path ends in.
* `Path.withExtension` — another extension for that name.
* `Path.sourceOf` — the path of a source file from the target of an inclusion.
-/

namespace IndentMarkup.Path

/-- The parts between slashes, the silent ones too. -/
def parts (path : Text) : List Text := Text.pieces (· == '/') path

/-- The path starts at the root. -/
def isAbsolute (path : Text) : Bool := path.head? = some '/'

/-- The part leads nowhere else. -/
def isSilentPart (part : Text) : Bool := part = [] || part = ['.']

/-- The part that leads to the parent. -/
def parentPart : Text := ['.', '.']

/-- A path read from the place that `base` leads to. -/
def join (base path : Text) : Text :=
  if isAbsolute path then path
  else if base = [] ∨ base.getLast? = some '/' then base ++ path
  else base ++ '/' :: path

/-! ### Names and extensions -/

/-- The name that the path ends in, with the parts in front of it. Silent parts
behind the name do not count; a path that ends in its parent, or has no name, has
none. -/
def lastName? (path : Text) : Option (List Text × Text) :=
  match (parts path).reverse.dropWhile isSilentPart with
  | [] => none
  | name :: before => if name = parentPart then none else some (before.reverse, name)

/-- A name cut at its last full stop. A full stop at the start of a name is part of
the name. -/
def splitExtension (name : Text) : Text × Option Text :=
  match name.reverse.dropWhile (· ≠ '.') with
  | _ :: c :: stem => ((c :: stem).reverse, some (name.reverse.takeWhile (· ≠ '.')).reverse)
  | _ => (name, none)

/-- The extension of the name that the path ends in. -/
def extension? (path : Text) : Option Text :=
  (lastName? path).bind fun last => (splitExtension last.2).2

/-- The path without as many characters at its end as the extension of its name
has, so without the extension if nothing stands behind the name. -/
def dropExtension (path : Text) : Text :=
  path.take (path.length - ((extension? path).getD []).length)

/-- The path with another extension for the name it ends in; what stands behind
the name is dropped. The old extension goes first, and what is left then has to end
in a name: if it ends in the parent, as two full stops and an extension do, or has no
name, it stays as it is. -/
def withExtension (path extension : Text) : Text :=
  let bare := dropExtension path
  match lastName? bare with
  | none => bare
  | some (before, name) =>
      Text.join ['/'] (before ++ [(splitExtension name).1 ++ '.' :: extension])

/-- The extension of source files. -/
def sourceExtension : Text := "smsh".toList

/-- The path of the source file that an inclusion names: the extension of source
files is added if there is none, and any other extension is refused. -/
def sourceOf (target : Text) : Except Text Text :=
  match extension? target with
  | none => .ok (withExtension target sourceExtension)
  | some e => if e = sourceExtension then .ok target else .error e

end IndentMarkup.Path
