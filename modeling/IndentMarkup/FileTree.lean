import IndentMarkup.Loader

/-!
Trees of files, without links.

A tree has files and folders under the names that lead to them from the root, and a
working folder that relative paths start from. A path is walked part by part: every
part needs a folder to start from, even one that leads nowhere else, and every name has
to be there.

* `FileTree.resolve`, `FileTree.read` — find and read a file.
* `FileTree.write` — the tree with a file written.
* `FileTree.loader` — the tree as a place where sources come from.
-/

namespace IndentMarkup

/-- What a file holds. -/
inductive FileContent where
  | text (t : Text)
  /-- Bytes that are no text. -/
  | binary
  deriving DecidableEq, Repr

/-- Files and folders by the names that lead to them from the root. -/
structure FileTree where
  files : List (List Text × FileContent)
  /-- Folders besides those that the files and the working folder need. -/
  folders : List (List Text)
  /-- The folder that relative paths start from. -/
  working : List Text

namespace FileTree

/-- The content of the file with these names. -/
def file? (tree : FileTree) (names : List Text) : Option FileContent :=
  (tree.files.find? (·.1 = names)).map (·.2)

/-- The names lead to a folder: one of the tree's own, the working folder, or one above
a folder or file. -/
def isFolder (tree : FileTree) (names : List Text) : Bool :=
  names.isPrefixOf tree.working || tree.folders.any (names.isPrefixOf ·)
    || tree.files.any fun f => names.isPrefixOf f.1 && names ≠ f.1

/-- There is a file or folder. -/
def has (tree : FileTree) (names : List Text) : Bool :=
  (tree.file? names).isSome || tree.isFolder names

/-- The longest name that a file or folder can have, in bytes. -/
def longestName : Nat := 255

/-- Walk along the parts of a path. -/
def walk (tree : FileTree) : (names parts : List Text) → Except LoadError (List Text)
  | names, [] => .ok names
  | names, part :: parts =>
      if !tree.isFolder names then .error .notDirectory
      else if Path.isSilentPart part then tree.walk names parts
      else if part = Path.parentPart then tree.walk names.dropLast parts
      else if longestName < Text.byteLength part then .error .nameTooLong
      else if tree.has (names ++ [part]) then tree.walk (names ++ [part]) parts
      else .error .noEntry

/-- Where a path starts. -/
def origin (tree : FileTree) (path : Text) : List Text :=
  if Path.isAbsolute path then [] else tree.working

/-- The location that a path leads to. -/
def resolve (tree : FileTree) (path : Text) : Except LoadError Location :=
  if path = [] then .error .noEntry
  else (tree.walk (tree.origin path) (Path.parts path)).map (⟨true, ·⟩)

/-- The text of the file at a location. -/
def read (tree : FileTree) (l : Location) : Except LoadError Text :=
  match tree.file? l.names with
  | some (.text t) => if l.absolute then .ok t else .error .noEntry
  | some .binary => .error .notText
  | none => if tree.isFolder l.names then .error .isDirectory else .error .noEntry

/-! ### Writing -/

/-- The longest path that a file can be opened by, in bytes. -/
def longestPath : Nat := 4095

/-- The names of the file that would be written at a path. The folder it stands in has
to be there, and the path must not lead to a folder, nor ask for one by its last
slash. -/
def target (tree : FileTree) (path : Text) : Except LoadError (List Text) :=
  if longestPath < Text.byteLength path then .error .nameTooLong
  else
    match (Path.parts path).reverse.dropWhile (· = []) with
    | [] => .error (if path = [] then .noEntry else .isDirectory)
    | last :: before =>
        match tree.walk (tree.origin path) before.reverse with
        | .error e => .error e
        | .ok names =>
            if !tree.isFolder names then .error .notDirectory
            else if path.getLast? = some '/' ∨ last = ['.'] ∨ last = Path.parentPart
                ∨ tree.isFolder (names ++ [last]) then .error .isDirectory
            else if longestName < Text.byteLength last then .error .nameTooLong
            else .ok (names ++ [last])

/-- The tree with a text written at a path. -/
def write (tree : FileTree) (path content : Text) : Except LoadError FileTree :=
  (tree.target path).map fun names =>
    { tree with files := (names, .text content) :: tree.files.filter (·.1 ≠ names) }

/-! ### Sources -/

/-- A file that can be read is a text of the tree. -/
theorem text_of_read {tree : FileTree} {l : Location} {source : Text}
    (h : tree.read l = .ok source) : l.absolute = true ∧ (l.names, .text source) ∈ tree.files := by
  unfold read at h
  split at h
  · next t hfile =>
    split at h
    · next habsolute =>
      cases h
      simp only [file?, Option.map_eq_some_iff] at hfile
      obtain ⟨⟨names, content⟩, hf, rfl⟩ := hfile
      obtain rfl : names = l.names := by simpa using List.find?_some hf
      exact ⟨habsolute, List.mem_of_find?_eq_some hf⟩
    · cases h
  · cases h
  · split at h <;> cases h

theorem mem_of_read {tree : FileTree} {l : Location} {source : Text}
    (h : tree.read l = .ok source) : l ∈ tree.files.map fun f => ⟨true, f.1⟩ := by
  obtain ⟨habsolute, hmem⟩ := text_of_read h
  exact List.mem_map.2 ⟨_, hmem, by rw [← habsolute]⟩

/-- The tree as a loader. -/
def loader (tree : FileTree) : Loader where
  locations := tree.files.map fun f => ⟨true, f.1⟩
  resolve := tree.resolve
  load := tree.read
  load_mem := mem_of_read

end FileTree

end IndentMarkup
