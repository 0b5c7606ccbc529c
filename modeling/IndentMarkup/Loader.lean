import IndentMarkup.Location

/-!
Where sources come from.

A compile asks a loader two things: which location a path leads to, and what source
a location holds. The loader also lists the locations that hold a source; there are
finitely many, and that bounds how deep files can include one another.

* `Loader` — the interface.
* `Library` — sources kept in memory under their locations.
-/

namespace IndentMarkup

/-- Why a path leads nowhere or a location cannot be read. -/
inductive LoadError where
  /-- The library has no source at this path. -/
  | notFound (path : Text)
  /-- The file system has nothing at the path. -/
  | noEntry
  /-- A part of the path is a file and has nothing below it. -/
  | notDirectory
  /-- The path leads to a folder where a file is needed. -/
  | isDirectory
  /-- A name of the path, or the path itself, is longer than any can be. -/
  | nameTooLong
  /-- The bytes of the file are no text. -/
  | notText
  /-- The file system gives another reason, with its number. -/
  | other (reason : Text) (code : Nat)
  deriving DecidableEq, Repr

/-- The reason in words; those of a file system with its number. -/
def LoadError.message : LoadError → Text
  | .notFound path => path ++ " not found".toList
  | .noEntry => "No such file or directory (os error 2)".toList
  | .notDirectory => "Not a directory (os error 20)".toList
  | .isDirectory => "Is a directory (os error 21)".toList
  | .nameTooLong => "File name too long (os error 36)".toList
  | .notText => "stream did not contain valid UTF-8".toList
  | .other reason code => reason ++ " (os error ".toList ++ Text.ofNat code ++ [')']

/-- Resolves paths and reads sources. -/
structure Loader where
  /-- The locations that hold a source. -/
  locations : List Location
  /-- The location that a path leads to. -/
  resolve : Text → Except LoadError Location
  /-- The source at a location. -/
  load : Location → Except LoadError Text
  /-- Every location with a source is listed. -/
  load_mem : ∀ {l : Location} {source : Text}, load l = .ok source → l ∈ locations

/-! ### Sources in memory -/

/-- Sources under the locations of their paths; the latest comes first and hides
earlier ones at its location. -/
structure Library where
  sources : List (Location × Text)
  deriving DecidableEq, Repr

namespace Library

/-- The library without sources. -/
def empty : Library := ⟨[]⟩

instance : EmptyCollection Library := ⟨empty⟩

/-- The library with a source at a path, over an earlier one there. -/
def insert (lib : Library) (path source : Text) : Library :=
  ⟨(Location.ofPath path, source) :: lib.sources⟩

/-- The library with the given paths and sources, inserted in order. -/
def ofList (files : List (Text × Text)) : Library :=
  files.foldl (fun lib f => lib.insert f.1 f.2) ∅

/-- The source at a location. -/
def find? (lib : Library) (l : Location) : Option Text :=
  (lib.sources.find? (·.1 = l)).map (·.2)

theorem find?_insert (lib : Library) (path source : Text) (l : Location) :
    (lib.insert path source).find? l
      = if Location.ofPath path = l then some source else lib.find? l := by
  by_cases h : Location.ofPath path = l <;> simp [find?, insert, h]

/-- The location of a path, if there is a source. -/
def resolve (lib : Library) (path : Text) : Except LoadError Location :=
  let l := Location.ofPath path
  if (lib.find? l).isSome then .ok l else .error (.notFound l.text)

/-- The source that a path leads to. -/
def load (lib : Library) (path : Text) : Except LoadError Text :=
  match lib.find? (.ofPath path) with
  | some source => .ok source
  | none => .error (.notFound path)

/-- The source at a location that has been resolved. -/
def read (lib : Library) (l : Location) : Except LoadError Text :=
  match lib.find? l with
  | some source => .ok source
  | none => .error (.notFound l.text)

theorem mem_sources_of_read {lib : Library} {l : Location} {source : Text}
    (h : lib.read l = .ok source) : (l, source) ∈ lib.sources := by
  unfold read find? at h
  cases hf : lib.sources.find? (·.1 = l) with
  | none => simp [hf] at h
  | some e =>
      have hmem := List.mem_of_find?_eq_some hf
      have hlocation : e.1 = l := by simpa using List.find?_some hf
      have hsource : e.2 = source := by simpa [hf] using h
      rwa [← hlocation, ← hsource]

theorem mem_of_read {lib : Library} {l : Location} {source : Text}
    (h : lib.read l = .ok source) : l ∈ lib.sources.map (·.1) :=
  List.mem_map.2 ⟨(l, source), mem_sources_of_read h, rfl⟩

/-- The library as a loader. -/
def loader (lib : Library) : Loader where
  locations := lib.sources.map (·.1)
  resolve := lib.resolve
  load := lib.read
  load_mem := mem_of_read

end Library

end IndentMarkup
