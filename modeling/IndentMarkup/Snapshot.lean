import IndentMarkup.Document

/-!
What is known about paths and files before a command runs.

A compile is a pure function of its loader, so the files of a real file system are read
beforehand: first the document, then whatever its lines can include, and so on. A source
names all that it can include on lines that start with an exclamation mark, because an
inclusion stands at the margin and nowhere else.

* `Document.inclusionPaths` — the paths that a source can include.
* `Snapshot.loader` — what has been read, as a place where sources come from.
-/

namespace IndentMarkup

/-- The paths that a source can include, when its inclusions start from `base`. -/
def Document.inclusionPaths (base source : Text) : List Text :=
  (SourceLine.textsOf source).filterMap fun
    | '!' :: target =>
        match Path.sourceOf (Text.trim target) with
        | .ok path => some (Path.join base path)
        | .error _ => none
    | _ => none

/-- Paths with the locations that they lead to, and locations with their sources. -/
structure Snapshot where
  paths : List (Text × Except LoadError Location)
  sources : List (Location × Except LoadError Text)

namespace Snapshot

/-- Nothing is known. -/
def empty : Snapshot := ⟨[], []⟩

/-- The location that a path leads to. -/
def resolve (s : Snapshot) (path : Text) : Except LoadError Location :=
  match s.paths.find? (·.1 = path) with
  | some p => p.2
  | none => .error .noEntry

/-- The source at a location. -/
def load (s : Snapshot) (l : Location) : Except LoadError Text :=
  match s.sources.find? (·.1 = l) with
  | some f => f.2
  | none => .error .noEntry

theorem mem_of_load {s : Snapshot} {l : Location} {source : Text}
    (h : s.load l = .ok source) : l ∈ s.sources.map (·.1) := by
  unfold load at h
  split at h
  · rename_i f hf
    have heq := List.find?_some hf
    exact List.mem_map.2 ⟨f, List.mem_of_find?_eq_some hf, by simpa using heq⟩
  · cases h

/-- The snapshot as a loader. -/
def loader (s : Snapshot) : Loader where
  locations := s.sources.map (·.1)
  resolve := s.resolve
  load := s.load
  load_mem := mem_of_load

end Snapshot

end IndentMarkup
