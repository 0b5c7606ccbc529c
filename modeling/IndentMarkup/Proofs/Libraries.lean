import IndentMarkup.Proofs.Locations

/-!
A library as a store.

Sources are put under the locations of their paths, and asked for by any path to the same
location. A path that is asked about leads to the latest of its sources, and so does the location
that comes back, taken as a path once more.

* `Library.sources_ofList` — what insertions leave behind.
* `Library.latest_ofList` — the source at a location is the last one that was put there.
* `Library.resolve_ofList` — what paths lead to, and what is read there.
-/

namespace IndentMarkup.Library

/-- The insertions at the location of a path. -/
def sameAs (files : List (Text × Text)) (path : Text) : List (Text × Text) :=
  files.filter (Location.ofPath ·.1 = Location.ofPath path)

theorem sources_foldl_insert (files : List (Text × Text)) (lib : Library) :
    (files.foldl (fun lib f => lib.insert f.1 f.2) lib).sources =
      (files.map fun f => (Location.ofPath f.1, f.2)).reverse ++ lib.sources := by
  induction files generalizing lib with
  | nil => rfl
  | cons f files ih =>
      rw [List.foldl_cons, ih, List.map_cons, List.reverse_cons, List.append_assoc]
      rfl

theorem sources_ofList (files : List (Text × Text)) :
    (ofList files).sources = (files.map fun f => (Location.ofPath f.1, f.2)).reverse :=
  (sources_foldl_insert files ∅).trans (List.append_nil _)

theorem latest_ofList (files : List (Text × Text)) (path : Text) :
    (ofList files).find? (.ofPath path) = (sameAs files path).getLast?.map (·.2) := by
  rw [find?, sources_ofList, ← List.map_reverse, List.find?_map, ← List.head?_filter,
    List.filter_reverse, List.head?_reverse, Option.map_map]
  rfl

section Store

variable {lib : Library} {path : Text} {l : Location}

theorem resolve_eq_ok : lib.resolve path = .ok l ↔
    Location.ofPath path = l ∧ ∃ source, lib.find? (.ofPath path) = some source := by
  rw [resolve]
  cases h : lib.find? (.ofPath path) with
  | none => simp
  | some source => simp

/-- What a path leads to does not depend on the path, only on its location. -/
theorem load_of_find? {source : Text} (h : lib.find? (.ofPath path) = some source) :
    lib.load path = .ok source ∧ lib.load (Location.ofPath path).text = .ok source ∧
      lib.read (.ofPath path) = .ok source := by
  refine ⟨?_, ?_, ?_⟩
  · rw [load, h]
  · rw [load, Location.ofPath_text, h]
  · rw [read, h]

theorem load_of_resolve_error {e : LoadError} (h : lib.resolve path = .error e) :
    lib.load path = .error (.notFound path) := by
  rw [resolve] at h
  split at h
  · cases h
  · next hnone => rw [load, Option.not_isSome_iff_eq_none.1 hnone]

end Store

/-- A path can be resolved just if something was inserted at its location. Then the location that
it is resolved to is resolved to itself, and by the one as by the other, the source that was
inserted there last is loaded. Insertions at other locations change neither the resolution nor the
source; a path that cannot be resolved cannot be loaded; and the text of a location leads to that
location, whatever path it came from. -/
theorem resolve_ofList (files : List (Text × Text)) (path : Text) :
    ((∃ l, (ofList files).resolve path = .ok l) ↔
        ∃ f ∈ files, Location.ofPath f.1 = Location.ofPath path) ∧
      (∀ l, (ofList files).resolve path = .ok l →
        (ofList files).resolve l.text = .ok l ∧
          ∃ f, (sameAs files path).getLast? = some f ∧ (ofList files).load path = .ok f.2 ∧
            (ofList files).load l.text = .ok f.2 ∧ (ofList files).read l = .ok f.2) ∧
      ((ofList files).resolve path = (ofList (sameAs files path)).resolve path ∧
        (ofList files).load path = (ofList (sameAs files path)).load path) ∧
      (∀ e, (ofList files).resolve path = .error e → ∃ e', (ofList files).load path = .error e') ∧
      Location.ofPath (Location.ofPath path).text = Location.ofPath path := by
  have hlatest := latest_ofList files path
  refine ⟨?_, ?_, ?_, fun e he => ⟨_, load_of_resolve_error he⟩, Location.ofPath_text path⟩
  · simp only [resolve_eq_ok, hlatest]
    constructor
    · rintro ⟨l, -, source, hsource⟩
      obtain ⟨f, hf, -⟩ := Option.map_eq_some_iff.1 hsource
      have hmem := List.mem_filter.1 (List.mem_of_getLast? hf)
      exact ⟨f, hmem.1, by simpa using hmem.2⟩
    · rintro ⟨f, hf, hlocation⟩
      have hmem : f ∈ sameAs files path := List.mem_filter.2 ⟨hf, by simpa using hlocation⟩
      refine ⟨_, rfl, ((sameAs files path).getLast (List.ne_nil_of_mem hmem)).2, ?_⟩
      rw [List.getLast?_eq_some_getLast (List.ne_nil_of_mem hmem), Option.map_some]
  · intro l hl
    obtain ⟨rfl, source, hsource⟩ := resolve_eq_ok.1 hl
    obtain ⟨f, hf, rfl⟩ := Option.map_eq_some_iff.1 (hlatest.symm.trans hsource)
    obtain ⟨hload, hagain, hread⟩ := load_of_find? hsource
    refine ⟨?_, f, hf, hload, hagain, hread⟩
    rw [resolve_eq_ok, Location.ofPath_text]
    exact ⟨rfl, _, hsource⟩
  · have hsame : (ofList (sameAs files path)).find? (.ofPath path) =
        (ofList files).find? (.ofPath path) := by
      rw [latest_ofList, hlatest, sameAs, sameAs, List.filter_filter]
      simp only [Bool.and_self]
    simp only [resolve, load, hsame, and_self]

/-- The second source is put at the location of the first one, and the third one elsewhere. -/
theorem resolve_ofList_latest :
    let files := [("../d/a".toList, ['1']), ("x/../../d/./a".toList, ['2']), ("a".toList, ['3'])]
    let l : Location := ⟨false, ["..".toList, ['d'], ['a']]⟩
    (ofList files).resolve "..//d/a".toList = .ok l ∧
      ((ofList files).resolve l.text = .ok l ∧
        ∃ f, (sameAs files "..//d/a".toList).getLast? = some f ∧
          (ofList files).load "..//d/a".toList = .ok f.2 ∧
          (ofList files).load l.text = .ok f.2 ∧ (ofList files).read l = .ok f.2) ∧
      (ofList files).resolve "../a".toList = .error (.notFound "../a".toList) ∧
      ∃ e, (ofList files).load "../a".toList = .error e :=
  ⟨by decide +kernel, (resolve_ofList _ _).2.1 _ (by decide +kernel), by decide +kernel,
    (resolve_ofList _ _).2.2.2.1 (.notFound "../a".toList) (by decide +kernel)⟩

end IndentMarkup.Library
