import IndentMarkup.FileTree
import IndentMarkup.Proofs.EntryPoints
import IndentMarkup.Proofs.Termination

/-!
A folder on disk and the library of its files.

A tree finds files by walking from folder to folder, under the names that lead to them from the
root; a library finds them by the text of their paths alone, under names from the top folder. As
long as no path is absolute or climbs above the top folder, the two ways of finding a file stay
side by side: where the one comes to a file below the working folder, the other one comes to the
same names. So whatever is compiled from the tree is compiled from the library of the texts below
its working folder, too, with the same files open and the same folders to start from.

* `FileTree.IsProper` — what is known of every tree on a disk.
* `Path.Stays` — the path leads nowhere above a folder.
* `FileTree.walk_working` — walking from folder to folder, and reading a path part by part.
* `FileTree.library` — the texts of a tree by their relative paths.
* `FileTree.resolve_below` — an inclusion leads to the same names in both.
* `couples_readNested_library` — a source of the tree is read alike from the library.
* `compileFile_library` — the two compiles.
-/

namespace IndentMarkup

/-! ### Paths of names -/

namespace Path

/-- The text can be the name of a file or folder. -/
structure IsName (name : Text) : Prop where
  nonempty : name ≠ []
  current : name ≠ ['.']
  parent : name ≠ parentPart
  slash : '/' ∉ name

instance (name : Text) : Decidable (IsName name) :=
  decidable_of_iff (name ≠ [] ∧ name ≠ ['.'] ∧ name ≠ parentPart ∧ '/' ∉ name)
    ⟨fun h => ⟨h.1, h.2.1, h.2.2.1, h.2.2.2⟩, fun h => ⟨h.nonempty, h.current, h.parent, h.slash⟩⟩

theorem IsName.isSilentPart {name : Text} (h : IsName name) : Path.isSilentPart name = false := by
  simp [Path.isSilentPart, h.nonempty, h.current]

theorem parts_append_slash (s t : Text) : parts (s ++ '/' :: t) = parts s ++ parts t :=
  Text.pieces_append_cons (by decide) s t

theorem parts_of_notMem {t : Text} (h : '/' ∉ t) : parts t = [t] := Text.pieces_of_notMem h

theorem notMem_of_mem_parts {part path : Text} (h : part ∈ parts path) : '/' ∉ part := by
  intro hmem
  exact absurd (Text.not_cut_of_mem_pieces h hmem) (by decide)

section Names

variable {names : List Text} (hnames : ∀ n ∈ names, IsName n)
include hnames

/-- Names between slashes are the parts of a path that neither starts nor ends with one. -/
theorem join_names (hsome : names ≠ []) :
    parts (Text.join ['/'] names) = names ∧ Text.join ['/'] names ≠ [] ∧
      (Text.join ['/'] names).head? ≠ some '/' ∧ (Text.join ['/'] names).getLast? ≠ some '/' := by
  induction names with
  | nil => exact absurd rfl hsome
  | cons n names ih =>
      obtain ⟨hn, hnames⟩ := List.forall_mem_cons.1 hnames
      have hhead (t : Text) : (n ++ t).head? ≠ some '/' := by
        obtain ⟨c, u, hu⟩ := List.exists_cons_of_ne_nil hn.nonempty
        rw [hu, List.cons_append, List.head?_cons, ne_eq, Option.some.injEq]
        rintro rfl
        exact hn.slash (hu ▸ List.mem_cons_self)
      cases names with
      | nil =>
          refine ⟨parts_of_notMem hn.slash, hn.nonempty, ?_, fun hlast => ?_⟩
          · rw [← List.append_nil (Text.join ['/'] [n])]
            exact hhead []
          · exact hn.slash (List.mem_of_getLast? hlast)
      | cons m names =>
          obtain ⟨hparts, hne, -, hlast⟩ := ih hnames (List.cons_ne_nil m names)
          have hjoin : Text.join ['/'] (n :: m :: names)
              = n ++ '/' :: Text.join ['/'] (m :: names) := by
            rw [Text.join, List.append_assoc]
            rfl
          rw [hjoin]
          refine ⟨?_, by simp, hhead _, ?_⟩
          · rw [parts_append_slash, hparts, parts_of_notMem hn.slash]
            rfl
          · rwa [List.getLast?_append_of_ne_nil _ (List.cons_ne_nil _ _),
              List.getLast?_cons_of_ne_nil hne]

/-- A relative path read from the folder with these names. -/
theorem join_relative {path : Text} (hrelative : isAbsolute path = false) :
    isAbsolute (join (Text.join ['/'] names) path) = false ∧
      parts (join (Text.join ['/'] names) path) = names ++ parts path := by
  by_cases hsome : names = []
  · subst hsome
    have hjoin : join (Text.join ['/'] []) path = path := by simp [join, hrelative, Text.join]
    rw [hjoin]
    exact ⟨hrelative, rfl⟩
  · obtain ⟨hparts, hne, hhead, hlast⟩ := join_names hnames hsome
    have hjoin : join (Text.join ['/'] names) path = Text.join ['/'] names ++ '/' :: path := by
      simp [join, hrelative, hne, hlast]
    rw [hjoin, parts_append_slash, hparts]
    refine ⟨?_, rfl⟩
    rw [isAbsolute, List.head?_append_of_ne_nil _ hne]
    simpa using hhead

/-- A relative path read from the folder with these names from the root. -/
theorem join_absolute {path : Text} (hrelative : isAbsolute path = false) :
    isAbsolute (join ('/' :: Text.join ['/'] names) path) = true ∧
      parts (join ('/' :: Text.join ['/'] names) path) = [] :: (names ++ parts path) := by
  by_cases hsome : names = []
  · subst hsome
    have hjoin : join ('/' :: Text.join ['/'] []) path = '/' :: path := by
      simp [join, hrelative, Text.join]
    rw [hjoin]
    exact ⟨rfl, parts_append_slash [] path⟩
  · obtain ⟨hparts, hne, -, hlast⟩ := join_names hnames hsome
    have hjoin : join ('/' :: Text.join ['/'] names) path
        = [] ++ '/' :: (Text.join ['/'] names ++ '/' :: path) := by
      simp [join, hrelative, List.getLast?_cons_of_ne_nil hne, hlast]
    rw [hjoin, parts_append_slash, parts_append_slash, hparts]
    exact ⟨rfl, rfl⟩

end Names

/-! ### Paths that stay below a folder -/

/-- Going along the parts never leads above the place `depth` folders up. -/
def staysBelow : (depth : Nat) → List Text → Bool
  | _, [] => true
  | depth, part :: parts =>
      if isSilentPart part then staysBelow depth parts
      else if part = parentPart then 0 < depth && staysBelow (depth - 1) parts
      else staysBelow (depth + 1) parts

/-- The path is relative, and read from a folder it leads at no part of it above the one `depth`
folders up. -/
def Stays (depth : Nat) (path : Text) : Prop :=
  isAbsolute path = false ∧ staysBelow depth (parts path) = true

instance (depth : Nat) (path : Text) : Decidable (Stays depth path) :=
  inferInstanceAs (Decidable (_ ∧ _))

end Path

/-! ### Names that a path leads to -/

namespace Location

open IndentMarkup.Path (IsName staysBelow)

theorem foldl_step_names {names : List Text} (hnames : ∀ n ∈ names, IsName n)
    (before : List Text) : names.foldl step before = before ++ names := by
  induction names generalizing before with
  | nil => exact (List.append_nil before).symm
  | cons n names ih =>
      obtain ⟨hn, hnames⟩ := List.forall_mem_cons.1 hnames
      have hstep : step before n = before ++ [n] := by simp [step, hn.isSilentPart, hn.parent]
      rw [List.foldl_cons, hstep, ih hnames, List.append_assoc]
      rfl

/-- A part of a path, where it does not lead above the top. -/
theorem step_cases {names parts : List Text} {part : Text}
    (hstays : staysBelow names.length (part :: parts) = true) :
    (Path.isSilentPart part = true ∧ step names part = names ∧
        staysBelow names.length parts = true) ∨
      (Path.isSilentPart part = false ∧ part = Path.parentPart ∧ names ≠ [] ∧
        step names part = names.dropLast ∧ staysBelow names.dropLast.length parts = true) ∨
      (Path.isSilentPart part = false ∧ part ≠ Path.parentPart ∧ step names part = names ++ [part] ∧
        staysBelow (names ++ [part]).length parts = true) := by
  rw [staysBelow] at hstays
  cases hsilent : Path.isSilentPart part with
  | true =>
      rw [if_pos hsilent] at hstays
      exact .inl ⟨rfl, by simp [step, hsilent], hstays⟩
  | false =>
      rw [if_neg (by simp [hsilent])] at hstays
      by_cases hparent : part = Path.parentPart
      · rw [if_pos hparent, Bool.and_eq_true, decide_eq_true_eq] at hstays
        have hsome : names ≠ [] := List.ne_nil_of_length_pos hstays.1
        refine .inr (.inl ⟨rfl, hparent, hsome, ?_, ?_⟩)
        · rw [step, if_neg (by simp [hsilent]), if_pos hparent, if_neg hsome]
        · rw [List.length_dropLast]
          exact hstays.2
      · rw [if_neg hparent] at hstays
        refine .inr (.inr ⟨rfl, hparent, by simp [step, hsilent, hparent], ?_⟩)
        rwa [List.length_append, List.length_singleton]

theorem isName_foldl_step {names parts : List Text} (hnames : ∀ n ∈ names, IsName n)
    (hparts : ∀ part ∈ parts, '/' ∉ part) (hstays : staysBelow names.length parts = true) :
    ∀ n ∈ parts.foldl step names, IsName n := by
  induction parts generalizing names with
  | nil => exact hnames
  | cons part parts ih =>
      obtain ⟨hpart, hparts⟩ := List.forall_mem_cons.1 hparts
      rw [List.foldl_cons]
      rcases step_cases hstays with ⟨-, hstep, hrest⟩ | ⟨-, -, -, hstep, hrest⟩ |
        ⟨hsilent, hparent, hstep, hrest⟩
      · rw [hstep]
        exact ih hnames hparts hrest
      · rw [hstep]
        exact ih (fun n hn => hnames n (List.dropLast_subset names hn)) hparts hrest
      · rw [hstep]
        have hname : IsName part := by
          simp only [Path.isSilentPart, Bool.or_eq_false_iff, decide_eq_false_iff_not] at hsilent
          exact ⟨hsilent.1, hsilent.2, hparent, hpart⟩
        refine ih (fun n hn => ?_) hparts hrest
        rcases List.mem_append.1 hn with hn | hn
        · exact hnames n hn
        · exact List.mem_singleton.1 hn ▸ hname

/-- The text of names is the path of the names. -/
theorem ofPath_join_names {names : List Text} (hnames : ∀ n ∈ names, IsName n) :
    ofPath (Text.join ['/'] names) = ⟨false, names⟩ := by
  by_cases hsome : names = []
  · subst hsome
    rfl
  · obtain ⟨hparts, -, hhead, -⟩ := Path.join_names hnames hsome
    rw [ofPath, hparts, foldl_step_names hnames, Path.isAbsolute, List.nil_append,
      decide_eq_false hhead]

end Location

/-! ### Libraries of paths -/

/-- A library has the source of a location if all paths that lead to it have this source. -/
theorem Library.find?_ofList {files : List (Text × Text)} {l : Location} {source : Text}
    (hsame : ∀ f ∈ files, Location.ofPath f.1 = l → f.2 = source)
    (hmem : ∃ f ∈ files, Location.ofPath f.1 = l) : (ofList files).find? l = some source := by
  -- the sources that are inserted before these do not matter, unless there are none of these
  have from_library (lib : Library)
      (h : lib.find? l = some source ∨ ∃ f ∈ files, Location.ofPath f.1 = l) :
      (files.foldl (fun lib f => lib.insert f.1 f.2) lib).find? l = some source := by
    clear hmem
    induction files generalizing lib with
    | nil =>
        obtain h | ⟨f, hf, -⟩ := h
        · exact h
        · cases hf
    | cons f files ih =>
        obtain ⟨hf, hfiles⟩ := List.forall_mem_cons.1 hsame
        refine ih hfiles _ ?_
        rw [find?_insert]
        by_cases hlocation : Location.ofPath f.1 = l
        · rw [if_pos hlocation, hf hlocation]
          exact .inl rfl
        · rw [if_neg hlocation]
          refine h.imp_right ?_
          rintro ⟨g, hg, hgl⟩
          rcases List.mem_cons.1 hg with rfl | hg
          · exact absurd hgl hlocation
          · exact ⟨g, hg, hgl⟩
  exact from_library ∅ (.inr hmem)

/-! ### Trees -/

namespace FileTree

open IndentMarkup.Path (IsName staysBelow)

/-- What is known of every tree on a disk: files and folders have names, no two files have the
same ones, and no file is a folder. -/
structure IsProper (tree : FileTree) : Prop where
  working : ∀ n ∈ tree.working, IsName n
  names : ∀ f ∈ tree.files, ∀ n ∈ f.1, IsName n
  distinct : (tree.files.map (·.1)).Nodup
  apart : ∀ f ∈ tree.files, tree.isFolder f.1 = false

variable {tree : FileTree} {names ns parts : List Text}

/-- Names are walked along one by one. -/
theorem walk_names (hns : ∀ n ∈ ns, IsName n) {found : List Text}
    (h : tree.walk names (ns ++ parts) = .ok found) :
    tree.walk (names ++ ns) parts = .ok found := by
  induction ns generalizing names with
  | nil => rwa [List.append_nil]
  | cons n ns ih =>
      obtain ⟨hn, hns⟩ := List.forall_mem_cons.1 hns
      simp only [List.cons_append, walk, hn.isSilentPart, hn.parent, Bool.false_eq_true,
        if_false] at h
      split at h
      · cases h
      · split at h
        · cases h
        · split at h
          · have hbelow := ih hns h
            rwa [List.append_assoc] at hbelow
          · cases h

/-- Below the working folder a walk comes to the names that its parts lead to. -/
theorem walk_working (hstays : staysBelow ns.length parts = true) {found : List Text}
    (h : tree.walk (tree.working ++ ns) parts = .ok found) :
    found = tree.working ++ parts.foldl Location.step ns := by
  induction parts generalizing ns with
  | nil =>
      cases h
      rfl
  | cons part parts ih =>
      rw [List.foldl_cons]
      simp only [walk] at h
      split at h
      · cases h
      · rcases Location.step_cases hstays with ⟨hsilent, hstep, hrest⟩ |
          ⟨hsilent, hparent, hsome, hstep, hrest⟩ | ⟨hsilent, hparent, hstep, hrest⟩
        · rw [if_pos hsilent] at h
          rw [hstep]
          exact ih hrest h
        · rw [if_neg (by simp [hsilent]), if_pos hparent,
            List.dropLast_append_of_ne_nil hsome] at h
          rw [hstep]
          exact ih hrest h
        · rw [if_neg (by simp [hsilent]), if_neg hparent] at h
          split at h
          · cases h
          · split at h
            · rw [List.append_assoc] at h
              rw [hstep]
              exact ih hrest h
            · cases h

/-- What a path leads to is what a walk comes to. -/
theorem walk_of_resolve {path : Text} {file : Location} (h : tree.resolve path = .ok file) :
    ∃ found, tree.walk (tree.origin path) (Path.parts path) = .ok found ∧ file = ⟨true, found⟩ := by
  rw [resolve] at h
  split at h
  · cases h
  · cases hwalk : tree.walk (tree.origin path) (Path.parts path) with
    | error err =>
        rw [hwalk] at h
        cases h
    | ok found =>
        rw [hwalk] at h
        cases h
        exact ⟨found, rfl, rfl⟩

/-- The empty part in front of an absolute path leads nowhere. -/
theorem walk_of_walk_empty_part {found : List Text}
    (h : tree.walk names ([] :: parts) = .ok found) : tree.walk names parts = .ok found := by
  rw [walk] at h
  split at h
  · cases h
  · rwa [if_pos (by decide)] at h

/-! ### The library of a tree -/

/-- The texts below the working folder with their relative paths. -/
def relativeTexts (tree : FileTree) : List (Text × Text) :=
  tree.files.filterMap fun f =>
    match f.2 with
    | .text t =>
        if tree.working <+: f.1 then
          some (Text.join ['/'] (f.1.drop tree.working.length), t)
        else none
    | .binary => none

/-- The library of the texts below the working folder, under their relative paths. -/
def library (tree : FileTree) : Library := .ofList tree.relativeTexts

theorem mem_relativeTexts {path source : Text} :
    (path, source) ∈ tree.relativeTexts ↔
      ∃ ns, (tree.working ++ ns, .text source) ∈ tree.files ∧ path = Text.join ['/'] ns := by
  rw [relativeTexts, List.mem_filterMap]
  constructor
  · rintro ⟨⟨names, content⟩, hf, hpath⟩
    cases content with
    | binary => cases hpath
    | text t =>
        dsimp only at hpath
        split at hpath
        · next hbelow =>
          obtain ⟨ns, rfl⟩ := hbelow
          cases hpath
          exact ⟨ns, hf, by rw [List.drop_left]⟩
        · cases hpath
  · rintro ⟨ns, hf, rfl⟩
    exact ⟨_, hf, by simp⟩

variable (htree : tree.IsProper)
include htree

/-- A text below the working folder is in the library. -/
theorem find?_library {source : Text} (h : (tree.working ++ ns, .text source) ∈ tree.files) :
    tree.library.find? ⟨false, ns⟩ = some source := by
  have hlocation {ms : List Text} {text : Text}
      (hmem : (tree.working ++ ms, .text text) ∈ tree.files) :
      Location.ofPath (Text.join ['/'] ms) = ⟨false, ms⟩ :=
    Location.ofPath_join_names fun n hn => htree.names _ hmem n (List.mem_append_right _ hn)
  refine Library.find?_ofList ?_ ⟨_, mem_relativeTexts.2 ⟨ns, h, rfl⟩, hlocation h⟩
  rintro ⟨path, text⟩ hmem hsame
  obtain ⟨ms, hms, rfl⟩ := mem_relativeTexts.1 hmem
  rw [hlocation hms, Location.mk.injEq] at hsame
  obtain rfl : ms = ns := hsame.2
  have heq := List.inj_on_of_nodup_map htree.distinct hms h rfl
  exact FileContent.text.inj (Prod.mk.inj heq).2

/-- A file that is read below the working folder is not that folder, and is in the library. -/
theorem find?_library_of_read {source : Text}
    (h : tree.read ⟨true, tree.working ++ ns⟩ = .ok source) :
    ns ≠ [] ∧ tree.library.find? ⟨false, ns⟩ = some source := by
  obtain ⟨-, hmem⟩ := text_of_read h
  refine ⟨?_, find?_library htree hmem⟩
  rintro rfl
  have hapart := htree.apart _ hmem
  have hfolder : tree.working.isPrefixOf tree.working = true :=
    List.isPrefixOf_iff_prefix.2 List.prefix_rfl
  rw [List.append_nil, isFolder, hfolder] at hapart
  cases hapart

/-- The library finds a file of the tree by every path that leads to its names. -/
theorem loads_library {source : Text}
    (h : tree.loader.load ⟨true, tree.working ++ ns⟩ = .ok source) {path : Text}
    (hpath : Location.ofPath path = ⟨false, ns⟩) :
    tree.library.loader.resolve path = .ok ⟨false, ns⟩ ∧
      tree.library.loader.load ⟨false, ns⟩ = .ok source := by
  obtain ⟨-, hfound⟩ := find?_library_of_read htree h
  simp only [Library.loader, Library.resolve, Library.read, hpath, hfound, Option.isSome_some,
    if_true, and_self]

/-- The names that a relative path leads to from a folder below the working one, found by walking
and found by the text of the path. -/
theorem resolve_below (hns : ∀ n ∈ ns, IsName n) (hsome : ns ≠ []) {path : Text}
    (hstays : Path.Stays ns.dropLast.length path) {file : Location}
    (h : tree.resolve (Path.join (Location.text (Location.parent ⟨true, tree.working ++ ns⟩)) path)
      = .ok file) :
    ∃ ms, (∀ n ∈ ms, IsName n) ∧ file = ⟨true, tree.working ++ ms⟩ ∧
      Location.ofPath (Path.join (Location.text (Location.parent ⟨false, ns⟩)) path)
        = ⟨false, ms⟩ := by
  obtain ⟨hrelative, hbelow⟩ := hstays
  have hfolder : ∀ n ∈ ns.dropLast, IsName n := fun n hn => hns n (List.dropLast_subset ns hn)
  have hwhole : ∀ n ∈ tree.working ++ ns.dropLast, IsName n :=
    List.forall_mem_append.2 ⟨htree.working, hfolder⟩
  have htree_base : Location.text (Location.parent ⟨true, tree.working ++ ns⟩)
      = '/' :: Text.join ['/'] (tree.working ++ ns.dropLast) := by
    simp [Location.text, Location.parent, hsome, List.dropLast_append_of_ne_nil hsome]
  have hlibrary_base : Location.text (Location.parent ⟨false, ns⟩)
      = Text.join ['/'] ns.dropLast := by
    simp [Location.text, Location.parent, hsome]
  obtain ⟨habsolute, hparts⟩ := Path.join_absolute hwhole hrelative
  obtain ⟨hstill, hparts'⟩ := Path.join_relative hfolder hrelative
  refine ⟨(Path.parts path).foldl Location.step ns.dropLast, ?_, ?_, ?_⟩
  · exact Location.isName_foldl_step hfolder (fun _ => Path.notMem_of_mem_parts) hbelow
  · obtain ⟨found, hwalk, rfl⟩ := walk_of_resolve h
    rw [htree_base, origin, habsolute, hparts, if_pos rfl] at hwalk
    rw [walk_working hbelow (walk_names hwhole (walk_of_walk_empty_part hwalk))]
  · rw [hlibrary_base, Location.ofPath, hstill, hparts', List.foldl_append,
      Location.foldl_step_names hfolder, List.nil_append]

omit htree in
/-- The names that a relative path leads to from the working folder. -/
theorem resolve_root {path : Text} (hstays : Path.Stays 0 path) {file : Location}
    (h : tree.resolve path = .ok file) :
    ∃ ns, (∀ n ∈ ns, IsName n) ∧ file = ⟨true, tree.working ++ ns⟩ ∧
      Location.ofPath path = ⟨false, ns⟩ := by
  obtain ⟨hrelative, hparts⟩ := hstays
  have hbelow : staysBelow ([] : List Text).length (Path.parts path) = true := hparts
  refine ⟨(Path.parts path).foldl Location.step [], ?_, ?_, ?_⟩
  · exact Location.isName_foldl_step nofun (fun _ => Path.notMem_of_mem_parts) hbelow
  · obtain ⟨found, hwalk, rfl⟩ := walk_of_resolve h
    rw [origin, hrelative, if_neg (by decide), ← List.append_nil tree.working] at hwalk
    rw [walk_working hbelow hwalk]
  · rw [Location.ofPath, hrelative]

end FileTree

/-! ### Two loaders side by side -/

namespace Coupling

variable {files files' : List Location} {origin : Text → Prop}

/-- Where the lines of two runs come from does not matter to their results. -/
theorem inlined_origin {origin' : Text → Prop} {x x' : CompileM (List Tab)}
    (h : (inlined files files' origin').Couples Eq x x') :
    (inlined files files' origin).Couples Eq x x' := by
  intro c c' hc
  have hrun := h c c' hc
  generalize x c = r at hrun
  generalize x' c' = r' at hrun
  cases hrun with
  | ok hv hc => exact .ok hv hc
  | error hs => exact hs.elim
  | excused hlax => exact .excused hlax

/-- A file of its own that each of two runs opens. -/
theorem couples_whileOpen_both (file file' : Location) {origin' : Text → Prop}
    {x x' : CompileM (List Tab)}
    (h : (inlined (file :: files) (file' :: files') origin').Couples Eq x x') :
    (inlined files files' origin).Couples Eq (Document.whileOpen file x)
      (Document.whileOpen file' x') :=
  couples_whileOpen_second file' (inlined_whileOpen file (inlined_origin h))

/-- A line of an inclusion keeps two runs with loaders and folders of their own in step, if the
second one finds the same source, in a file that it has not open. -/
theorem couples_readInclusion_across {loader loader' : Loader} {base base' : Text}
    {x x' : Text → Text → CompileM (List Tab)} {m m' : Line}
    (hm : (inlined files files' origin).Measured m m')
    (hx : ∀ file source, loader.Names base m file → file ∉ files → loader.load file = .ok source →
      ∃ file' origin', loader'.Names base' m file' ∧ file' ∉ files' ∧
        loader'.load file' = .ok source ∧
        (inlined (file :: files) (file' :: files') origin').Couples Eq (x file.parent.text source)
          (x' file'.parent.text source)) :
    (inlined files files' origin).Couples Eq (Document.readInclusion loader x base m)
      (Document.readInclusion loader' x' base' m') := by
  rintro c _ ⟨rfl, rfl⟩
  unfold Document.readInclusion
  rw [hm.content]
  -- only the case in which the first run goes on is of interest; it is excused in all others
  by_cases hempty : Text.trim (m.content.drop 1) = []
  · simp only [if_pos hempty]
    exact .excused trivial
  simp only [if_neg hempty]
  cases hpath : Path.sourceOf (Text.trim (m.content.drop 1)) with
  | error found => exact .excused trivial
  | ok path =>
      dsimp only
      cases hfile : loader.resolve (Path.join base path) with
      | error err => exact .excused trivial
      | ok file =>
          simp only [CompileM.get_bind_run]
          by_cases hopen : file ∈ c.openFiles
          · simp only [if_pos hopen]
            exact .excused trivial
          simp only [if_neg hopen]
          cases hload : loader.load file with
          | error err => exact .excused trivial
          | ok source =>
              obtain ⟨file', origin', ⟨path', hpath', hfile'⟩, hopen', hload', hread⟩ :=
                hx file source ⟨path, hpath, hfile⟩ hopen hload
              cases hpath.symm.trans hpath'
              simp only [hfile', hload', CompileM.get_bind_run, if_neg hopen']
              exact couples_whileOpen_both file file' hread c _ ⟨rfl, rfl⟩

end Coupling

/-! ### A tree and its library -/

section Library

variable {tree : FileTree} (htree : tree.IsProper) (depth : Nat) {root : Location}

/-- The files that can be reached from the root include no file by a path that is absolute or
climbs above the working folder. -/
def FileTree.StaysBelow (tree : FileTree) (root : Location) : Prop :=
  ∀ file, Relation.ReflTransGen tree.loader.Includes root file →
    ∀ target path, '!' :: target ∈ tree.loader.texts file →
      Path.sourceOf (Text.trim target) = .ok path →
      Path.Stays (file.names.length - tree.working.length - 1) path

variable (hstays : tree.StaysBelow root)
include htree hstays

/-- The source of a file is read from the tree and from the library in the same way, if the
library has room for the files that are not open. -/
theorem couples_readNested_library (nesting nesting' : Nat) (opened : List (List Text))
    {ns : List Text} {source : Text} (hns : ∀ n ∈ ns, Path.IsName n)
    (hload : tree.loader.load ⟨true, tree.working ++ ns⟩ = .ok source)
    (hreach : Relation.ReflTransGen tree.loader.Includes root ⟨true, tree.working ++ ns⟩)
    (hroom : (tree.library.loader.locations.toFinset
      \ (opened.map (Location.mk false)).toFinset).card < nesting') :
    (Coupling.inlined (opened.map fun names => ⟨true, tree.working ++ names⟩)
        (opened.map (Location.mk false))
        (· ∈ tree.loader.texts ⟨true, tree.working ++ ns⟩)).Couples Eq
      (Document.readNested tree.loader (expander depth) nesting
        (Location.text (Location.parent ⟨true, tree.working ++ ns⟩)) source)
      (Document.readNested tree.library.loader (expander depth) nesting'
        (Location.text (Location.parent ⟨false, ns⟩)) source) := by
  -- on the files that may be opened within one another; the room for them shrinks with each one
  induction nesting generalizing nesting' opened ns source with
  | zero => exact fun c c' hc => .excused trivial
  | succ nesting ih =>
      obtain ⟨hsome, -⟩ := FileTree.find?_library_of_read htree hload
      obtain ⟨nesting', rfl⟩ := Nat.exists_eq_add_of_le' (Nat.lt_of_le_of_lt (Nat.zero_le _) hroom)
      have htexts : ∀ t ∈ SourceLine.textsOf source,
          t ∈ tree.loader.texts ⟨true, tree.working ++ ns⟩ := by
        rw [Loader.texts, hload]
        exact fun t => id
      apply Coupling.couples_readSource_of_inclusions rfl (Coupling.inlined_expands depth) _
        (Coupling.inlined_lines htexts 0 0)
      intro m m' hm hline
      obtain ⟨unit, t, ht, hscan⟩ := hm.allowed
      apply Coupling.couples_readInclusion_across hm
      rintro file text ⟨path, hpath, hresolve⟩ hopen htext
      obtain ⟨target, rfl, htrim⟩ := exists_target_of_isInclusion hscan hline
      rw [← htrim] at hpath
      have hbelow : Path.Stays ns.dropLast.length path := by
        have hpathStays := hstays _ hreach target path ht hpath
        rwa [List.length_append, Nat.add_sub_cancel_left, ← List.length_dropLast] at hpathStays
      -- the file lies below the working folder, so the library has it under the names from there
      obtain ⟨ms, hms, rfl, hlocation⟩ :=
        FileTree.resolve_below htree hns hsome hbelow hresolve
      obtain ⟨hresolve', hload'⟩ := FileTree.loads_library htree htext hlocation
      have hopen' : (⟨false, ms⟩ : Location) ∉ opened.map (Location.mk false) := by
        intro hmem
        obtain ⟨names, hnames, heq⟩ := List.mem_map.1 hmem
        rw [Location.mk.injEq] at heq
        exact hopen (List.mem_map.2 ⟨names, hnames, by rw [heq.2]⟩)
      refine ⟨⟨false, ms⟩, (· ∈ tree.loader.texts ⟨true, tree.working ++ ms⟩),
        ⟨path, htrim ▸ hpath, hresolve'⟩, hopen', hload', ?_⟩
      apply ih nesting' (ms :: opened) hms htext
        (hreach.tail ⟨target, path, ht, hpath, hresolve⟩)
      have hmember := List.mem_toFinset.2 (tree.library.loader.load_mem hload')
      have hless := card_sdiff_cons_lt hmember hopen'
      rw [List.map_cons]
      omega

end Library

/-- Whether inclusions stay below the working folder can be seen from the files. -/
theorem FileTree.staysBelow_of_files {tree : FileTree} (root : Location)
    (h : ∀ f ∈ tree.files, ∀ t ∈ tree.loader.texts ⟨true, f.1⟩, t.head? = some '!' →
      ∀ path ∈ (Path.sourceOf (Text.trim (t.drop 1))).toOption,
        Path.Stays (f.1.length - tree.working.length - 1) path) : tree.StaysBelow root := by
  intro file _ target path ht hpath
  cases hload : tree.loader.load file with
  | error err =>
      rw [Loader.texts, hload] at ht
      cases ht
  | ok source =>
      obtain ⟨f, hf, rfl⟩ := List.mem_map.1 (tree.loader.load_mem hload)
      refine h f hf _ ht rfl path ?_
      rw [List.drop_one, List.tail_cons, hpath]
      rfl

/-- What is compiled from a tree is compiled from the library of its texts: for every root path
that stays below the working folder, if no file that is reached from it includes one by a path
that is absolute or climbs above the folder, at any of its parts. -/
theorem compileFile_library (tree : FileTree) (htree : tree.IsProper) (depth : Nat) {path : Text}
    (hpath : Path.Stays 0 path)
    (hstays : ∀ root, tree.loader.resolve path = .ok root → tree.StaysBelow root) {d : Document}
    (h : Document.compileFile tree.loader depth path = .ok d) :
    Document.compileFile tree.library.loader depth path = .ok d := by
  rw [Document.compileFile, Document.compileFileWith] at h ⊢
  cases hroot : tree.loader.resolve path with
  | error err =>
      rw [hroot] at h
      cases h
  | ok root =>
      rw [hroot] at h
      dsimp only at h
      cases hload : tree.loader.load root with
      | error err =>
          rw [hload] at h
          cases h
      | ok source =>
          rw [hload] at h
          obtain ⟨ns, hns, rfl, hlocation⟩ := FileTree.resolve_root hpath hroot
          obtain ⟨hresolve', hload'⟩ := FileTree.loads_library htree hload hlocation
          rw [hresolve']
          dsimp only
          rw [hload']
          -- one file is open, so there is room for all the others
          have hroom : (tree.library.loader.locations.toFinset
              \ ([ns].map (Location.mk false)).toFinset).card
              < tree.library.loader.locations.length + 1 :=
            Nat.lt_succ_of_le
              ((Finset.card_le_card Finset.sdiff_subset).trans (List.toFinset_card_le _))
          have hreads := couples_readNested_library htree depth (hstays _ hroot)
            (tree.loader.locations.length + 1) _ [ns] hns hload .refl hroom
          have hopens : (Coupling.inlined [] []).Couples Eq
              (Document.whileOpen _ (Document.readAll tree.loader (expander depth) _ source))
              (Document.whileOpen _
                (Document.readAll tree.library.loader (expander depth) _ source)) :=
            Coupling.couples_whileOpen_both _ _ hreads
          exact ofRun_of_couples hopens h

/-- A folder with a root and with a file of a folder below, which includes one of the folder
above, on a disk with a file elsewhere that is no text. -/
def foldersTree : FileTree where
  files := [(["w".toList, "r.smsh".toList], .text "# a\n! ./d/b\n# c".toList),
    (["w".toList, "d".toList, "b.smsh".toList], .text "# e\n! ../d/.././f".toList),
    (["w".toList, "f.smsh".toList], .text "@ g\n# h".toList), (["o.smsh".toList], .binary)]
  folders := []
  working := ["w".toList]

theorem compileFile_library_folders :
    ∃ d, foldersTree.IsProper ∧ Path.Stays 0 "d/../r.smsh".toList ∧
      (∀ root, foldersTree.loader.resolve "d/../r.smsh".toList = .ok root →
        foldersTree.StaysBelow root) ∧
      Document.compileFile foldersTree.loader 1 "d/../r.smsh".toList = .ok d ∧
      Document.compileFile foldersTree.library.loader 1 "d/../r.smsh".toList = .ok d ∧
      d.tabs.length = 4 := by
  have hproper : foldersTree.IsProper :=
    ⟨by decide +kernel, by decide +kernel, by decide +kernel, by decide +kernel⟩
  have hstays : Path.Stays 0 "d/../r.smsh".toList := by decide +kernel
  have hinclusions (root : Location) : foldersTree.StaysBelow root :=
    FileTree.staysBelow_of_files root (by decide +kernel)
  obtain ⟨d, hd, hfour⟩ : ∃ d, Document.compileFile foldersTree.loader 1
      "d/../r.smsh".toList = .ok d ∧ d.tabs.length = 4 := by
    decide +kernel
  exact ⟨d, hproper, hstays, fun root _ => hinclusions root, hd,
    compileFile_library foldersTree hproper 1 hstays (fun root _ => hinclusions root) hd, hfour⟩

end IndentMarkup
