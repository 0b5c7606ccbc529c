import IndentMarkup.Proofs.Inlining
import IndentMarkup.Proofs.Places
import IndentMarkup.Proofs.Stacks

/-!
A source and the file that holds it.

The source of a file can be compiled on its own, or the file by its path. While the file is
compiled it is open, and its inclusions start from its folder. The first matters only to a
file that is included within itself, and that fails in both ways: at once if the file is open,
and otherwise when its source is read for the second time, because it includes a file that is
open by then.

* `CompileM.Fails` — an action fails from a context.
* `Document.fails_readNested` — a source fails that includes an open file.
* `couples_readRoot` — so it does not matter that the root is open.
* `Location.ofPath_join_current` — nor that paths start from the current folder.
* `compileFile_iff_compileText` — the two compiles.
-/

namespace IndentMarkup

/-! ### Actions that fail -/

/-- The action fails from the context. -/
def CompileM.Fails {α : Type} (x : CompileM α) (c : Context) : Prop :=
  ∃ s d, x c = .error s d

/-- An action fails if the one behind it does, wherever it comes to. -/
theorem CompileM.fails_bind {α β : Type} {x : CompileM α} {f : α → CompileM β} {c : Context}
    (h : ∀ a d, x c = .ok a d → (f a).Fails d) : (x >>= f).Fails c := by
  unfold Fails
  rw [bind_run]
  cases hrun : x c with
  | ok a d => exact h a d hrun
  | error s d => exact ⟨s, d, rfl⟩

theorem CompileM.Fails.bind {α β : Type} {x : CompileM α} {c : Context} (h : x.Fails c)
    (f : α → CompileM β) : (x >>= f).Fails c := by
  obtain ⟨s, d, hrun⟩ := h
  exact ⟨s, d, bind_run_error hrun f⟩

/-! ### Sources that include an open file -/

namespace Document

variable {loader : Loader} {c : Context}

theorem fails_readInclusion {base : Text} {l : Line} {file : Location}
    (hnames : loader.Names base l file) (hopen : file ∈ c.openFiles)
    (inner : Text → Text → CompileM (List Tab)) : (readInclusion loader inner base l).Fails c := by
  obtain ⟨path, hpath, hfile⟩ := hnames
  unfold CompileM.Fails
  by_cases hempty : Text.trim (l.content.drop 1) = []
  · simp only [readInclusion, hempty, if_true]
    exact ⟨_, _, rfl⟩
  · simp only [readInclusion, hempty, if_false, hpath, hfile, CompileM.get_bind_run, hopen,
      if_true]
    exact ⟨_, _, rfl⟩

/-- The lines above the inclusion fail, or they leave the files open that are. Then the
inclusion fails. -/
theorem fails_readNested {depth : Nat} {file next : Location} {source : Text}
    (hload : loader.load file = .ok source) (hincludes : loader.Includes file next)
    (hopen : next ∈ c.openFiles) (nesting : Nat) :
    (readNested loader (expander depth) nesting file.parent.text source).Fails c := by
  cases nesting with
  | zero => exact ⟨_, _, rfl⟩
  | succ nesting =>
      obtain ⟨target, path, hmem, hpath, hnext⟩ := hincludes
      have htexts : loader.texts file = SourceLine.textsOf source := by rw [Loader.texts, hload]
      obtain ⟨above, below, hlines⟩ := List.append_of_mem (htexts ▸ hmem)
      rw [readNested, readSource_eq, SourceLine.ofSource, hlines, SourceLine.numberFrom_append,
        SourceLine.numberFrom, readTop_append (SourceLine.IsBoundary.closes (.inr (.inr rfl)) _),
        map_eq_pure_bind, bind_assoc]
      refine CompileM.fails_bind fun o d hrun => ?_
      have habove := (effect_sameStacks loader).readTop depth nesting file.parent.text
        (SourceLine.numberFrom 0 above).length ∅ (SourceLine.numberFrom 0 above) c
      have hstill : d.openFiles = c.openFiles := by
        rw [← CompileM.after_of_ok hrun]
        exact habove.openFiles
      rw [readTop_inclusion, bind_assoc]
      refine (fails_readInclusion ⟨path, ?_, hnext⟩ (hstill ▸ hopen) _).bind _
      rwa [trim_drop_inclusion]

end Document

/-! ### The root among the open files -/

section Root

variable {loader : Loader} {root : Location} {source : Text} (depth : Nat)

/-- A run is in step with any other one if it fails. -/
theorem couples_of_fails {files files' : List Location} {origin : Text → Prop} {α : Type}
    {x x' : CompileM α} (h : ∀ c, c.openFiles = files → x.Fails c) :
    (Coupling.inlined files files' origin).Couples Eq x x' := by
  rintro c c' ⟨hfiles, -⟩
  obtain ⟨s, d, hrun⟩ := h c hfiles
  rw [hrun]
  exact .excused trivial

/-- An inclusion goes the same way if the root is open besides, and if reading the root would
fail. -/
theorem couples_readInclusion_root {files files' : List Location} {origin : Text → Prop}
    (hfiles : files' ⊆ root :: files) {x : Text → Text → CompileM (List Tab)} {base : Text}
    {m m' : Line} (hm : (Coupling.inlined files files' origin).Measured m m')
    (hroot : loader.Names base m root → ∀ c, c.openFiles = files →
      (Document.readInclusion loader x base m).Fails c)
    (hx : ∀ file source, loader.Names base m file → file ≠ root →
      (Coupling.inlined (file :: files) (file :: files')).Couples Eq (x file.parent.text source)
        (x file.parent.text source)) :
    (Coupling.inlined files files' origin).Couples Eq (Document.readInclusion loader x base m)
      (Document.readInclusion loader x base m') := by
  by_cases hnames : loader.Names base m root
  · exact couples_of_fails (hroot hnames)
  · have hne {file : Location} (hfile : loader.Names base m file) : file ≠ root := by
      rintro rfl
      exact hnames hfile
    apply inlined_readInclusion ⟨fun _ => rfl, fun _ _ => rfl⟩ hm
    · intro file hfile hmem
      exact (List.mem_cons.1 (hfiles hmem)).resolve_left (hne hfile)
    · exact fun file source hfile => hx file source hfile (hne hfile)

variable (hload : loader.load root = .ok source)
include hload

/-- To open the root fails if it includes an open file, or itself. -/
theorem fails_readInclusion_root {base : Text} {m : Line} {next : Location} {c : Context}
    (hnames : loader.Names base m root) (hincludes : loader.Includes root next)
    (hopen : next ∈ root :: c.openFiles) (nesting : Nat) :
    (Document.readInclusion loader (Document.readNested loader (expander depth) nesting) base
      m).Fails c := by
  obtain ⟨path, hpath, hresolve⟩ := hnames
  rcases readInclusion_run (Document.readNested loader (expander depth) nesting) hpath hresolve
    (fun _ => hload) with ⟨s, hfails⟩ | hruns
  · exact ⟨s, c, hfails⟩
  · obtain ⟨s, d, hinside⟩ : (Document.readNested loader (expander depth) nesting root.parent.text
        source).Fails (c.openFile root) :=
      Document.fails_readNested hload hincludes hopen nesting
    refine ⟨s, d.closeFile, ?_⟩
    rw [hruns, Document.whileOpen, hinside]

/-- Below a file that the root includes. -/
theorem couples_readNested_root (nesting : Nat) {files files' : List Location}
    (hfiles : files' ⊆ root :: files) {next : Location} (hincludes : loader.Includes root next)
    (hopen : next ∈ files) (base text : Text) :
    (Coupling.inlined files files').Couples Eq
      (Document.readNested loader (expander depth) nesting base text)
      (Document.readNested loader (expander depth) nesting base text) := by
  induction nesting generalizing files files' base text with
  | zero => exact fun c c' hc => .excused trivial
  | succ nesting ih =>
      apply Coupling.couples_readSource rfl (Coupling.inlined_expands depth) _
        (Coupling.inlined_lines (fun _ _ => trivial) 0 0)
      intro m m' hm
      apply couples_readInclusion_root hfiles hm
      · rintro hnames c rfl
        exact fails_readInclusion_root depth hload hnames hincludes
          (List.mem_cons_of_mem root hopen) nesting
      · intro file _ _ _
        refine ih ?_ (List.mem_cons_of_mem file hopen) _ _
        exact List.Subset.trans (List.cons_subset_cons file hfiles)
          (List.Perm.swap root file files).subset

/-- The source of the root is read in the same way while the root is not open. -/
theorem couples_readRoot (nesting : Nat) :
    (Coupling.inlined [] [root] (· ∈ loader.texts root)).Couples Eq
      (Document.readNested loader (expander depth) nesting root.parent.text source)
      (Document.readNested loader (expander depth) nesting root.parent.text source) := by
  cases nesting with
  | zero => exact fun c c' hc => .excused trivial
  | succ nesting =>
      have htexts : ∀ t ∈ SourceLine.textsOf source, t ∈ loader.texts root := by
        rw [Loader.texts, hload]
        exact fun t => id
      apply Coupling.couples_readSource_of_inclusions rfl (Coupling.inlined_expands depth) _
        (Coupling.inlined_lines htexts 0 0)
      intro m m' hm hline
      obtain ⟨unit, t, ht, hscan⟩ := hm.allowed
      have hincludes {file : Location} (hnames : loader.Names root.parent.text m file) :
          loader.Includes root file := includes_of_names ht hscan hline hnames
      apply couples_readInclusion_root (List.Subset.refl [root]) hm
      · intro hnames c _
        exact fails_readInclusion_root depth hload hnames (hincludes hnames) List.mem_cons_self
          nesting
      · intro file text hnames _
        exact couples_readNested_root depth hload nesting (List.Perm.swap root file []).subset
          (hincludes hnames) List.mem_cons_self _ text

end Root

/-! ### The folder that paths start from -/

/-- The current folder is the place that paths start from. -/
theorem Location.ofPath_join_current (path : Text) :
    Location.ofPath (Path.join ['.'] path) = Location.ofPath (Path.join [] path) := by
  unfold Path.join
  split
  · rfl
  · next habsolute =>
      have hparts : Path.parts ('.' :: '/' :: path) = ['.'] :: Path.parts path := by
        simp [Path.parts, Text.pieces]
      have hcurrent : Path.isAbsolute ('.' :: '/' :: path) = Path.isAbsolute path := by
        simp only [Bool.not_eq_true] at habsolute
        rw [habsolute]
        rfl
      simp [Location.ofPath, hparts, hcurrent, Location.step, Path.isSilentPart]

theorem Library.readInclusion_current (lib : Library) (x : Text → Text → CompileM (List Tab)) :
    Document.readInclusion lib.loader x ['.'] = Document.readInclusion lib.loader x [] := by
  have hresolve (path : Text) :
      lib.loader.resolve (Path.join ['.'] path) = lib.loader.resolve (Path.join [] path) := by
    simp only [Library.loader, Library.resolve, Location.ofPath_join_current]
  funext l
  simp only [Document.readInclusion, hresolve]

theorem Library.readAll_current (lib : Library) (e : Expander) (source : Text) :
    Document.readAll lib.loader e ['.'] source = Document.readAll lib.loader e [] source := by
  simp only [Document.readAll, Document.readNested, lib.readInclusion_current]

/-! ### Two compiles -/

theorem Library.load_of_resolve {lib : Library} {path : Text} {file : Location}
    (h : lib.loader.resolve path = .ok file) : ∃ source, lib.loader.load file = .ok source := by
  simp only [Library.loader, Library.resolve] at h
  split at h
  · next hfound =>
      cases h
      obtain ⟨source, hsource⟩ := Option.isSome_iff_exists.1 hfound
      exact ⟨source, by simp only [Library.loader, Library.read, hsource]⟩
  · cases h

/-- A file that only the second run opens. -/
theorem couples_whileOpen_second {files files' : List Location} {origin : Text → Prop}
    (file : Location) {x x' : CompileM (List Tab)}
    (h : (Coupling.inlined files (file :: files') origin).Couples Eq x x') :
    (Coupling.inlined files files' origin).Couples Eq x (Document.whileOpen file x') := by
  rintro c _ ⟨hfiles, rfl⟩
  have hrun := h c { c with openFiles := file :: files' } ⟨hfiles, rfl⟩
  have hinside : ({ c with openFiles := files' } : Context).openFile file
      = { c with openFiles := file :: files' } := rfl
  unfold Document.whileOpen
  rw [hinside]
  generalize x c = r at hrun ⊢
  generalize x' { c with openFiles := file :: files' } = r' at hrun
  cases hrun with
  | ok hv hc =>
      obtain ⟨hopen, rfl⟩ := hc
      exact .ok hv ⟨hopen, rfl⟩
  | error hs => exact hs.elim
  | excused hlax => exact .excused hlax

theorem ofRun_of_couples {origin : Text → Prop} {x x' : CompileM (List Tab)} {d : Document}
    (h : (Coupling.inlined [] [] origin).Couples Eq x x')
    (hrun : Document.ofRun x .start = .ok d) : Document.ofRun x' .start = .ok d := by
  have hruns := h .start .start ⟨rfl, rfl⟩
  unfold Document.ofRun at hrun ⊢
  generalize x .start = r at hrun hruns
  generalize x' .start = r' at hruns
  cases hruns with
  | ok hv hc =>
      obtain ⟨-, rfl⟩ := hc
      rw [← hv]
      exact hrun
  | error hs => exact hs.elim
  | excused hlax => cases hrun

/-- A path that leads to a file of the top folder and the source of that file give the same
documents: neither the open root nor the other base changes one. -/
theorem compileFile_iff_compileText (lib : Library) (depth : Nat) {path : Text}
    {root : Location} (hroot : lib.loader.resolve path = .ok root)
    (htop : root.parent = ⟨false, []⟩) :
    ∃ source, lib.loader.load root = .ok source ∧ ∀ d,
      Document.compileFile lib.loader depth path = .ok d ↔
        Document.compileText lib.loader depth source = .ok d := by
  obtain ⟨source, hload⟩ := Library.load_of_resolve hroot
  refine ⟨source, hload, fun d => ?_⟩
  have hbase : root.parent.text = [] := by
    rw [htop]
    rfl
  simp only [Document.compileFile, Document.compileFileWith, hroot, hload, hbase,
    Document.compileText, Document.compileTextWith, lib.readAll_current]
  have hloader : SameBut [root] lib.loader lib.loader := ⟨fun _ => rfl, fun _ _ => rfl⟩
  constructor
  · have hfewer := inlined_readNested depth hloader (List.nil_subset [root])
      (Nat.le_refl (lib.loader.locations.length + 1)) [] source
    have hopen : (Coupling.inlined [] []).Couples Eq
        (Document.whileOpen root (Document.readAll lib.loader (expander depth) [] source))
        (Document.readAll lib.loader (expander depth) [] source) :=
      Coupling.inlined_whileOpen root hfewer
    exact ofRun_of_couples hopen
  · have hmore := couples_readRoot depth hload (lib.loader.locations.length + 1)
    rw [hbase] at hmore
    exact ofRun_of_couples (couples_whileOpen_second root hmore)

/-- A root with a file of a folder below, which includes one of the folder above. -/
def foldersLibrary : Library :=
  Library.ofList [("r.smsh".toList, "# a\n! d/b\n# c".toList),
    ("d/b.smsh".toList, "# e\n! ../f".toList), ("f.smsh".toList, "@ g\n# h".toList)]

theorem compileFile_iff_compileText_folders :
    ∃ root source d, foldersLibrary.loader.resolve "d/../r.smsh".toList = .ok root ∧
      root.parent = ⟨false, []⟩ ∧ foldersLibrary.loader.load root = .ok source ∧
      Document.compileFile foldersLibrary.loader 1 "d/../r.smsh".toList = .ok d ∧
      Document.compileText foldersLibrary.loader 1 source = .ok d ∧ d.tabs.length = 4 := by
  obtain ⟨d, hd, hfour⟩ : ∃ d, Document.compileFile foldersLibrary.loader 1
      "d/../r.smsh".toList = .ok d ∧ d.tabs.length = 4 := by
    decide +kernel
  have hroot : foldersLibrary.loader.resolve "d/../r.smsh".toList
      = .ok (Location.ofPath "r.smsh".toList) := rfl
  obtain ⟨source, hload, hsame⟩ := compileFile_iff_compileText foldersLibrary 1 hroot rfl
  exact ⟨_, source, d, hroot, rfl, hload, hd, (hsame d).1 hd, hfour⟩

end IndentMarkup
