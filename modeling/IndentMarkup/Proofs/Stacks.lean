import IndentMarkup.Proofs.Moments
import Mathlib.Data.List.Dedup
import Mathlib.Data.List.Perm.Subperm

/-!
The stacks of open files and of templates that are being expanded.

Every reader closes what it opens, also when it fails in between. A file is opened only while
it is not open, and a template is expanded only while it is not being expanded, so at every
moment of a compile both stacks are without repetition. Then files are nested at most as deep
as there are files.

* `SameStacks` — two contexts with the same stacks.
* `Context.Guarded` — the stacks are without repetition, and the files are known.
* `stacks_balanced` — every reader keeps both stacks, and they are guarded at every moment.
-/

namespace IndentMarkup

/-- What was open and being expanded before is so afterwards, and nothing else. -/
structure SameStacks (c d : Context) : Prop where
  expanding : d.expanding = c.expanding
  openFiles : d.openFiles = c.openFiles

/-- Readers keep both stacks. -/
theorem effect_sameStacks (loader : Loader) : Effect loader SameStacks where
  refl _ := ⟨rfl, rfl⟩
  trans h h' := ⟨h'.expanding.trans h.expanding, h'.openFiles.trans h.openFiles⟩
  directive h := by
    obtain ⟨-, metadata, indentation, rfl⟩ := Context.readDirective_ok h
    exact ⟨rfl, rfl⟩
  addClass h := by
    obtain ⟨metadata, -, rfl⟩ := Context.addClass_ok h
    exact ⟨rfl, rfl⟩
  define h := by
    obtain ⟨m, -, -, rfl⟩ := Context.defineBody_ok h
    exact ⟨rfl, rfl⟩
  undefine h := by
    obtain ⟨-, rfl⟩ := Context.undefine_ok h
    exact ⟨rfl, rfl⟩
  opened _ _ := ⟨rfl, rfl⟩
  file _ _ h := ⟨h.expanding, congrArg (List.drop 1) h.openFiles⟩
  template _ h := ⟨congrArg (List.drop 1) h.expanding, h.openFiles⟩

/-- No template is expanded within itself, no file is open within itself, and the open files
are among those of the loader. -/
structure Context.Guarded (loader : Loader) (c : Context) : Prop where
  expanding : c.expanding.Nodup
  openFiles : c.openFiles.Nodup
  known : c.openFiles ⊆ loader.locations

namespace Context.Guarded

variable {loader : Loader} {c d : Context}

theorem of_sameStacks (hc : c.Guarded loader) (h : SameStacks c d) : d.Guarded loader where
  expanding := h.expanding ▸ hc.expanding
  openFiles := h.openFiles ▸ hc.openFiles
  known := h.openFiles ▸ hc.known

theorem openFile {file : Location} {text : Text} (hload : loader.load file = .ok text)
    (hfile : file ∉ c.openFiles) (hc : c.Guarded loader) : (c.openFile file).Guarded loader where
  expanding := hc.expanding
  openFiles := hc.openFiles.cons hfile
  known := List.cons_subset.2 ⟨loader.load_mem hload, hc.known⟩

theorem closeFile (hc : c.Guarded loader) : c.closeFile.Guarded loader where
  expanding := hc.expanding
  openFiles := hc.openFiles.drop
  known _ hfile := hc.known (List.mem_of_mem_drop hfile)

theorem enter {name : Text} (hname : name ∉ c.expanding) (hc : c.Guarded loader) :
    (c.enter name).Guarded loader where
  expanding := hc.expanding.cons hname
  openFiles := hc.openFiles
  known := hc.known

theorem leave (hc : c.Guarded loader) : c.leave.Guarded loader where
  expanding := hc.expanding.drop
  openFiles := hc.openFiles
  known := hc.known

theorem step (h : Step loader c d) (hc : c.Guarded loader) : d.Guarded loader := by
  have heffect := effect_sameStacks loader
  cases h with
  | directive _ h => exact hc.of_sameStacks (heffect.directive h)
  | addClass _ _ h => exact hc.of_sameStacks (heffect.addClass h)
  | define _ _ _ h => exact hc.of_sameStacks (heffect.define h)
  | undefine _ h => exact hc.of_sameStacks (heffect.undefine h)
  | opened n => exact hc.of_sameStacks ⟨rfl, rfl⟩
  | openFile hload hfile => exact hc.openFile hload hfile
  | closeFile => exact hc.closeFile
  | enter hname => exact hc.enter hname
  | leave => exact hc.leave

theorem steps (h : Steps loader c d) (hc : c.Guarded loader) : d.Guarded loader := by
  induction h with
  | refl => exact hc
  | tail _ hstep ih => exact ih.step hstep

theorem of_starts {base source : Text} {start : Context}
    (h : Document.Starts loader base source start) : start.Guarded loader := by
  have hnone : Context.start.Guarded loader := ⟨.nil, .nil, List.nil_subset _⟩
  cases h with
  | text => exact hnone
  | file _ hload => exact hnone.openFile hload List.not_mem_nil

/-- Open files are at most as many as there are files. -/
theorem length_openFiles_le (hc : c.Guarded loader) :
    c.openFiles.length ≤ loader.locations.dedup.length :=
  (List.subperm_of_subset hc.openFiles fun _ hl => List.mem_dedup.2 (hc.known hl)).length_le

end Context.Guarded

/-- The readers leave both stacks as they were, whether they end or stop; and at every moment
of a compile both are without repetition, so files are nested at most as deep as there are
files. -/
theorem stacks_balanced (loader : Loader) (depth : Nat) :
    (∀ c : Context,
      (∀ name values n, SameStacks c ((expander depth name values n).after c)) ∧
      (∀ t n column, SameStacks c ((Inline.format (expander depth) t n column).after c)) ∧
      (∀ l ls, SameStacks c ((Block.readLine (expander depth) l ls).after c)) ∧
      (∀ ls, SameStacks c ((Block.readFragment (expander depth) ls).after c)) ∧
      ∀ nesting base l, SameStacks c ((Document.readInclusion loader
        (Document.readNested loader (expander depth) nesting) base l).after c)) ∧
    ∀ base source start d, Document.Starts loader base source start →
      Document.Moment loader depth base source start d →
      d.expanding.Nodup ∧ d.openFiles.Nodup ∧
        d.openFiles.length ≤ loader.locations.dedup.length := by
  have hparts := (effect_sameStacks loader).congruence
  have hexpander := hparts.expander depth
  constructor
  · intro c
    refine ⟨fun name values n => hexpander name values n c, fun t n column => ?_, fun l ls => ?_,
      fun ls => ?_, fun nesting base l => ?_⟩
    · exact hparts.format (f := expander depth) hexpander t n column c
    · exact hparts.readLine (f := expander depth) hexpander l ls c
    · exact hparts.readFragment (f := expander depth) hexpander ls c
    · have hnested := hparts.readNested (f := expander depth) hexpander nesting
      exact hparts.readInclusion (y := Document.readNested loader (expander depth) nesting) hnested
        base l c
  · intro base source start d hstarts hmoment
    have hd : d.Guarded loader :=
      (Context.Guarded.of_starts hstarts).steps (Document.steps_of_moment hmoment).1
    exact ⟨hd.expanding, hd.openFiles, hd.length_openFiles_le⟩

/-- A file that calls its template. -/
def expandingSource : Text := "~+t\n\ta\n# s\n~t".toList

def expandingFile : Location := Location.ofPath "r.smsh".toList

def expandingLibrary : Library := Library.ofList [("r.smsh".toList, expandingSource)]

/-- The state when it does. -/
def expandingContext : Context :=
  { Context.start.openFile expandingFile with
    templates := (∅ : Table Template).insert "t".toList ⟨"t".toList, [], ['a']⟩
    nextId := 2
    hasStructure := true }

theorem stacks_balanced_expanding :
    ∃ d, Document.Starts expandingLibrary.loader expandingFile.parent.text expandingSource
        (Context.start.openFile expandingFile) ∧
      Document.Moment expandingLibrary.loader 1 expandingFile.parent.text expandingSource
        (Context.start.openFile expandingFile) d ∧
      d.expanding = ["t".toList] ∧ d.openFiles = [expandingFile] ∧
      d.expanding.Nodup ∧ d.openFiles.Nodup ∧
      d.openFiles.length ≤ expandingLibrary.loader.locations.dedup.length := by
  have hstarts : Document.Starts expandingLibrary.loader expandingFile.parent.text expandingSource
      (Context.start.openFile expandingFile) := @Document.Starts.file _ "r.smsh".toList _ _ rfl rfl
  have hasks : Asks ((Piece.source expandingFile.parent.text expandingSource).read
      expandingLibrary.loader · (Document.sourcesWithin expandingLibrary.loader 1 1))
      (Document.callsWithin 1) (Context.start.openFile expandingFile) ("t".toList, [], 3)
      expandingContext := by
    -- a failing answer to the call makes the compile fail
    refine ⟨fun q d => if (q, d) = (("t".toList, [], 3), expandingContext) then .error .exhausted d
      else Document.callsWithin 1 q d, fun q d hne => if_neg hne, ?_⟩
    intro heq
    have h := congrArg (fun r => match r with | .ok _ _ => true | .error _ _ => false) heq
    revert h
    decide +kernel
  have hmoment : Document.Moment expandingLibrary.loader 1 expandingFile.parent.text
      expandingSource (Context.start.openFile expandingFile) (expandingContext.enter "t".toList) :=
    .begins (.expansion .first hasks rfl)
  exact ⟨_, hstarts, hmoment, rfl, rfl,
    (stacks_balanced expandingLibrary.loader 1).2 _ _ _ _ hstarts hmoment⟩

end IndentMarkup
