import IndentMarkup.Proofs.Invariant
import Mathlib.Data.List.Chain
import Mathlib.Data.List.Nodup

/-!
Where errors are.

An error names the files that were open, outermost first, and a line of the last of them. It
is made where a reader stops, in that file or in the body of a template, whose lines have
numbers that mean nothing in the file; on its way out of an expansion it gets the line of the
call. So the place that the author sees is always one in a file.

* `Loader.Includes`, `Loader.Trail` — files that include one another, from a root on.
* `CompileError.Located` — the place of an error is one that the author can find.
* `expander_error` — an expansion fails on the line of its call.
* `located_readNested` — a file fails at such a place.
* `located_compileFile` — and so does a compile, unless its root cannot be read.
-/

namespace IndentMarkup

/-! ### Places -/

/-- The lines of the file at a location; there are none if it cannot be read. -/
def Loader.texts (loader : Loader) (file : Location) : List Text :=
  match loader.load file with
  | .ok source => SourceLine.textsOf source
  | .error _ => []

/-- A line of `file` includes `next`. -/
def Loader.Includes (loader : Loader) (file next : Location) : Prop :=
  ∃ target path, '!' :: target ∈ loader.texts file ∧
    Path.sourceOf (Text.trim target) = .ok path ∧
    loader.resolve (Path.join file.parent.text path) = .ok next

/-- The error ends an expansion that is called on its line, outside all other expansions, while
its files are open. -/
def CompileError.EndsCall (e : CompileError) (depth : Nat) : Prop :=
  ∃ name values c after, c.expanding = [] ∧ c.openFiles.reverse = e.opened ∧
    expander depth name values e.line c = .error (.error e) after

/-- The author finds the place of the error: files that include one another, from the root to
the file of the error, and a line of that file. What goes wrong in the body of a template is on
the line of a call and has no column. -/
structure CompileError.Located (loader : Loader) (depth : Nat) (root : Location)
    (e : CompileError) : Prop where
  root : e.opened.head? = some root
  distinct : e.opened.Nodup
  chain : e.opened.IsChain loader.Includes
  file : e.file = e.opened.getLast?
  line : ∃ file ∈ e.file, e.line < (loader.texts file).length
  expansion : e.cause.isOwn = false → e.column = none ∧ e.EndsCall depth ∧
    ∃ file ∈ e.file, ∃ t ∈ (loader.texts file)[e.line]?, '~' ∈ t

/-! ### Open files -/

/-- Files that are open, innermost first, each included by the one behind it. -/
inductive Loader.Trail (loader : Loader) (root : Location) : List Location → Prop where
  | root : Trail loader root [root]
  | inclusion {file next : Location} {above : List Location} :
      Trail loader root (file :: above) → loader.Includes file next → next ∉ file :: above →
      Trail loader root (next :: file :: above)

namespace Loader.Trail

variable {loader : Loader} {root : Location} {files : List Location}

theorem getLast?_eq (h : loader.Trail root files) : files.getLast? = some root := by
  induction h with
  | root => rfl
  | inclusion _ _ _ ih => rwa [List.getLast?_cons_cons]

theorem nodup (h : loader.Trail root files) : files.Nodup := by
  induction h with
  | root => exact List.pairwise_singleton _ root
  | inclusion _ _ hnew ih => exact List.nodup_cons.2 ⟨hnew, ih⟩

theorem isChain (h : loader.Trail root files) : files.reverse.IsChain loader.Includes := by
  rw [List.isChain_reverse]
  induction h with
  | root => exact List.isChain_singleton root
  | inclusion _ hincludes _ ih => exact List.isChain_cons_cons.2 ⟨hincludes, ih⟩

end Loader.Trail

/-! ### Lines with inclusions -/

theorem content_subset_of_scan {unit : Indentation} {n : Nat} {raw : Text} {m : Line}
    (h : unit.scan n raw = .ok m) : m.content ⊆ raw := by
  obtain ⟨hraw, -⟩ := Indentation.scan_ok h
  obtain ⟨blanks, -, hwhole⟩ := Text.exists_eq_trimEnd_append raw
  intro c hc
  rw [hwhole, hraw]
  exact List.mem_append_left blanks (List.mem_append_right _ hc)

theorem content_of_scan_margin {unit : Indentation} {n : Nat} {raw : Text} {m : Line}
    (h : unit.scan n raw = .ok m) (hmargin : m.depth = 0) : m.content = Text.trimEnd raw := by
  obtain ⟨hraw, hwidth, -⟩ := Indentation.scan_ok h
  rw [hraw, hwidth, hmargin]
  rfl

/-- The line of an inclusion is an exclamation mark with the target behind it. -/
theorem exists_target_of_isInclusion {unit : Indentation} {m : Line} {n : Nat} {t : Text}
    (hscan : unit.scan n t = .ok m) (hincludes : m.IsInclusion) :
    ∃ target, t = '!' :: target ∧ Text.trim target = Text.trim (m.content.drop 1) := by
  obtain ⟨u, hu⟩ := List.head?_eq_some_iff.1 (LineKind.head?_of_ofContent hincludes.2 rfl)
  obtain ⟨blanks, hblanks, heq⟩ := Text.exists_eq_trimEnd_append t
  rw [← content_of_scan_margin hscan hincludes.1, hu, List.cons_append] at heq
  exact ⟨u ++ blanks, heq, by rw [hu, Text.trim_append_of_allBlank u hblanks]; rfl⟩

/-- A file that a line at the margin names is included by the line's file. -/
theorem includes_of_names {loader : Loader} {file next : Location} {unit : Indentation}
    {m : Line} {t : Text} (ht : t ∈ loader.texts file) (hscan : unit.scan m.number t = .ok m)
    (hincludes : m.IsInclusion) (hnames : loader.Names file.parent.text m next) :
    loader.Includes file next := by
  obtain ⟨path, hpath, hnext⟩ := hnames
  obtain ⟨target, rfl, htrim⟩ := exists_target_of_isInclusion hscan hincludes
  exact ⟨target, path, ht, htrim ▸ hpath, hnext⟩

/-! ### Expansions -/

/-- The given files and templates are open, and errors name these files. -/
def Invariant.opened (files : List Location) (stack : List Text) : Invariant :=
  rigid (fun c => c.openFiles = files ∧ c.expanding = stack)
    (fun s => ∀ e, s = .error e → e.file = files.head? ∧ e.opened = files.reverse)
    (fun _ _ _ _ hc => hc) fun c cause n column hc e he => by
      cases he
      exact ⟨congrArg List.head? hc.1, congrArg List.reverse hc.1⟩

theorem opened_expander (depth : Nat) (files : List Location) (stack : List Text) :
    (Invariant.opened files stack).Expands (expander depth) := by
  induction depth generalizing stack with
  | zero => exact fun name values n _ c hc e he => nomatch he
  | succ depth ih =>
      intro name values n hn
      refine Invariant.keeps_expandWith ⟨?_, ?_, ?_, fun _ => trivial⟩ (ih (name :: stack))
        values hn
      · rintro c ⟨hfiles, hstack⟩ -
        exact ⟨hfiles, congrArg (name :: ·) hstack⟩
      · rintro c ⟨hfiles, hstack⟩
        exact ⟨hfiles, congrArg (List.drop 1) hstack⟩
      · intro s c n hs _ e he
        cases s with
        | exhausted => cases he
        | error e' =>
            cases he
            exact hs e' rfl

/-- An expansion fails on the line of its call, in the file that is open there. -/
theorem expander_error {depth : Nat} {name : Text} {values : List Text} {n : Nat}
    {c after : Context} {e : CompileError}
    (h : expander depth name values n c = .error (.error e) after) :
    e.line = n ∧ e.column = none ∧ e.file = c.openFiles.head? ∧
      e.opened = c.openFiles.reverse := by
  have hkeeps := opened_expander depth c.openFiles c.expanding name values n trivial c ⟨rfl, rfl⟩
  rw [h] at hkeeps
  have hplace : e.line = n ∧ e.column = none := by
    cases depth with
    | zero => cases h
    | succ depth =>
        rw [expander, expandWith] at h
        split at h
        · cases h
          exact ⟨rfl, rfl⟩
        · split at h
          · cases h
          · next s _ _ =>
              cases s with
              | exhausted => cases h
              | error e' =>
                  cases h
                  exact ⟨rfl, rfl⟩
  exact ⟨hplace.1, hplace.2, hkeeps e rfl⟩

/-! ### Files -/

/-- What is wrong on a line of the innermost of the open files is located. -/
theorem CompileError.located_of_trail {loader : Loader} {depth : Nat} {root file : Location}
    {above : List Location} {e : CompileError} (htrail : loader.Trail root (file :: above))
    (hline : e.line < (loader.texts file).length) (hfile : e.file = some file)
    (hopened : e.opened = (file :: above).reverse)
    (hexpansion : e.cause.isOwn = false → e.column = none ∧ e.EndsCall depth ∧
      ∃ t ∈ (loader.texts file)[e.line]?, '~' ∈ t) : e.Located loader depth root where
  root := by rw [hopened, List.head?_reverse, htrail.getLast?_eq]
  distinct := by
    rw [hopened, List.nodup_reverse]
    exact htrail.nodup
  chain := hopened ▸ htrail.isChain
  file := by rw [hopened, List.getLast?_reverse, hfile, List.head?_cons]
  line := ⟨file, hfile, hline⟩
  expansion hown := by
    obtain ⟨hcolumn, hends, htilde⟩ := hexpansion hown
    exact ⟨hcolumn, hends, file, hfile, htilde⟩

/-- The file is open below the root, and errors are at places that the author can find. -/
def Invariant.located (loader : Loader) (depth : Nat) (root file : Location)
    (above : List Location) : Invariant :=
  { rigid (fun c => c.openFiles = file :: above ∧ c.expanding = [] ∧
        loader.Trail root (file :: above))
      (fun _ => True) (fun _ _ _ _ hc => hc) fun _ _ _ _ _ => trivial with
    source := fun l => (loader.texts file)[l.number]? = some l.text
    line := fun m => ∃ (unit : Indentation) (t : Text),
      (loader.texts file)[m.number]? = some t ∧ unit.scan m.number t = .ok m
    number := fun n => n < (loader.texts file).length
    call := fun n => ∃ t ∈ (loader.texts file)[n]?, '~' ∈ t
    stop := fun s _ => ∀ e, s = .error e → e.Located loader depth root
    line_of_source := by
      intro unit l m hl hscan
      have hnumber : m.number = l.number := Indentation.number_of_scan hscan
      refine ⟨unit, l.text, ?_⟩
      rw [hnumber]
      exact ⟨hl, hscan⟩
    number_of_source := fun hl => (List.getElem?_eq_some_iff.1 hl).1
    number_of_line := by
      rintro m ⟨unit, t, ht, -⟩
      exact (List.getElem?_eq_some_iff.1 ht).1
    number_of_call := by
      rintro n ⟨t, ht, -⟩
      exact (List.getElem?_eq_some_iff.1 ht).1
    call_of_line := by
      rintro m ⟨unit, t, ht, hscan⟩ htilde
      exact ⟨t, ht, content_subset_of_scan hscan htilde⟩
    directive := by
      intro c after m hc _ h
      obtain ⟨-, metadata, indentation, rfl⟩ := Context.readDirective_ok h
      exact hc
    addClass := by
      intro c after name declarations ls hc _ _ h
      obtain ⟨metadata, -, rfl⟩ := Context.addClass_ok h
      exact hc
    fail := by
      rintro c n cause column hown ⟨hfiles, -, htrail⟩ hn e he
      cases he
      refine CompileError.located_of_trail htrail hn ?_ ?_ fun hwithin => ?_
      · rw [Context.errorAt, hfiles, List.head?_cons]
      · rw [Context.errorAt, hfiles]
      · exact absurd (hown.symm.trans hwithin) Bool.noConfusion }

section Files

variable {loader : Loader} {root file : Location} {above : List Location}

instance {depth : Nat} : (Invariant.located loader depth root file above).Outer where
  opened _ hc := hc

theorem located_expander (depth : Nat) :
    (Invariant.located loader depth root file above).Expands (expander depth) := by
  rintro name values n hcall c ⟨hfiles, hstack, htrail⟩
  have hkeeps := opened_expander depth (file :: above) [] name values n trivial c ⟨hfiles, hstack⟩
  cases hrun : expander depth name values n c with
  | ok es after =>
      rw [hrun] at hkeeps
      exact ⟨trivial, hkeeps.2.1, hkeeps.2.2, htrail⟩
  | error s after =>
      rintro e rfl
      obtain ⟨rfl, hcolumn, hfile, hopened⟩ := expander_error hrun
      rw [hfiles] at hfile hopened
      refine CompileError.located_of_trail htrail ?_ hfile hopened fun _ => ?_
      · obtain ⟨t, ht, -⟩ := hcall
        exact (List.getElem?_eq_some_iff.1 ht).1
      · refine ⟨hcolumn, ⟨name, values, c, after, hstack, ?_, hrun⟩, hcall⟩
        rw [hfiles, hopened]

/-- A file and those that it includes fail at places that the author can find. -/
theorem located_readNested (root : Location) (above : List Location) (depth nesting : Nat)
    {source : Text} (hload : loader.load file = .ok source) :
    (Invariant.located loader depth root file above).Keeps (fun _ => True)
      (Document.readNested loader (expander depth) nesting file.parent.text source) := by
  induction nesting generalizing file above source with
  | zero => exact fun c hc e he => nomatch he
  | succ nesting ih =>
      refine Invariant.keeps_readSource (located_expander depth) (fun m hm hincludes => ?_)
        fun l hl => ?_
      · refine Invariant.keeps_readInclusion
          (J := fun next => .located loader depth root next (file :: above)) hm
          (fun next hnames => ?_) fun next source _ hload => ih _ hload
        obtain ⟨unit, t, ht, hscan⟩ := hm
        have hnext := includes_of_names (List.mem_of_getElem? ht) hscan hincludes hnames
        refine ⟨?_, ?_, id⟩
        · rintro c ⟨hfiles, hstack, htrail⟩ hnew
          rw [hfiles] at hnew
          exact ⟨congrArg (next :: ·) hfiles, hstack, htrail.inclusion hnext hnew⟩
        · rintro c ⟨hfiles, hstack, htrail⟩
          cases htrail with
          | inclusion htrail _ _ => exact ⟨congrArg (List.drop 1) hfiles, hstack, htrail⟩
      · change (loader.texts file)[l.number]? = some l.text
        rw [Loader.texts, hload]
        exact SourceLine.getElem?_of_mem_ofSource hl

end Files

/-! ### Documents -/

/-- A compile fails without a place, because its root cannot be read, or at a place that the
author can find. -/
theorem located_compileFile {loader : Loader} {depth : Nat} {path : Text} {e : CompileError}
    (h : Document.compileFile loader depth path = .error (.error e)) :
    (((∃ reason, loader.resolve path = .error reason) ∨
        ∃ root reason, loader.resolve path = .ok root ∧ loader.load root = .error reason) ∧
      e.file = none ∧ e.opened = [] ∧ e.line = 0) ∨
    ∃ root, loader.resolve path = .ok root ∧ e.Located loader depth root := by
  unfold Document.compileFile Document.compileFileWith at h
  split at h
  · next reason hresolve =>
      cases h
      exact .inl ⟨.inl ⟨reason, hresolve⟩, rfl, rfl, rfl⟩
  · next root hresolve =>
      split at h
      · next reason hload =>
          cases h
          exact .inl ⟨.inr ⟨root, reason, hresolve, hload⟩, rfl, rfl, rfl⟩
      · next source hload =>
          refine .inr ⟨root, hresolve, ?_⟩
          have hkeeps := located_readNested root [] depth (loader.locations.length + 1) hload
            (Context.start.openFile root) ⟨rfl, rfl, .root⟩
          unfold Document.ofRun Document.whileOpen Document.readAll at h
          generalize Document.readNested loader _ _ _ source _ = r at h hkeeps
          cases r with
          | ok tabs after => cases h
          | error s after =>
              cases h
              exact hkeeps e rfl

/-- A root and the file that it includes, where one template calls another whose body is
wrong. -/
def failingLibrary : Library :=
  Library.ofList [("r.smsh".toList, "# a\n! b".toList),
    ("b.smsh".toList, "~+t\n\t~u\n~+u\n\t.img\n@ c\n# d\n~t".toList)]

/-- How it fails. -/
def nestedFailure : CompileError where
  cause := .within (.within (.structural .imageWithoutLink) "u".toList) "t".toList
  file := some (Location.ofPath "b.smsh".toList)
  line := 6
  column := none
  opened := [Location.ofPath "r.smsh".toList, Location.ofPath "b.smsh".toList]

theorem located_compileFile_nested :
    Document.compileFile failingLibrary.loader 2 "r.smsh".toList
        = .error (.error nestedFailure) ∧
      nestedFailure.Located failingLibrary.loader 2 (Location.ofPath "r.smsh".toList) := by
  obtain ⟨_, hfails, rfl⟩ : ∃ s, Document.compileFile failingLibrary.loader 2 "r.smsh".toList
      = .error s ∧ s = .error nestedFailure := by
    decide +kernel
  refine ⟨hfails, ?_⟩
  rcases located_compileFile hfails with ⟨-, hnone, -⟩ | ⟨root, hroot, hlocated⟩
  · cases hnone
  · have hfound : failingLibrary.loader.resolve "r.smsh".toList
        = .ok (Location.ofPath "r.smsh".toList) := rfl
    rw [Except.ok.inj (hfound.symm.trans hroot)]
    exact hlocated

end IndentMarkup
