import IndentMarkup.Proofs.Boundary
import IndentMarkup.Proofs.Prologue
import IndentMarkup.Proofs.Spacing.Lines

/-!
Tabs and spaces give the same document.

A source that is indented by tabs, and the same source with a number of spaces for each of
them and a line in front that says so, are read in step. The number of spaces is set in the
second run alone; but the first one leaves it unset, so it goes as if it had been set from the
start, and then only the unit of indentation and the bodies of templates differ.

* `Coupling.spacing` — what two such runs have in common; it is lawful.
* `spacing_expands`, `spacing_readNested` — expansions and files keep in step.
* `readDirective_spacesLine` — the line in front.
* `compileText_spaced` — the documents of the two compiles.
-/

namespace IndentMarkup

/-! ### Templates -/

/-- What counts of a template when spaces are written for its tabs. -/
def Template.spacedOutline (n : Nat) (m : Template) : Text × List Text × List Text :=
  (m.name, m.parameters, (Text.solidLines m.content).map (Text.spaced n))

/-- The lines of the template can be written with spaces, and its references do not reach over
their ends. -/
structure Template.Tabbed (m : Template) : Prop where
  newline : ∀ p ∈ m.parameters, '\n' ∉ p
  lines : ∀ l ∈ Text.solidLines m.content, TabbedLine l

/-- The second table has the templates of the first one with spaces for tabs. -/
abbrev SpacedTemplates (n : Nat) (templates templates' : Table Template) : Prop :=
  Table.Alike Template.Tabbed (Template.spacedOutline n) Template.outline templates templates'

/-- The same values come to bodies whose lines are the same with spaces for tabs. -/
theorem agree_substitute_spaced {n : Nat} {m m' : Template} (hm : m.Tabbed)
    (hsame : m'.outline = m.spacedOutline n) {values : List Text}
    (hvalues : ∀ v ∈ values, '\t' ∉ v ∧ '\n' ∉ v) :
    Agree False Eq (SpacedLines n) (m.substitute values) (m'.substitute values) := by
  obtain ⟨hname, hrest⟩ := Prod.mk.inj hsame
  obtain ⟨hparameters, hcontent⟩ := Prod.mk.inj hrest
  refine Template.agree_substitute hname hparameters ⟨hcontent, hm.lines⟩ hm.newline ?_
  intro parameter _ v hv l hl
  obtain ⟨htab, hnewline⟩ := hvalues v hv
  exact (keepsMargin_reference htab hnewline parameter).follows hl n

/-! ### Two runs -/

/-- A run on lines that are indented by tabs, and one on the same lines with spaces for tabs.
The number of spaces is set in both. -/
def Coupling.spacing (n : Nat) : Coupling where
  context c c' := c.indentation = .tabs ∧ c.metadata.spaces.isSome = true ∧
    ∃ templates, c' = { c with indentation := .spaces n, templates } ∧
      SpacedTemplates n c.templates templates
  number _ _ := True
  column _ _ := True
  line l l' := l'.text = l.text.spaced n ∧ l.isBlank = false ∧ TabbedLine l.text
  measured m := '\t' ∉ m.content ∧ '\n' ∉ m.content
  stop _ _ _ _ := True
  lax := True
  loose := True
  tail := []
  char _ c := c ≠ '\t' ∧ c ≠ '\n'

section Coupling

variable {n : Nat}

/-- Directives do the same to both runs, since none sets the number of spaces again. -/
theorem spacing_readDirective {c c' : Context} (hc : (Coupling.spacing n).context c c')
    {m m' : Line} (hcontent : m'.content = m.content) :
    Agree (Coupling.spacing n).lax Eq (Coupling.spacing n).context (c.readDirective m)
      (c'.readDirective m') := by
  obtain ⟨hunit, hset, templates, rfl, hsame⟩ := hc
  cases hrun : c.readDirective m with
  | error cause => exact .excused trivial
  | ok after =>
      obtain ⟨hearly, d, metadata, hname, hvalue, rfl⟩ := Context.readDirective_eq_ok.1 hrun
      have hparts : Context.directiveParts m' = Context.directiveParts m := by
        rw [Context.directiveParts, Context.directiveParts, hcontent]
      rw [← hparts] at hname hvalue
      have hrun' : { c with indentation := .spaces n, templates }.readDirective m' = .ok _ :=
        Context.readDirective_eq_ok.2 ⟨hearly, d, metadata, hname, hvalue, rfl⟩
      rw [hrun']
      rcases Metadata.spaces_of_set hvalue with ⟨hd, hspaces⟩ | ⟨-, hnone, -⟩
      · rw [if_neg hd, if_neg hd]
        exact .ok ⟨hunit, hspaces ▸ hset, templates, rfl, hsame⟩
      · rw [hnone] at hset
        cases hset

/-- Two such runs keep in step, as their lines have the same depths and contents. -/
theorem spacing_lawful (hn : 0 < n) : (Coupling.spacing n).Lawful where
  column_map _ _ _ _ := trivial
  trim_line hl := by
    rw [hl.1, Text.trim_spaced hl.2.2.tabs]
  isBlank_line hl := hl.2.1
  closes_tail := .inl rfl
  char_of_measured hm c hc := by
    constructor
    · rintro rfl
      exact hm.1 hc
    · rintro rfl
      exact hm.2 hc
  char_of_escape := by
    intro k c reference hreference d hd
    constructor
    · rintro rfl
      exact Text.notMem_of_escapable (by decide) hreference hd
    · rintro rfl
      exact Text.notMem_of_escapable (by decide) hreference hd
  scan := by
    rintro c _ l l' ⟨hunit, -, templates, rfl, -⟩ ⟨htext, hsolid, hline⟩
    rw [hunit]
    cases hscan : l.scan .tabs with
    | error e => exact .excused trivial
    | ok m =>
        obtain ⟨htab, hspaced⟩ := scan_spaced hn hline.tabs hsolid hscan l'.number
        rw [← htext] at hspaced
        have hscan' : l'.scan (.spaces n) = _ := hspaced
        rw [hscan']
        refine .ok ⟨rfl, rfl, trivial, trivial, htab, ?_⟩
        obtain ⟨blanks, -, heq⟩ := exists_of_scan_tabs hscan
        intro hmem
        apply hline.newline
        rw [heq]
        exact List.mem_append_right _ (List.mem_append_left blanks hmem)
  fail _ _ _ _ := .inl trivial
  template := by
    rintro c _ name ⟨-, -, templates, rfl, hsame⟩
    exact .inr (hsame.find?_map (fun m m' h => congrArg (fun o => o.2.1.length) h) name)
  expanding := by
    rintro c _ ⟨-, -, templates, rfl, -⟩
    exact .inr rfl
  directive hc _ hm := spacing_readDirective hc hm.content
  addClass := by
    rintro c _ name declarations ⟨hunit, hset, templates, rfl, hsame⟩ -
    refine agree_addClass rfl fun metadata hadd => ?_
    obtain ⟨-, rfl⟩ := Metadata.addClass_ok hadd
    exact ⟨hunit, hset, templates, rfl, hsame⟩
  define := by
    rintro c _ m signature name parameters body body' depth ⟨hunit, hset, templates, rfl, hsame⟩
      - - hwords hbody
    -- the bodies are dedented alike and protected alike, so the templates are stored alike
    have hstored : SpacedLines n (Block.dedent c.indentation depth body)
        (Block.dedent (.spaces n) depth body') :=
      hbody.follows fun l l' m hl hscan hdepth => by
        rw [hl.1]
        rw [hunit] at hscan ⊢
        exact follows_dropBytes hl.2.2 hscan hdepth
    have hprotected := hstored.linewise Template.linewise_protectClosers
      fun l hl => keepsMargin_protectClosers.follows hl n
    have houtline : Template.outline ⟨name, parameters,
          Template.protectClosers (Block.dedent (.spaces n) depth body')⟩
        = Template.spacedOutline n ⟨name, parameters,
          Template.protectClosers (Block.dedent c.indentation depth body)⟩ := by
      simp only [Template.outline, Template.spacedOutline, hprotected.lines]
    have htabbed : Template.Tabbed ⟨name, parameters,
        Template.protectClosers (Block.dedent c.indentation depth body)⟩ :=
      ⟨Template.newline_notMem_of_words hwords, hprotected.holds⟩
    refine (agree_defineBody hsame houtline htabbed).imp (fun _ => trivial) (fun _ _ => id) ?_
    rintro _ _ ⟨templates, templates', rfl, rfl, hsame⟩
    exact ⟨hunit, hset, templates', rfl, hsame⟩
  undefine := by
    rintro c _ m name ⟨hunit, hset, templates, rfl, hsame⟩ - -
    refine (agree_undefine hsame _).imp (fun _ => trivial) (fun _ _ => id) ?_
    rintro _ _ ⟨templates, templates', rfl, rfl, hsame⟩
    exact ⟨hunit, hset, templates', rfl, hsame⟩

instance : (Coupling.spacing n).TopLevel where
  nextId := by
    rintro c _ ⟨-, -, templates, rfl, -⟩
    rfl
  opened k := by
    rintro ⟨hunit, hset, templates, rfl, hsame⟩
    exact ⟨hunit, hset, templates, rfl, hsame⟩
  topDirective hc hm := spacing_readDirective hc hm.content

/-! ### Expansions -/

/-- In a template the lines are those of the two bodies. -/
theorem spacing_expanding (n : Nat) (name : Text) :
    Coupling.Expanding (Coupling.spacing n) (Coupling.spacing n) name where
  enter := by
    rintro c _ k values hallowed ⟨hunit, hset, templates, rfl, hsame⟩
    have hvalues : ∀ v ∈ values, '\t' ∉ v ∧ '\n' ∉ v := fun v hv =>
      ⟨fun hmem => (hallowed v hv _ hmem).1 rfl, fun hmem => (hallowed v hv _ hmem).2 rfl⟩
    have hexpanding : { c with indentation := .spaces n, templates }.expanding = c.expanding := rfl
    have hbodies := agree_bodyOfCall hexpanding hsame name fun m m' hm houtline =>
      agree_substitute_spaced hm houtline hvalues
    refine hbodies.imp (fun _ => trivial) (fun _ _ => id) fun source source' hlines => ?_
    refine ⟨⟨hunit, hset, templates, rfl, hsame⟩, ?_⟩
    -- what is asked of the lines of a body holds when they have been read again
    refine Coupling.lines_of_follows trivial rfl hlines (fun l hl => ?_)
      fun t ht hsolid _ _ => ⟨rfl, hsolid, ht⟩
    exact keepsMargin_filter.spaced hl n
  leave := by
    rintro c _ ⟨hunit, hset, templates, rfl, hsame⟩
    exact ⟨hunit, hset, templates, rfl, hsame⟩
  stop _ _ _ := trivial
  lax := id

/-- Expansions keep in step. -/
theorem spacing_expands (hn : 0 < n) (depth : Nat) :
    (Coupling.spacing n).Expands (expander depth) (expander depth) := by
  have := spacing_lawful hn
  induction depth with
  | zero => exact fun name values k k' hk hcall hvalues c c' hc => .excused trivial
  | succ depth ih =>
      intro name values k k' hk hcall hvalues
      exact Coupling.couples_expandWith rfl (spacing_expanding n name) ih hk hcall hvalues

/-! ### Files -/

/-- The source has tabs only where its lines are indented. -/
def TabIndented (source : Text) : Prop := ∀ t ∈ SourceLine.textsOf source, t.TabsLead

instance (source : Text) : Decidable (TabIndented source) :=
  inferInstanceAs (Decidable (∀ t ∈ SourceLine.textsOf source, t.TabsLead))

/-- The loader of the same files, with `n` spaces for every tab in their sources. -/
def Loader.spaced (n : Nat) (loader : Loader) : Loader where
  locations := loader.locations
  resolve := loader.resolve
  load file := (loader.load file).map (Text.spaced n)
  load_mem {file source} h := by
    cases hload : loader.load file with
    | error err => simp [hload, Except.map] at h
    | ok text => exact loader.load_mem hload

/-- A source goes together with the source that has spaces. -/
theorem spacing_lines {source : Text} (h : TabIndented source) (k k' : Nat) :
    (Coupling.spacing n).Lines (SourceLine.numberFrom k (SourceLine.textsOf source))
      (SourceLine.numberFrom k' (SourceLine.textsOf (source.spaced n))) := by
  rw [SourceLine.textsOf_spaced]
  refine Coupling.lines_of_solid trivial rfl (Text.spaced n) ?_ (fun t ht hsolid _ _ => ?_) k k'
  · have hblank : (fun t => !Text.allBlank t) ∘ Text.spaced n = fun t => !Text.allBlank t :=
      funext fun t => congrArg (!·) (Text.allBlank_spaced t)
    rw [List.filter_map, hblank]
  · exact ⟨rfl, hsolid, (SourceLine.notMem_of_mem_textsOf ht).1, h t ht⟩

section Files

variable {loader : Loader}
  (hfiles : ∀ file source, loader.load file = .ok source → TabIndented source)
include hfiles

/-- An inclusion keeps two runs in step if the sources of the file do. -/
theorem spacing_readInclusion (hn : 0 < n) {x x' : Text → Text → CompileM (List Tab)}
    (hx : ∀ base source, TabIndented source →
      (Coupling.spacing n).Couples Eq (x base source) (x' base (source.spaced n)))
    (base : Text) {m m' : Line} (hm : (Coupling.spacing n).Measured m m') :
    (Coupling.spacing n).Couples Eq (Document.readInclusion loader x base m)
      (Document.readInclusion (loader.spaced n) x' base m') := by
  have := spacing_lawful hn
  have hresolve (path : Text) : (loader.spaced n).resolve path = loader.resolve path := rfl
  refine Coupling.couples_readInclusion_between (J := fun _ => Coupling.spacing n) hresolve hm ?_
    (fun file _ => ?_) ?_
  · rintro c _ _ ⟨-, -, templates, rfl, -⟩ -
    exact .inl rfl
  · refine ⟨?_, ?_, fun _ => trivial, id⟩
    · rintro c _ ⟨hunit, hset, templates, rfl, hsame⟩ -
      exact ⟨hunit, hset, templates, rfl, hsame⟩
    · rintro c _ ⟨hunit, hset, templates, rfl, hsame⟩
      exact ⟨hunit, hset, templates, rfl, hsame⟩
  · intro _ _ file _ _ _
    cases hload : loader.load file with
    | error err => exact .excused trivial
    | ok source =>
        have hload' : (loader.spaced n).load file = .ok (source.spaced n) :=
          congrArg (Except.map (Text.spaced n)) hload
        rw [hload']
        exact .ok (hx _ source (hfiles file source hload))

/-- Sources with inclusions keep in step. -/
theorem spacing_readNested (hn : 0 < n) (depth nesting : Nat) (base : Text) {source : Text}
    (hsource : TabIndented source) :
    (Coupling.spacing n).Couples Eq
      (Document.readNested loader (expander depth) nesting base source)
      (Document.readNested (loader.spaced n) (expander depth) nesting base (source.spaced n)) := by
  have := spacing_lawful hn
  induction nesting generalizing base source with
  | zero => exact fun c c' hc => .excused trivial
  | succ nesting ih =>
      refine Coupling.couples_readSource rfl (spacing_expands hn depth) (fun m m' hm => ?_)
        (spacing_lines hsource 0 0)
      exact spacing_readInclusion hfiles hn (fun base source hsource => ih base hsource) base hm

/-- The lines of a source keep in step with the same lines behind other ones. -/
theorem spacing_readTop (hn : 0 < n) (depth nesting : Nat) (base : Text) {source : Text}
    (hsource : TabIndented source) (k' : Nat) :
    (Coupling.spacing n).Couples Eq
      (Document.readTop (expander depth) (Document.readInclusion loader
        (Document.readNested loader (expander depth) nesting) base) ∅
        (SourceLine.ofSource source))
      (Document.readTop (expander depth) (Document.readInclusion (loader.spaced n)
        (Document.readNested (loader.spaced n) (expander depth) nesting) base) ∅
        (SourceLine.numberFrom k' (SourceLine.textsOf (source.spaced n)))) := by
  have := spacing_lawful hn
  refine Coupling.couples_readTop rfl (spacing_expands hn depth) (fun m m' hm _ => ?_)
    (Nat.le_refl _) (Nat.le_refl _) ∅ (spacing_lines hsource 0 k')
  exact spacing_readInclusion hfiles hn
    (fun base source hsource => spacing_readNested hfiles hn depth nesting base hsource) base hm

end Files

end Coupling

/-! ### The line in front -/

/-- The line that sets the number of spaces. -/
def spacesLine (n : Nat) : Text := ":spaces ".toList ++ Text.ofNat n

theorem isBlank_ofNat {n : Nat} {c : Char} (h : c ∈ Text.ofNat n) : Text.isBlank c = false :=
  Text.isBlank_of_isDigit (Text.isDigit_of_mem_ofNat h)

theorem trimEnd_spacesLine (n : Nat) : Text.trimEnd (spacesLine n) = spacesLine n := by
  have hdigits : Text.trimEnd (Text.ofNat n) = Text.ofNat n :=
    Text.trimEnd_of_no_blank fun _ => isBlank_ofNat
  have hsolid : Text.allBlank (Text.ofNat n) = false := by
    rw [← Bool.not_eq_true, ← Text.trimEnd_eq_nil_iff, hdigits]
    exact Nat.toDigits_ne_nil
  have htrim := Text.trimEnd_append_of_not_allBlank ":spaces ".toList hsolid
  rw [hdigits] at htrim
  exact htrim

/-- The directive sets the number of spaces and the unit. -/
theorem readDirective_spacesLine {n : Nat} (hn : 0 < n) (hmost : n ≤ Metadata.mostSpaces)
    {c : Context} (hearly : c.hasStructure = false) (hunset : c.metadata.spaces = none)
    {l : Line} (hl : l.content = spacesLine n) :
    c.readDirective l = .ok { c.withSpaces n with indentation := .spaces n } := by
  have hparts : Context.directiveParts l = ("spaces".toList, Text.ofNat n) := by
    have hvalue : Text.trim (' ' :: Text.ofNat n) = Text.ofNat n := by
      change Text.trim (Text.ofNat n) = Text.ofNat n
      exact Text.trim_of_no_blank fun _ => isBlank_ofNat
    rw [Context.directiveParts, hl]
    exact Prod.ext rfl hvalue
  have hset : c.metadata.set .spaces (Text.ofNat n)
      = .ok { c.metadata with spaces := some n } := by
    simp only [Metadata.set, Text.toNat?_ofNat hmost, hunset]
    rfl
  refine Context.readDirective_eq_ok.2 ⟨hearly, .spaces,
    { c.metadata with spaces := some n }, ?_, ?_, ?_⟩
  · rw [hparts]
    rfl
  · rw [hparts]
    exact hset
  · have hunit : Indentation.ofWidth n = .spaces n := if_neg (Nat.ne_of_gt hn)
    rw [if_pos rfl]
    simp only [Option.getD_some, hunit]
    rfl

/-- What a source with the line in front does: it sets the number of spaces and the unit. -/
theorem readSource_spacesLine {n : Nat} (hn : 0 < n) (hmost : n ≤ Metadata.mostSpaces)
    (e : Expander) (x : Line → CompileM (List Tab)) (source : Text) {c : Context}
    (hearly : c.hasStructure = false) (hunset : c.metadata.spaces = none) :
    Document.readSource e x (spacesLine n ++ '\n' :: source) c
      = (Outline.finish <$> Document.readTop e x ∅
          (SourceLine.numberFrom 1 (SourceLine.textsOf source)))
        { c.withSpaces n with indentation := .spaces n } := by
  -- the line in front has no line end in it, so it is the first line of the source
  have hplain : ∀ c ∈ spacesLine n, c ≠ '\n' ∧ c ≠ '\r' := by
    have hname : ∀ c ∈ ":spaces ".toList, c ≠ '\n' ∧ c ≠ '\r' := by simp
    intro c hc
    rcases List.mem_append.1 hc with hc | hc
    · exact hname c hc
    · have hblank := isBlank_ofNat hc
      constructor
      · rintro rfl
        exact absurd hblank (by decide)
      · rintro rfl
        exact absurd hblank (by decide)
  have hline : SourceLine.ofSource (spacesLine n ++ '\n' :: source)
      = ⟨0, spacesLine n⟩ :: SourceLine.numberFrom 1 (SourceLine.textsOf source) := by
    rw [SourceLine.ofSource, SourceLine.textsOf_eq, Text.splitLines_append,
      Text.splitLines_of_notMem fun h => (hplain _ h).1 rfl, List.map_append, List.append_assoc,
      ← SourceLine.textsOf_eq, List.map_singleton,
      SourceLine.filter_carriage_of_notMem fun h => (hplain _ h).2 rfl]
    rfl
  have hfirst (ls : List SourceLine) : Document.readTop e x ∅ (⟨0, spacesLine n⟩ :: ls)
      = Document.readLine e x ∅ ⟨0, 0, 0, spacesLine n⟩ ls >>=
          fun r => Document.readTop e x r.1 r.2 := by
    have hhead := Document.readTop_of_head (e := e) (x := x) (by decide : Text.isBlank ':' = false)
      (by decide) 0 ("spaces ".toList ++ Text.ofNat n) ∅ ls
    change Document.readTop e x ∅ (⟨0, spacesLine n⟩ :: ls) = Document.readLine e x ∅
      ⟨0, 0, 0, Text.trimEnd (spacesLine n)⟩ ls >>= _ at hhead
    rwa [trimEnd_spacesLine] at hhead
  have hread (rest : List SourceLine) :
      Document.readLine e x ∅ ⟨0, 0, 0, spacesLine n⟩ rest c
        = .ok (∅, rest) { c.withSpaces n with indentation := .spaces n } := by
    have hdirective := readDirective_spacesLine hn hmost hearly hunset
      (l := ⟨0, 0, 0, spacesLine n⟩) rfl
    have hchange : CompileM.change 0 (·.readDirective ⟨0, 0, 0, spacesLine n⟩) c
        = .ok () { c.withSpaces n with indentation := .spaces n } := by
      rw [CompileM.change, hdirective]
    exact CompileM.bind_run_ok hchange _
  -- the first line sets the unit, and the lines behind it are numbered from one on
  rw [Document.readSource_eq, hline, hfirst, map_eq_pure_bind, map_eq_pure_bind, bind_assoc,
    CompileM.bind_run_ok (hread _)]

/-! ### Two compiles -/

/-- A source that is indented by tabs, and leaves the number of spaces unset, gives the same
tabs and the same metadata but for that number when it is indented by spaces. -/
theorem compileText_spaced {loader : Loader} {depth n : Nat} (hn : 1 ≤ n)
    (hmost : n ≤ Metadata.mostSpaces) {source : Text} (hsource : TabIndented source)
    (hfiles : ∀ file text, loader.load file = .ok text → TabIndented text) {d : Document}
    (h : Document.compileText loader depth source = .ok d) (hunset : d.metadata.spaces = none) :
    ∃ d', Document.compileText (loader.spaced n) depth
        (spacesLine n ++ '\n' :: source.spaced n) = .ok d' ∧
      d'.tabs = d.tabs ∧ d'.metadata = { d.metadata with spaces := some n } := by
  unfold Document.compileText Document.compileTextWith Document.ofRun at h ⊢
  cases hrun : Document.readAll loader (expander depth) ['.'] source .start with
  | error s after =>
      rw [hrun] at h
      cases h
  | ok tabs after =>
      rw [hrun] at h
      cases h
      -- The first run goes as if the number of spaces had been set from the start.
      have hreaders := congruence_leavesUnset loader n
      have hset := (hreaders.readAll (f := expander depth) (hreaders.expander depth) ['.'] source
        _ _ _ hrun hunset).2
      have hread := (spacing_readTop hfiles hn depth loader.locations.length ['.'] hsource 1).map
        (S := Eq) (f := Outline.finish) (fun _ _ h => congrArg Outline.finish h)
        (Context.start.withSpaces n) { Context.start.withSpaces n with indentation := .spaces n }
        ⟨rfl, rfl, ∅, rfl, .empty⟩
      rw [← Document.readSource_eq, ← readSource_spacesLine hn hmost _ _ _ rfl rfl] at hread
      change (Coupling.spacing n).Outcome Eq
        (Document.readAll loader (expander depth) ['.'] source (Context.start.withSpaces n))
        (Document.readAll (loader.spaced n) (expander depth) ['.']
          (spacesLine n ++ '\n' :: source.spaced n) .start) at hread
      rw [hset] at hread
      generalize Document.readAll (loader.spaced n) _ _ _ _ = r at hread ⊢
      cases hread with
      | ok htabs hcontext =>
          obtain ⟨-, -, templates, rfl, -⟩ := hcontext
          exact ⟨_, rfl, htabs.symm, rfl⟩

/-- A file with a template that has two levels of indentation. -/
def twoLevels : Text := "~+u p\n\t.a >p\n\t\t.b\n\t\t\tx".toList

/-- A library with the file. -/
def twoLevelsLibrary : Library := Library.ofList [("u.smsh".toList, twoLevels)]

/-- A root that includes the file and calls the template below an element. -/
def callingSource : Text := "! u\n# a\n.c\n\t~u v\n\t\n\tw".toList

theorem compileText_spaced_calling :
    ∃ d d', Document.compileText twoLevelsLibrary.loader 1 callingSource = .ok d ∧
      d.metadata.spaces = none ∧
      Document.compileText (twoLevelsLibrary.loader.spaced 2) 1
        (spacesLine 2 ++ '\n' :: callingSource.spaced 2) = .ok d' ∧
      d'.tabs = d.tabs ∧ d'.metadata = { d.metadata with spaces := some 2 } := by
  obtain ⟨d, hd, hunset⟩ : ∃ d,
      Document.compileText twoLevelsLibrary.loader 1 callingSource = .ok d ∧
      d.metadata.spaces = none := by
    decide +kernel
  have hfiles : ∀ file text, twoLevelsLibrary.loader.load file = .ok text → TabIndented text := by
    intro file text hload
    have hall : ∀ f ∈ twoLevelsLibrary.sources, TabIndented f.2 := by decide
    exact hall _ (Library.mem_sources_of_read hload)
  obtain ⟨d', hd', hsame⟩ :=
    compileText_spaced (n := 2) (by decide) (by decide) (by decide) hfiles hd hunset
  exact ⟨d, d', hd, hunset, hd', hsame⟩

/-- There is a greatest number of spaces, and no more can be asked for. -/
theorem compileText_spaced_tooMany :
    1 ≤ Metadata.mostSpaces + 1 ∧ TabIndented "# a".toList ∧
      (∃ d, Document.compileText (∅ : Library).loader 1 "# a".toList = .ok d ∧
        d.metadata.spaces = none) ∧
      ¬ ∃ d', Document.compileText ((∅ : Library).loader.spaced (Metadata.mostSpaces + 1)) 1
          (spacesLine (Metadata.mostSpaces + 1)
            ++ '\n' :: Text.spaced (Metadata.mostSpaces + 1) "# a".toList) = .ok d' := by
  refine ⟨by decide, by decide, by decide +kernel, ?_⟩
  rintro ⟨d', hd'⟩
  obtain ⟨s, hs, -⟩ : ∃ s, Document.compileText
      ((∅ : Library).loader.spaced (Metadata.mostSpaces + 1)) 1
      (spacesLine (Metadata.mostSpaces + 1)
        ++ '\n' :: Text.spaced (Metadata.mostSpaces + 1) "# a".toList) = .error s ∧
      s ≠ .exhausted := by
    decide +kernel
  rw [hs] at hd'
  cases hd'

end IndentMarkup
