import IndentMarkup.Proofs.Bodies
import IndentMarkup.Proofs.Coupling.Documents

/-!
Blank lines do not matter.

A source and the source with one more blank line are read in step. Blank lines are passed
over between elements and left out of custom classes, and those in the bodies of templates
are passed over when the bodies are read. The errors say the same; only their lines are
moved where the line lies behind the new one.

* `SameTemplates` — templates that differ only in the blank lines of their bodies.
* `blankLines` — what two such runs have in common; it is lawful.
* `blankLines_expands`, `blankLines_readNested` — expansions and files keep in step.
* `compileText_insertLine` — the results of the two compiles.
-/

namespace IndentMarkup

/-! ### Templates but for blank lines -/

/-- The templates of two contexts differ only in blank lines, and their references do not
reach over the end of a line. -/
abbrev SameTemplates (templates templates' : Table Template) : Prop :=
  Table.Alike (fun m => ∀ p ∈ m.parameters, '\n' ∉ p) Template.outline Template.outline templates
    templates'

/-- What is compared of the templates of two runs is the same. -/
theorem SameTemplates.outline {templates templates' : Table Template}
    (h : SameTemplates templates templates') :
    templates'.map Template.outline = templates.map Template.outline :=
  h.same

/-- Two texts have the same lines but for blank ones. -/
abbrev SameSolid (t t' : Text) : Prop := Text.Follows (fun _ => True) id t t'

/-- Two texts have the same lines but for blank ones exactly when the lines left are equal. -/
theorem sameSolid_iff {t t' : Text} : SameSolid t t' ↔ Text.solidLines t' = Text.solidLines t := by
  constructor
  · intro h
    rw [h.lines, List.map_id]
  · intro h
    exact ⟨by rw [h, List.map_id], fun _ _ => trivial⟩

theorem sameSolid_refl (t : Text) : SameSolid t t := sameSolid_iff.2 rfl

/-! ### Two runs -/

/-- Where the errors of two runs are: `place opened n n'` says that the second run may
report the line `n'` where the first one, with the files `opened`, reports `n`. -/
abbrev Place : Type := List Location → Nat → Nat → Prop

/-- Both runs end in the same way, but for the line. -/
inductive StopsAlike (place : Place) : Stop → Stop → Prop where
  | exhausted : StopsAlike place .exhausted .exhausted
  | error {e : CompileError} {n : Nat} : place e.opened e.line n →
      StopsAlike place (.error e) (.error { e with line := n })

/-- Two runs on the same lines but for blank ones, with the same files open. -/
def blankLines (place : Place) (files : List Location) : Coupling where
  context c c' := c.openFiles = files ∧
    ∃ templates, c' = { c with templates } ∧ SameTemplates c.templates templates
  number := place files.reverse
  column n n' := n' = n
  line l l' := l'.text = l.text ∧ l.isBlank = false ∧ place files.reverse l.number l'.number
  measured _ := True
  stop s _ s' _ := StopsAlike place s s'
  lax := False
  loose := True
  tail := []

section Coupling

variable {place : Place} {files : List Location}

/-- A directive does not look at templates, so it does the same in both runs. -/
theorem blankLines_readDirective {c c' : Context} (hc : (blankLines place files).context c c')
    {m m' : Line} (hcontent : m'.content = m.content) :
    Agree False Eq (blankLines place files).context (c.readDirective m) (c'.readDirective m') := by
  obtain ⟨hfiles, templates, rfl, hsame⟩ := hc
  exact agree_readDirective rfl rfl rfl hcontent fun _ _ => ⟨hfiles, templates, rfl, hsame⟩

instance : (blankLines place files).Lawful where
  column_map f := by
    rintro _ n rfl
    rfl
  trim_line hl := by rw [hl.1]
  isBlank_line hl := hl.2.1
  closes_tail := .inl rfl
  -- the two lines have one text, so they scan alike, each under its own number
  scan := by
    rintro c _ l l' ⟨-, templates, rfl, -⟩ ⟨htext, -, hn⟩
    simp only [SourceLine.scan, htext]
    cases hscan : c.indentation.scan l.number l.text with
    | error e =>
        have hline := Indentation.line_of_scan hscan
        rw [Indentation.scan_error_renumber hscan l'.number]
        exact .error ⟨rfl, hline ▸ hn, rfl⟩
    | ok m =>
        have hnumber := Indentation.number_of_scan hscan
        rw [Indentation.scan_renumber hscan l'.number]
        exact .ok ⟨rfl, rfl, hnumber ▸ hn, rfl, trivial⟩
  fail := by
    rintro c _ n n' col col' cause - ⟨hfiles, templates, rfl, -⟩ hn hcol
    have hsame : col' = col := by
      cases hcol with
      | none => rfl
      | some h => rw [h]
    subst hsame
    have hplace : place c.openFiles.reverse n n' := by rwa [hfiles]
    exact .inr (.error (e := c.errorAt cause n col') hplace)
  template := by
    rintro c _ name ⟨-, templates, rfl, hsame⟩
    exact .inr (hsame.find?_map (fun m m' h => congrArg (fun o => o.2.1.length) h) name)
  expanding := by
    rintro c _ ⟨-, templates, rfl, -⟩
    exact .inr rfl
  directive hc _ hm := blankLines_readDirective hc hm.content
  addClass := by
    rintro c _ name declarations ⟨hfiles, templates, rfl, hsame⟩ -
    exact agree_addClass rfl fun _ _ => ⟨hfiles, templates, rfl, hsame⟩
  define := by
    rintro c _ m signature name parameters body body' depth ⟨hfiles, templates, rfl, hsame⟩ - -
      hwords hbody
    -- the bodies have the same lines but for blank ones, and so have the bodies as they are stored
    have hstored : SameSolid (Block.dedent c.indentation depth body)
        (Block.dedent c.indentation depth body') :=
      hbody.follows fun l l' m hl _ _ => by
        rw [hl.1]
        exact sameSolid_refl _
    have hprotected := sameSolid_iff.1
      (hstored.linewise Template.linewise_protectClosers fun l _ => sameSolid_refl _)
    have houtline : Template.outline ⟨name, parameters,
          Template.protectClosers (Block.dedent c.indentation depth body')⟩
        = Template.outline ⟨name, parameters,
          Template.protectClosers (Block.dedent c.indentation depth body)⟩ := by
      simp only [Template.outline, hprotected]
    refine (agree_defineBody hsame houtline (Template.newline_notMem_of_words hwords)).imp id
      (fun _ _ => id) ?_
    rintro _ _ ⟨templates, templates', rfl, rfl, hsame⟩
    exact ⟨hfiles, templates', rfl, hsame⟩
  undefine := by
    rintro c _ m name ⟨hfiles, templates, rfl, hsame⟩ - -
    refine (agree_undefine hsame _).imp id (fun _ _ => id) ?_
    rintro _ _ ⟨templates, templates', rfl, rfl, hsame⟩
    exact ⟨hfiles, templates', rfl, hsame⟩

instance : (blankLines place files).TopLevel where
  nextId := by
    rintro c _ ⟨-, templates, rfl, -⟩
    rfl
  opened n := by
    rintro ⟨hfiles, templates, rfl, hsame⟩
    exact ⟨hfiles, templates, rfl, hsame⟩
  topDirective hc hm := blankLines_readDirective hc hm.content

/-! ### Expansions -/

/-- In a template's body all lines may differ: its errors are reported on the call's. -/
def anyLine (files : List Location) : Place := fun opened _ _ => opened = files.reverse

/-- The bodies of a call differ in blank lines only, whatever the values for the references are. -/
theorem blankLines_expanding (place : Place) (files : List Location) (name : Text) :
    Coupling.Expanding (blankLines place files) (blankLines (anyLine files) files) name where
  enter := by
    rintro c _ n values - ⟨hfiles, templates, rfl, hsame⟩
    -- a value may hold blank lines, but it is the same value in both bodies
    have hbody (m m' : Template) (hline : ∀ p ∈ m.parameters, '\n' ∉ p)
        (hm : m'.outline = m.outline) :
        Agree False Eq SameSolid (m.substitute values) (m'.substitute values) := by
      obtain ⟨hname, hrest⟩ := Prod.mk.inj hm
      obtain ⟨hparameters, hcontent⟩ := Prod.mk.inj hrest
      exact Template.agree_substitute hname hparameters (sameSolid_iff.2 hcontent) hline
        fun _ _ _ _ l _ => sameSolid_refl _
    have hexpanding : { c with templates }.expanding = c.expanding := rfl
    have hbodies := agree_bodyOfCall hexpanding hsame name hbody
    refine hbodies.imp id (fun _ _ => id) fun source source' hsolid => ?_
    refine ⟨⟨hfiles, templates, rfl, hsame⟩, ?_⟩
    exact Coupling.lines_of_follows trivial rfl hsolid (fun _ _ => ⟨trivial, rfl⟩)
      fun t _ ht n n' => ⟨rfl, ht, rfl⟩
  leave := by
    rintro c _ ⟨hfiles, templates, rfl, hsame⟩
    exact ⟨hfiles, templates, rfl, hsame⟩
  stop := by
    rintro s s' c c' n n' hs hn -
    cases hs with
    | exhausted => exact .exhausted
    -- an error within the expansion is reported on the line of the call in both runs
    | @error e line hplace =>
        have hplace' : place (e.inTemplate name n).opened (e.inTemplate name n).line n' := by
          change place e.opened n n'
          rwa [hplace]
        exact .error hplace'
  lax := id

/-- Expansions keep in step, wherever the lines of the calls lie. -/
theorem blankLines_expands (depth : Nat) (place : Place) (files : List Location) :
    (blankLines place files).Expands (expander depth) (expander depth) := by
  -- the bodies are read with one level less, and there the place of a line says nothing
  induction depth generalizing place with
  | zero =>
      rintro name values n n' hn - - c c' hc
      exact .error .exhausted
  | succ depth ih =>
      intro name values n n' hn hcall hvalues
      exact Coupling.couples_expandWith rfl (blankLines_expanding place files name)
        (ih (anyLine files)) hn hcall hvalues

/-! ### Files -/

/-- A file that is opened in both runs is read with the same lines below it. -/
theorem blankLines_opens (place : Place) (files : List Location) (file : Location) :
    Coupling.Opens (blankLines place files) (blankLines place (file :: files)) file where
  enter := by
    rintro c _ ⟨hfiles, templates, rfl, hsame⟩ -
    exact ⟨congrArg (file :: ·) hfiles, templates, rfl, hsame⟩
  leave := by
    rintro c _ ⟨hfiles, templates, rfl, hsame⟩
    exact ⟨congrArg (List.drop 1) hfiles, templates, rfl, hsame⟩
  stop h := h
  lax := id

/-- The lines of two runs whose numbers go together. -/
theorem lines_numberFrom (ts : List Text) (n n' : Nat)
    (h : ∀ i, i < ts.length → place files.reverse (n + i) (n' + i)) {rest rest' : List SourceLine}
    (hrest : (blankLines place files).Lines rest rest') :
    (blankLines place files).Lines (SourceLine.numberFrom n ts ++ rest)
      (SourceLine.numberFrom n' ts ++ rest') := by
  induction ts generalizing n n' with
  | nil => exact hrest
  | cons t ts ih =>
      have hmore := ih (n + 1) (n' + 1) fun i hi => by
        have hplace := h (i + 1) (Nat.succ_lt_succ hi)
        rwa [Nat.add_right_comm, Nat.add_right_comm n']
      -- blank lines of the two runs need not match each other
      cases ht : Text.allBlank t with
      | true => exact .first trivial ht (.second trivial ht hmore)
      | false => exact .both ⟨rfl, ht, h 0 (Nat.succ_pos _)⟩ hmore

/-- A file that is included is read alike in both runs. -/
theorem blankLines_readNested (loader : Loader) (depth : Nat)
    (hplace : ∀ opened n, opened ≠ [] → place opened n n) (nesting : Nat) {files : List Location}
    (hfiles : files ≠ []) (base source : Text) :
    (blankLines place files).Couples Eq
      (Document.readNested loader (expander depth) nesting base source)
      (Document.readNested loader (expander depth) nesting base source) := by
  -- on the files that may be opened within one another
  induction nesting generalizing files base source with
  | zero => exact fun c c' hc => .error .exhausted
  | succ nesting ih =>
      refine Coupling.couples_readSource rfl (blankLines_expands depth place files)
        (fun m m' hm => ?_) ?_
      · refine Coupling.couples_readInclusion (J := fun file => blankLines place (file :: files))
          ?_ (blankLines_opens place files) loader (fun file text _ => ?_) base hm
        · rintro c _ ⟨-, templates, rfl, -⟩
          rfl
        · exact ih (List.cons_ne_nil file files) _ text
      · have hend : (blankLines place files).Lines [] [] := .tail
        have hself := lines_numberFrom (SourceLine.textsOf source) 0 0
          (fun i _ => hplace files.reverse (0 + i) (by simpa using hfiles)) hend
        simpa [SourceLine.ofSource] using hself

end Coupling

/-! ### One more line -/

/-- The source with a line in front of its `k`-th one, or behind its last one. -/
def insertLine (k : Nat) (line source : Text) : Text :=
  Text.join ['\n'] ((Text.splitLines source).take k ++ line :: (Text.splitLines source).drop k)

/-- The error in the source with a line in front of the `k`-th one: errors of the source
itself from that line on are one line further down, those of included files are not. -/
def CompileError.pushed (k : Nat) (e : CompileError) : CompileError :=
  { e with line := if e.opened = [] ∧ k ≤ e.line then e.line + 1 else e.line }

/-- The stop in the source with one more line. -/
def Stop.pushed (k : Nat) : Stop → Stop
  | error e => error (e.pushed k)
  | exhausted => exhausted

/-- The lines of the source itself are moved from the `k`-th one on. -/
def pushedPlace (k : Nat) : Place := fun opened n n' =>
  n' = if opened = [] ∧ k ≤ n then n + 1 else n

/-- The second stop is the first one, pushed. -/
theorem pushed_of_stopsAlike {k : Nat} {s s' : Stop} (h : StopsAlike (pushedPlace k) s s') :
    s' = s.pushed k := by
  cases h with
  | exhausted => rfl
  | error hplace => rw [hplace]; rfl

/-- A line that is inserted stands behind the first `k` lines and is not cut into more. -/
theorem textsOf_insertLine {k : Nat} {source : Text} (hk : k ≤ (Text.splitLines source).length)
    {line : Text} (hline : '\n' ∉ line) :
    ∃ before after, before.length = k ∧ SourceLine.textsOf source = before ++ after ∧
      SourceLine.textsOf (insertLine k line source)
        = before ++ line.filter (· ≠ '\r') :: after := by
  refine ⟨((Text.splitLines source).take k).map (List.filter (· ≠ '\r')),
    ((Text.splitLines source).drop k).map (List.filter (· ≠ '\r')) ++ [[]], ?_, ?_, ?_⟩
  · rw [List.length_map, List.length_take, Nat.min_eq_left hk]
  · rw [SourceLine.textsOf_eq, ← List.append_assoc, ← List.map_append, List.take_append_drop]
  · have hlines : ∀ l ∈ (Text.splitLines source).take k ++ line :: (Text.splitLines source).drop k,
        '\n' ∉ l := by
      intro l hl
      rcases List.mem_append.1 hl with hl | hl
      · exact Text.notMem_of_mem_splitLines (List.mem_of_mem_take hl)
      · rcases List.mem_cons.1 hl with rfl | hl
        · exact hline
        · exact Text.notMem_of_mem_splitLines (List.mem_of_mem_drop hl)
    rw [SourceLine.textsOf_eq, insertLine, Text.splitLines_join (by simp),
      Text.flatMap_splitLines hlines]
    simp

/-- The lines of a source beside those of the source with one more blank line. -/
theorem lines_insertLine {k : Nat} {source : Text} (hk : k ≤ (Text.splitLines source).length)
    {line : Text} (hblank : Text.allBlank line = true) (hline : '\n' ∉ line) :
    (blankLines (pushedPlace k) []).Lines (SourceLine.ofSource source)
      (SourceLine.ofSource (insertLine k line source)) := by
  obtain ⟨before, after, hlength, hsource, hinserted⟩ := textsOf_insertLine hk hline
  have hend : (blankLines (pushedPlace k) []).Lines [] [] := .tail
  -- from the new line on, the second run is one line ahead
  have hmoved : ∀ i, i < after.length →
      pushedPlace k (List.reverse []) (k + i) (k + 1 + i) := by
    intro i _
    rw [pushedPlace, if_pos ⟨rfl, Nat.le_add_right k i⟩, Nat.add_right_comm]
  have hafter := lines_numberFrom after k (k + 1) hmoved hend
  simp only [List.append_nil] at hafter
  have hfiltered : Text.allBlank (line.filter (· ≠ '\r')) = true := by
    rw [SourceLine.allBlank_filter_carriage, hblank]
  rw [SourceLine.ofSource, SourceLine.ofSource, hsource, hinserted, SourceLine.numberFrom_append,
    SourceLine.numberFrom_append, hlength, Nat.zero_add]
  refine lines_numberFrom before 0 0 ?_ (.second trivial hfiltered hafter)
  intro i hi
  have hlt : ¬ k ≤ 0 + i := by omega
  exact (if_neg fun h => hlt h.2).symm

/-- A source and the source with one more blank line give the same tabs and metadata and
the same templates but for blank lines, or the same error, pushed as the lines are. -/
theorem compileText_insertLine (loader : Loader) (depth : Nat) (source : Text) {k : Nat}
    (hk : k ≤ (Text.splitLines source).length) {line : Text} (hblank : Text.allBlank line = true)
    (hline : '\n' ∉ line) :
    Agree False (fun s s' => s' = s.pushed k)
      (fun d d' => d'.tabs = d.tabs ∧ d'.metadata = d.metadata ∧
        d'.templates.map Template.outline = d.templates.map Template.outline)
      (Document.compileText loader depth source)
      (Document.compileText loader depth (insertLine k line source)) := by
  have hplace : ∀ opened n, opened ≠ [] → pushedPlace k opened n n := by
    intro opened n hopened
    simp [pushedPlace, hopened]
  have hread : (blankLines (pushedPlace k) []).Couples Eq
      (Document.readAll loader (expander depth) ['.'] source)
      (Document.readAll loader (expander depth) ['.'] (insertLine k line source)) := by
    apply Coupling.couples_readSource rfl (blankLines_expands depth _ []) _
      (lines_insertLine hk hblank hline)
    intro m m' hm
    refine Coupling.couples_readInclusion (J := fun file => blankLines (pushedPlace k) [file]) ?_
      (blankLines_opens _ []) loader (fun file text _ => ?_) _ hm
    · rintro c _ ⟨-, templates, rfl, -⟩
      rfl
    · exact blankLines_readNested loader depth hplace _ (List.cons_ne_nil file []) _ text
  -- both runs start alike, and end at the same place or with stops that are alike
  have hrun := hread .start .start ⟨rfl, ∅, rfl, .empty⟩
  unfold Document.compileText Document.compileTextWith Document.ofRun
  generalize Document.readAll loader _ _ source _ = r at hrun
  generalize Document.readAll loader _ _ (insertLine k line source) _ = r' at hrun
  cases hrun with
  | ok htabs hcontext =>
      obtain ⟨-, templates, rfl, hsame⟩ := hcontext
      exact .ok ⟨htabs.symm, rfl, hsame.outline⟩
  | error hstop => exact .error (pushed_of_stopsAlike hstop)
  | excused hlax => exact hlax.elim

/-- A template, a call and an error behind them; the new line stands in the template's body. -/
def spacedSource : Text := "# a\n~+t p\n\t.b >p\n\t.i >p\n~t x\n.img".toList

theorem compileText_insertLine_body :
    3 ≤ (Text.splitLines spacedSource).length ∧ Text.allBlank " \t".toList = true ∧
      Agree False (fun s s' => s' = s.pushed 3)
        (fun d d' => d'.tabs = d.tabs ∧ d'.metadata = d.metadata ∧
          d'.templates.map Template.outline = d.templates.map Template.outline)
        (Document.compileText (∅ : Library).loader 1 spacedSource)
        (Document.compileText (∅ : Library).loader 1
          (insertLine 3 " \t".toList spacedSource)) :=
  ⟨by decide, by decide,
    compileText_insertLine (∅ : Library).loader 1 spacedSource (by decide) (by decide) (by decide)⟩

end IndentMarkup
