import IndentMarkup.Proofs.Boundary
import IndentMarkup.Proofs.Linewise

/-!
An inclusion between tabs stands for the lines of the file.

A file whose first line opens a tab can be included, or its lines can be written in the place
of the inclusion. The two runs have different files open and different lines, so they need
not fail alike; but what the one with the inclusion gives the other one gives too, as long as
a tab opens behind the file's lines again.

* `Coupling.inlined` — a run beside one that has fewer files open, the first of them excused
  when it fails.
* `inlined_readNested` — included files give it the same tabs.
* `Document.readTop_tab`, `Document.readTop_prepend` — tabs that are closed before a source
  stay in front of its own.
* `compileFile_inline` — the two compiles.
-/

namespace IndentMarkup

/-! ### Fewer open files -/

namespace Coupling

/-- Two runs on the same lines with different files open, the lines being those of an origin;
nothing is claimed when the first run fails. -/
def inlined (files files' : List Location) (origin : Text → Prop := fun _ => True) :
    Coupling where
  context c c' := c.openFiles = files ∧ c' = { c with openFiles := files' }
  number _ _ := True
  column _ _ := True
  line l l' := l'.text = l.text ∧ l.isBlank = false ∧ origin l.text
  measured m := ∃ (unit : Indentation) (t : Text), origin t ∧ unit.scan m.number t = .ok m
  stop _ _ _ _ := False
  lax := True
  loose := False
  tail := []

section Inlined

variable {files files' : List Location} {origin : Text → Prop}

/-- When the first computation succeeds the second one has to, and a failure is excused. -/
theorem inlined_agree {ε α : Type} {errors : ε → ε → Prop} {values : α → α → Prop}
    {x x' : Except ε α} (h : ∀ a, x = .ok a → ∃ a', x' = .ok a' ∧ values a a') :
    Agree (inlined files files' origin).lax errors values x x' := by
  cases x with
  | error e => exact .excused trivial
  | ok a =>
      obtain ⟨a', rfl, hv⟩ := h a rfl
      exact .ok hv

/-- Directives do not look at the files that are open. -/
theorem inlined_readDirective {c c' : Context} (hc : (inlined files files' origin).context c c')
    {m m' : Line} (hm : (inlined files files' origin).Measured m m') :
    Agree (inlined files files' origin).lax Eq (inlined files files' origin).context
      (c.readDirective m) (c'.readDirective m') := by
  obtain ⟨hfiles, rfl⟩ := hc
  exact agree_readDirective rfl rfl rfl hm.content fun _ _ => ⟨hfiles, rfl⟩

instance : (inlined files files' origin).Lawful where
  column_map f := fun _ => trivial
  trim_line hl := by rw [hl.1]
  isBlank_line hl := hl.2.1
  closes_tail := .inl rfl
  scan := by
    rintro c _ l l' ⟨-, rfl⟩ ⟨htext, -, horigin⟩
    apply inlined_agree
    intro m hm
    have hmeasured : c.indentation.scan m.number l.text = .ok m := by
      rwa [Indentation.number_of_scan hm]
    refine ⟨{ m with number := l'.number }, ?_, rfl, rfl, trivial, trivial, _, _, horigin,
      hmeasured⟩
    rw [SourceLine.scan, htext]
    exact Indentation.scan_renumber hm l'.number
  fail _ _ _ _ := .inl trivial
  template := by
    rintro c _ name ⟨-, rfl⟩
    exact .inr rfl
  expanding := by
    rintro c _ ⟨-, rfl⟩
    exact .inr rfl
  directive hc _ hm := inlined_readDirective hc hm
  addClass := by
    rintro c _ name declarations ⟨hfiles, rfl⟩ -
    exact agree_addClass rfl fun _ _ => ⟨hfiles, rfl⟩
  define := by
    rintro c _ m signature name parameters body body' depth ⟨hfiles, rfl⟩ - - - hbody
    rw [hbody.eq id fun _ _ hl => hl.1]
    apply inlined_agree
    intro after h
    obtain ⟨m, hm, hfree, rfl⟩ := Context.defineBody_ok h
    exact ⟨_, by simp [Context.defineBody, Context.define, hm, hfree], hfiles, rfl⟩
  undefine := by
    rintro c _ m name ⟨hfiles, rfl⟩ - -
    apply inlined_agree
    intro after h
    obtain ⟨htaken, rfl⟩ := Context.undefine_ok h
    exact ⟨_, by simp [Context.undefine, htaken], hfiles, rfl⟩

instance : (inlined files files' origin).TopLevel where
  nextId := by
    rintro c _ ⟨-, rfl⟩
    rfl
  opened n := by
    rintro ⟨hfiles, rfl⟩
    exact ⟨hfiles, rfl⟩
  topDirective hc hm := inlined_readDirective hc hm

/-- A source goes together with itself, whatever its lines are numbered. -/
theorem inlined_lines {ts : List Text} (hts : ∀ t ∈ ts, origin t) (n n' : Nat) :
    (inlined files files' origin).Lines (SourceLine.numberFrom n ts)
      (SourceLine.numberFrom n' ts) := by
  induction ts generalizing n n' with
  | nil => exact .tail
  | cons t ts ih =>
      have hbelow := ih (fun u hu => hts u (List.mem_cons_of_mem t hu)) (n + 1) (n' + 1)
      cases hblank : Text.allBlank t with
      | true => exact .blank hblank rfl trivial hbelow
      | false => exact .both ⟨rfl, hblank, hts t List.mem_cons_self⟩ hbelow

/-- In a template the lines are those of its body, whatever lines the call stands on. -/
theorem inlined_expanding (name : Text) :
    Expanding (inlined files files' origin) (inlined files files') name where
  enter := by
    rintro c _ n values - ⟨hfiles, rfl⟩
    apply inlined_agree
    intro source h
    exact ⟨source, h, ⟨hfiles, rfl⟩, inlined_lines (fun _ _ => trivial) 0 0⟩
  leave := by
    rintro c _ ⟨hfiles, rfl⟩
    exact ⟨hfiles, rfl⟩
  stop h _ _ := h
  lax := id

/-- Expansions do not look at the files that are open. -/
theorem inlined_expands (depth : Nat) :
    (inlined files files' origin).Expands (expander depth) (expander depth) := by
  -- on the number of expansions, for all origins, since the lines of a body come from anywhere
  induction depth generalizing origin with
  | zero => exact fun name values n n' hn hcall hvalues c c' hc => .excused trivial
  | succ depth ih =>
      intro name values n n' hn hcall hvalues
      exact couples_expandWith rfl (inlined_expanding name) ih hn hcall hvalues

/-- A file that both runs open. -/
theorem inlined_opens (file : Location) :
    Opens (inlined files files' origin) (inlined (file :: files) (file :: files')) file where
  enter := by
    rintro c _ ⟨hfiles, rfl⟩ -
    exact ⟨congrArg (file :: ·) hfiles, rfl⟩
  leave := by
    rintro c _ ⟨hfiles, rfl⟩
    exact ⟨congrArg (List.drop 1) hfiles, rfl⟩
  stop h := h
  lax := id

/-- A file that only the first run opens. -/
theorem inlined_whileOpen (file : Location) {α α' : Type} {values : α → α' → Prop}
    {x : CompileM α} {x' : CompileM α'}
    (h : (inlined (file :: files) files').Couples values x x') :
    (inlined files files' origin).Couples values (Document.whileOpen file x) x' := by
  -- the first run has one file more open inside than outside, the second one the same all the time
  rintro c _ ⟨hfiles, rfl⟩
  have hrun := h (c.openFile file) { c with openFiles := files' }
    ⟨congrArg (file :: ·) hfiles, rfl⟩
  unfold Document.whileOpen
  generalize x (c.openFile file) = r at hrun
  generalize x' { c with openFiles := files' } = r' at hrun
  cases hrun with
  | ok hv hc =>
      obtain ⟨hopen, rfl⟩ := hc
      exact .ok hv ⟨congrArg (List.drop 1) hopen, rfl⟩
  | error hs => exact hs.elim
  | excused hlax => exact .excused hlax

end Inlined

end Coupling

/-! ### Included files -/

/-- Two loaders that differ at most in the sources of some files. -/
structure SameBut (files : List Location) (loader loader' : Loader) : Prop where
  resolve (path : Text) : loader'.resolve path = loader.resolve path
  load (file : Location) : file ∉ files → loader'.load file = loader.load file

/-- Loaders that agree but for some files agree but for more of them. -/
theorem SameBut.mono {files more : List Location} {loader loader' : Loader}
    (h : SameBut files loader loader') (hmore : files ⊆ more) : SameBut more loader loader' where
  resolve := h.resolve
  load file hfile := h.load file fun hmem => hfile (hmore hmem)

section Files

variable {loader loader' : Loader} {files files' : List Location}

/-- A line of an inclusion keeps two runs in step, if the second one has not the file open that
it names, or the first one has it open, too. -/
theorem inlined_readInclusion {origin : Text → Prop} (hloader : SameBut files loader loader')
    {x x' : Text → Text → CompileM (List Tab)} {base : Text} {m m' : Line}
    (hm : (Coupling.inlined files files' origin).Measured m m')
    (hfiles : ∀ file, loader.Names base m file → file ∈ files' → file ∈ files)
    (hx : ∀ file source, loader.Names base m file →
      (Coupling.inlined (file :: files) (file :: files')).Couples Eq
        (x file.parent.text source) (x' file.parent.text source)) :
    (Coupling.inlined files files' origin).Couples Eq (Document.readInclusion loader x base m)
      (Document.readInclusion loader' x' base m') := by
  apply Coupling.couples_readInclusion_between hloader.resolve hm _
    (fun file _ => Coupling.inlined_opens file) _
  · rintro c _ file ⟨rfl, rfl⟩ hnames
    exact .inr ⟨trivial, hfiles file hnames⟩
  · rintro c _ file ⟨rfl, rfl⟩ hnames hfile
    rw [hloader.load file hfile]
    cases loader.load file with
    | error e => exact .error rfl
    | ok source => exact .ok (hx file source hnames)

/-- A run that has fewer files open and may nest them deeper gives the tabs of a file that the
other one gives. -/
theorem inlined_readNested (depth : Nat) (hloader : SameBut files loader loader')
    (hfiles : files' ⊆ files) {nesting nesting' : Nat} (hnesting : nesting ≤ nesting')
    (base source : Text) :
    (Coupling.inlined files files').Couples Eq
      (Document.readNested loader (expander depth) nesting base source)
      (Document.readNested loader' (expander depth) nesting' base source) := by
  -- on the nesting of the first run; each file that it enters stays open in both runs below
  induction nesting generalizing nesting' files files' base source with
  | zero => exact fun c c' hc => .excused trivial
  | succ nesting ih =>
      cases nesting' with
      | zero => exact absurd hnesting (Nat.not_succ_le_zero nesting)
      | succ nesting' =>
          apply Coupling.couples_readSource rfl (Coupling.inlined_expands depth) _
            (Coupling.inlined_lines (fun _ _ => trivial) 0 0)
          intro m m' hm
          apply inlined_readInclusion hloader hm fun file _ hfile => hfiles hfile
          intro file source _
          exact ih (hloader.mono (List.subset_cons_self file files))
            (List.cons_subset_cons file hfiles) (Nat.le_of_succ_le_succ hnesting) _ source

end Files

/-! ### Tabs that are closed before -/

namespace Outline

/-- The outline with closed tabs in front of its own. -/
def prepend (tabs : List Tab) (o : Outline) : Outline := ⟨tabs ++ o.closed, o.current⟩

variable (tabs : List Tab) (o : Outline)

/-- Closing the tab that is open leaves those in front. -/
theorem closeTab_prepend : (o.prepend tabs).closeTab = o.closeTab.prepend tabs := by
  obtain ⟨closed, current⟩ := o
  cases current with
  | none => rfl
  | some t => simp [closeTab, prepend]

/-- So does opening a section. -/
theorem openSection_prepend (id : Nat) (heading : Heading) (hasTitle : Bool) :
    (o.prepend tabs).openSection id heading hasTitle
      = ((o.openSection id heading hasTitle).1.prepend tabs,
        (o.openSection id heading hasTitle).2) := by
  obtain ⟨closed, current⟩ := o
  cases current <;> rfl

/-- So does opening a tab. -/
theorem openTab_prepend (id : Nat) (heading : Heading) :
    (o.prepend tabs).openTab id heading
      = ((o.openTab id heading).1.prepend tabs, (o.openTab id heading).2) := by
  rw [openTab, closeTab_prepend]
  rfl

/-- So does splicing tabs in. -/
theorem splice_prepend (more : List Tab) :
    (o.prepend tabs).splice more = (o.splice more).prepend tabs := by
  rw [splice, closeTab_prepend]
  simp [splice, prepend]

/-- So does adding elements. -/
theorem push?_prepend (elements : List Element) :
    (o.prepend tabs).push? elements = (o.push? elements).map (prepend tabs) := by
  obtain ⟨closed, current⟩ := o
  rcases current with - | ⟨tab, - | s⟩ <;> rfl

/-- They come out in front. -/
theorem finish_prepend : (o.prepend tabs).finish = tabs ++ o.finish := by
  rw [finish, closeTab_prepend]
  rfl

end Outline

namespace Document

variable {e : Expander} {x : Line → CompileM (List Tab)}

/-- A section is numbered without a look at the tabs in front. -/
theorem openSection_prepend (tabs : List Tab) (o : Outline) (heading : Heading)
    (hasTitle : Bool) :
    openSection (o.prepend tabs) heading hasTitle
      = Outline.prepend tabs <$> openSection o heading hasTitle := by
  funext c
  rw [openSection, Outline.openSection_prepend]
  rfl

/-- So is a tab. -/
theorem openTab_prepend (tabs : List Tab) (o : Outline) (heading : Heading) :
    openTab (o.prepend tabs) heading = Outline.prepend tabs <$> openTab o heading := by
  funext c
  rw [openTab, Outline.openTab_prepend]
  rfl

/-- Elements go to the open section, whatever stands in front of its tab. -/
theorem readElements_prepend (tabs : List Tab) (o : Outline) (l : Line) (ls : List SourceLine) :
    readElements e (o.prepend tabs) l ls
      = (fun r => (r.1.prepend tabs, r.2)) <$> readElements e o l ls := by
  unfold readElements
  rw [map_bind]
  congr 1
  funext r
  obtain ⟨elements, rest⟩ := r
  dsimp only
  split
  · rfl
  · rw [Outline.push?_prepend]
    cases o.push? elements <;> rfl

/-- A line leaves the tabs in front alone. -/
theorem readLine_prepend (tabs : List Tab) (o : Outline) (l : Line) (ls : List SourceLine) :
    readLine e x (o.prepend tabs) l ls
      = (fun r => (r.1.prepend tabs, r.2)) <$> readLine e x o l ls := by
  unfold readLine
  split
  · rfl
  · cases l.kind with
    | sectionStart => simp only [openSection_prepend, map_bind, bind_map_left, map_pure]
    | tabStart => simp only [openTab_prepend, map_bind, bind_map_left, map_pure]
    | directive => simp only [map_bind, map_pure]
    | inclusion => simp only [Outline.splice_prepend, map_bind, map_pure]
    | _ => exact readElements_prepend tabs o l ls

/-- All lines leave the tabs in front alone. -/
theorem readTop_prepend (tabs : List Tab) (o : Outline) (ls : List SourceLine) :
    readTop e x (o.prepend tabs) ls = Outline.prepend tabs <$> readTop e x o ls := by
  -- on the bound for lines
  have within (most : Nat) : ∀ o ls, readWithin e x most (o.prepend tabs) ls
      = Outline.prepend tabs <$> readWithin e x most o ls := by
    induction most with
    | zero => exact fun o ls => rfl
    | succ most ih =>
        intro o ls
        unfold readWithin
        rw [map_bind]
        congr 1
        funext found
        cases found with
        | none => rfl
        | some found => simp only [readLine_prepend, map_bind, bind_map_left, ih]
  exact within ls.length o ls

/-- An inclusion at the margin adds the tabs of its file. -/
theorem readTop_inclusion (n : Nat) (target : Text) (o : Outline) (ls : List SourceLine) :
    readTop e x o (⟨n, '!' :: target⟩ :: ls)
      = x ⟨n, 0, 0, Text.trimEnd ('!' :: target)⟩ >>= fun tabs =>
          readTop e x (o.splice tabs) ls := by
  have hkind := Line.kind_of_head (by decide : Text.isBlank '!' = false) (fun _ => rfl) n target
  rw [readTop_of_head (by decide) (by decide), readLine, hkind]
  simp

/-- A source that starts with a tab does not need to know what is open before it. -/
theorem readTop_tab {head : SourceLine} (hhead : head.text.head? = some '@') (o : Outline)
    (ls : List SourceLine) :
    readTop e x o (head :: ls) = Outline.prepend o.finish <$> readTop e x ∅ (head :: ls) := by
  obtain ⟨n, text⟩ := head
  obtain ⟨t, rfl⟩ := List.head?_eq_some_iff.1 hhead
  have hkind := Line.kind_of_head (by decide : Text.isBlank '@' = false) (fun _ => rfl) n t
  -- Opening the tab closes what is open; nothing else of it counts.
  have hopen (heading : Heading) :
      openTab o heading = openTab (Outline.prepend o.finish ∅) heading := by
    have hclosed : (Outline.prepend o.finish ∅).closeTab.closed = o.closeTab.closed :=
      List.append_nil _
    funext c
    rw [openTab, openTab, Outline.openTab, Outline.openTab, hclosed]
  rw [← readTop_prepend, readTop_of_head (by decide) (by decide),
    readTop_of_head (by decide) (by decide), readLine, readLine, hkind]
  simp only [hopen]

end Document

/-! ### The lines of a file in the place of its inclusion -/

section Inlining

variable {root : Location} {loader loader' : Loader} (hloader : SameBut [root] loader loader')
  (depth : Nat) {nesting : Nat} {base : Text}

include hloader in
/-- The same lines at the top level of the root. -/
theorem inlined_readTop (base : Text) {files : List Location} (hfiles : [root] ⊆ files) {n n' : Nat}
    (hn : n ≤ n') (ts : List Text) (k k' : Nat) (o : Outline) :
    (Coupling.inlined files [root]).Couples Eq
      (Document.readTop (expander depth) (Document.readInclusion loader
        (Document.readNested loader (expander depth) n) base) o (SourceLine.numberFrom k ts))
      (Document.readTop (expander depth) (Document.readInclusion loader'
        (Document.readNested loader' (expander depth) n') base) o
        (SourceLine.numberFrom k' ts)) := by
  apply Coupling.couples_readTop rfl (Coupling.inlined_expands depth) _ (Nat.le_refl _)
    (Nat.le_refl _) o (Coupling.inlined_lines (fun _ _ => trivial) k k')
  intro m m' hm _
  apply inlined_readInclusion (hloader.mono hfiles) hm fun file _ hfile => hfiles hfile
  intro file source _
  exact inlined_readNested depth (hloader.mono (List.subset_cons_of_subset file hfiles))
    (List.cons_subset_cons file hfiles) hn _ source

omit hloader in
/-- A line that names a file includes it, unless it has no path or the file is open. -/
theorem readInclusion_run (inner : Text → Text → CompileM (List Tab)) {l : Line}
    {path source : Text} {file : Location}
    (hpath : Path.sourceOf (Text.trim (l.content.drop 1)) = .ok path)
    (hresolve : loader.resolve (Path.join base path) = .ok file)
    {c : Context} (hload : file ∉ c.openFiles → loader.load file = .ok source) :
    (∃ s, Document.readInclusion loader inner base l c = .error s c) ∨
      Document.readInclusion loader inner base l c
        = Document.whileOpen file (inner file.parent.text source) c := by
  by_cases hempty : Text.trim (l.content.drop 1) = []
  · left
    simp only [Document.readInclusion, hempty, if_true]
    exact ⟨_, rfl⟩
  · by_cases hopen : file ∈ c.openFiles
    · left
      simp only [Document.readInclusion, hempty, if_false, hpath, hresolve,
        CompileM.get_bind_run, hopen, if_true]
      exact ⟨_, rfl⟩
    · right
      simp only [Document.readInclusion, hempty, if_false, hpath, hresolve,
        CompileM.get_bind_run, hopen, hload hopen]

/-- The target of an inclusion is trimmed, so it may be taken from the line before its end is. -/
theorem trim_drop_inclusion (target : Text) :
    Text.trim ((Text.trimEnd ('!' :: target)).drop 1) = Text.trim target := by
  obtain ⟨u, hu⟩ := Text.trimEnd_cons_of_not_isBlank (by decide : Text.isBlank '!' = false) target
  obtain ⟨blanks, hblanks, htarget⟩ := Text.exists_eq_trimEnd_append ('!' :: target)
  rw [hu, List.cons_append] at htarget
  rw [hu, (List.cons.inj htarget).2, Text.trim_append_of_allBlank _ hblanks]
  rfl

include hloader in
/-- An included file beside its lines, read in the run that does not include it. -/
theorem inlined_inclusion (nesting : Nat) {l : Line} {path source : Text} {file : Location}
    (hpath : Path.sourceOf (Text.trim (l.content.drop 1)) = .ok path)
    (hresolve : loader.resolve (Path.join base path) = .ok file)
    (hload : file ≠ root → loader.load file = .ok source) (hparent : file.parent.text = base)
    (htab : ∃ t us, SourceLine.textsOf source = t :: us ∧ t.head? = some '@') (o : Outline)
    (k : Nat) :
    (Coupling.inlined [root] [root]).Couples (fun tabs o' => o'.finish = o.finish ++ tabs)
      (Document.readInclusion loader (Document.readNested loader (expander depth) nesting) base l)
      (Document.readTop (expander depth) (Document.readInclusion loader'
        (Document.readNested loader' (expander depth) nesting) base) o
        (SourceLine.numberFrom k (SourceLine.textsOf source))) := by
  intro c c' hc
  have hload' : file ∉ c.openFiles → loader.load file = .ok source := by
    rw [hc.1, List.mem_singleton]
    exact hload
  -- the inclusion fails, which is excused, or the file's own lines are read while it is open
  rcases readInclusion_run (Document.readNested loader (expander depth) nesting) hpath hresolve
    hload' with ⟨s, hs⟩ | hfile
  · rw [hs]
    exact .excused trivial
  · rw [hfile, hparent]
    apply Coupling.inlined_whileOpen file _ c c' hc
    cases nesting with
    | zero => exact fun c c' _ => .excused trivial
    | succ nesting =>
        -- The file's own inclusions may be nested one less deep than those of its lines.
        have hread := inlined_readTop hloader depth base (List.subset_cons_self file [root])
          (Nat.le_succ nesting) (SourceLine.textsOf source) 0 k ∅
        obtain ⟨t, us, hsource, ht⟩ := htab
        rw [Document.readNested, Document.readSource_eq, SourceLine.ofSource]
        rw [hsource] at hread ⊢
        rw [SourceLine.numberFrom, SourceLine.numberFrom] at hread ⊢
        rw [Document.readTop_tab ht o]
        apply hread.map
        rintro o' _ rfl
        exact o'.finish_prepend _

/-- Lines that a tab starts, or none, behind outlines that come to the same tabs. -/
theorem inlined_below (hloader : SameBut [root] loader loader') {ts : List Text}
    (hts : ts = [[]] ∨ ∃ t us, ts = t :: us ∧ t.head? = some '@') {o o' : Outline}
    (ho : o'.finish = o.finish) (k k' : Nat) :
    (Coupling.inlined [root] [root]).Couples (fun o o' => o'.finish = o.finish)
      (Document.readTop (expander depth) (Document.readInclusion loader
        (Document.readNested loader (expander depth) nesting) base) o (SourceLine.numberFrom k ts))
      (Document.readTop (expander depth) (Document.readInclusion loader'
        (Document.readNested loader' (expander depth) nesting) base) o'
        (SourceLine.numberFrom k' ts)) := by
  -- behind the inclusion stands the end, or a tab that closes whatever is open
  rcases hts with rfl | ⟨t, us, rfl, ht⟩
  · rw [Document.readTop_of_silent rfl, Document.readTop_of_silent rfl]
    exact .pure ho
  · have hread := inlined_readTop hloader depth base (List.Subset.refl [root])
      (Nat.le_refl nesting) (t :: us) k k' ∅
    rw [SourceLine.numberFrom, SourceLine.numberFrom] at hread ⊢
    rw [Document.readTop_tab ht, Document.readTop_tab ht o', ho]
    apply hread.map
    rintro o₁ _ rfl
    rfl

/-- The lines of a file beside an inclusion of the file. -/
theorem inlined_root (nesting : Nat) (hloader : SameBut [root] loader loader')
    {target path source : Text} {file : Location}
    (hpath : Path.sourceOf (Text.trim target) = .ok path)
    (hresolve : loader.resolve (Path.join base path) = .ok file)
    (hload : file ≠ root → loader.load file = .ok source) (hparent : file.parent.text = base)
    (htab : ∃ t us, SourceLine.textsOf source = t :: us ∧ t.head? = some '@')
    {below : List Text} (hbelow : below = [[]] ∨ ∃ t us, below = t :: us ∧ t.head? = some '@')
    (above : List Text) :
    (Coupling.inlined [root] [root]).Couples (fun o o' => o'.finish = o.finish)
      (Document.readTop (expander depth) (Document.readInclusion loader
        (Document.readNested loader (expander depth) nesting) base) ∅
        (SourceLine.numberFrom 0 (above ++ ('!' :: target) :: below)))
      (Document.readTop (expander depth) (Document.readInclusion loader'
        (Document.readNested loader' (expander depth) nesting) base) ∅
        (SourceLine.numberFrom 0 (above ++ (SourceLine.textsOf source ++ below)))) := by
  -- the inclusion, the file's first line and the line behind close what stands in front
  have hinclusion (k : Nat) : Closes (SourceLine.numberFrom k (('!' :: target) :: below)) :=
    SourceLine.IsBoundary.closes (.inr (.inr rfl)) _
  have hlines (k : Nat) :
      Closes (SourceLine.numberFrom k (SourceLine.textsOf source ++ below)) := by
    obtain ⟨t, us, hsource, ht⟩ := htab
    rw [hsource]
    exact SourceLine.IsBoundary.closes (.inr (.inl ht)) _
  have hbehind (k : Nat) : Closes (SourceLine.numberFrom k below) := by
    rcases hbelow with rfl | ⟨t, us, rfl, ht⟩
    · exact .inl rfl
    · exact SourceLine.IsBoundary.closes (.inr (.inl ht)) _
  rw [SourceLine.numberFrom_append, SourceLine.numberFrom_append,
    Document.readTop_append (hinclusion _), Document.readTop_append (hlines _)]
  -- the same lines above, then the file beside its lines, and the same lines below
  apply Coupling.Couples.bind (inlined_readTop hloader depth base (List.Subset.refl [root])
    (Nat.le_refl nesting) above 0 0 ∅)
  rintro o _ rfl
  rw [SourceLine.numberFrom, Document.readTop_inclusion, SourceLine.numberFrom_append,
    Document.readTop_append (hbehind _)]
  have hpath' : Path.sourceOf (Text.trim ((Text.trimEnd ('!' :: target)).drop 1)) = .ok path := by
    rw [trim_drop_inclusion, hpath]
  have hfile := inlined_inclusion hloader depth nesting (l := ⟨0 + above.length, 0, 0,
    Text.trimEnd ('!' :: target)⟩) hpath' hresolve hload hparent htab o (0 + above.length)
  apply hfile.bind
  intro tabs o' ho'
  exact inlined_below depth hloader hbelow ho' _ _

end Inlining

/-! ### Two compiles -/

/-- Two sources for one root make no difference to the other files. -/
theorem sameBut_insert (lib : Library) (root source source' : Text) :
    SameBut [Location.ofPath root] (lib.insert root source).loader
      (lib.insert root source').loader where
  resolve path := by
    simp only [Library.loader, Library.resolve, Library.find?_insert]
    split <;> rfl
  load file hfile := by
    have hne : Location.ofPath root ≠ file := fun heq => hfile (by simp [heq])
    simp only [Library.loader, Library.read, Library.find?_insert, if_neg hne]

/-- A file of the library can be found whatever source the root has. -/
theorem resolve_insert {lib : Library} {root path source : Text} {file : Location}
    (hpath : Location.ofPath path = file) (h : lib.find? file = some source) (text : Text) :
    (lib.insert root text).loader.resolve path = .ok file := by
  have hfound : ((lib.insert root text).find? file).isSome = true := by
    rw [Library.find?_insert, h]
    split <;> rfl
  simp only [Library.loader, Library.resolve, hpath, hfound, if_true]

/-- It can be loaded, too, unless it is the root itself. -/
theorem load_insert {lib : Library} {root source : Text} {file : Location}
    (hfile : file ≠ Location.ofPath root) (h : lib.find? file = some source) (text : Text) :
    (lib.insert root text).loader.load file = .ok source := by
  simp only [Library.loader, Library.read, Library.find?_insert, if_neg (Ne.symm hfile), h]

/-- The lines of texts that are written one below the other. -/
def linesOf (ts : List Text) : List Text :=
  (ts.flatMap Text.splitLines).map (List.filter (· ≠ '\r'))

/-- Lines are lines already. -/
theorem linesOf_of_line {ts : List Text} (h : ∀ t ∈ ts, '\n' ∉ t ∧ '\r' ∉ t) :
    linesOf ts = ts := by
  have hfilter : ∀ t ∈ ts, t.filter (· ≠ '\r') = id t := fun t ht =>
    SourceLine.filter_carriage_of_notMem (h t ht).2
  rw [linesOf, Text.flatMap_splitLines fun t ht => (h t ht).1, List.map_congr_left hfilter,
    List.map_id]

/-- A source of texts has their lines, and an empty one behind them. -/
theorem textsOf_join_linesOf {ts : List Text} (h : ts ≠ []) :
    SourceLine.textsOf (Text.join ['\n'] ts) = linesOf ts ++ [[]] := by
  rw [SourceLine.textsOf_eq, Text.splitLines_join h, linesOf]

/-- The lines of texts come one behind the other. -/
theorem linesOf_append (ts us : List Text) : linesOf (ts ++ us) = linesOf ts ++ linesOf us := by
  rw [linesOf, List.flatMap_append, List.map_append]
  rfl

/-- Lines between other texts are lines of the whole. -/
theorem textsOf_join_between {ts : List Text} (hne : ts ≠ [])
    (hts : ∀ t ∈ ts, '\n' ∉ t ∧ '\r' ∉ t) (above below : List Text) :
    SourceLine.textsOf (Text.join ['\n'] (above ++ (ts ++ below)))
      = linesOf above ++ (ts ++ (linesOf below ++ [[]])) := by
  have hwhole : above ++ (ts ++ below) ≠ [] := by simp [hne]
  rw [textsOf_join_linesOf hwhole, linesOf_append, linesOf_append, linesOf_of_line hts,
    List.append_assoc, List.append_assoc]

/-- The first line of a text that starts with a tab's marker does so, too. -/
theorem linesOf_tab {ts : List Text} (h : ∀ t ∈ ts.head?, t.head? = some '@') :
    linesOf ts ++ [[]] = [[]] ∨ ∃ t us, linesOf ts ++ [[]] = t :: us ∧ t.head? = some '@' := by
  cases ts with
  | nil => exact .inl rfl
  | cons t ts =>
      obtain ⟨u, rfl⟩ := List.head?_eq_some_iff.1 (h t rfl)
      obtain ⟨q, qs, hq⟩ := List.exists_cons_of_ne_nil (Text.splitLines_ne_nil u)
      have hsplit : Text.splitLines ('@' :: u) = ('@' :: q) :: qs := by
        unfold Text.splitLines at hq ⊢
        simp [Text.pieces, hq]
      right
      rw [linesOf, List.flatMap_cons, hsplit, List.cons_append, List.map_cons]
      exact ⟨_, _, rfl, by simp⟩

/-- The document of a root whose source is put in a library last. -/
theorem compileFile_insert (lib : Library) (depth : Nat) (root source : Text) :
    Document.compileFile (lib.insert root source).loader depth root
      = Document.ofRun (Document.whileOpen (Location.ofPath root) (Outline.finish <$>
          Document.readTop (expander depth) (Document.readInclusion (lib.insert root source).loader
            (Document.readNested (lib.insert root source).loader (expander depth)
              (lib.sources.length + 1)) (Location.ofPath root).parent.text) ∅
            (SourceLine.ofSource source))) .start := by
  have hresolve : (lib.insert root source).loader.resolve root = .ok (Location.ofPath root) := by
    simp [Library.loader, Library.resolve, Library.find?_insert]
  have hload : (lib.insert root source).loader.load (Location.ofPath root) = .ok source := by
    simp [Library.loader, Library.read, Library.find?_insert]
  have hlocations : (lib.insert root source).loader.locations.length = lib.sources.length + 1 := by
    simp [Library.loader, Library.insert]
  rw [Document.compileFile, Document.compileFileWith, hresolve]
  dsimp only
  rw [hload]
  dsimp only
  rw [Document.readAll, hlocations, Document.readNested, Document.readSource_eq]

/-- A file of the root's folder that starts with a tab can be included, or its lines can stand
in the place of the inclusion: what the root gives with the inclusion, if a tab or nothing
stands behind it, it gives with the lines. -/
theorem compileFile_inline (lib : Library) (depth : Nat) (root : Text) (above below : List Text)
    {target path source : Text} {file : Location} (hline : '\n' ∉ target ∧ '\r' ∉ target)
    (hpath : Path.sourceOf (Text.trim target) = .ok path)
    (hfile : Location.ofPath (Path.join (Location.ofPath root).parent.text path) = file)
    (hfolder : file.parent = (Location.ofPath root).parent)
    (hsource : lib.find? file = some source)
    (htab : ∃ t ∈ (SourceLine.textsOf source).head?, t.head? = some '@')
    (hbelow : ∀ t ∈ below.head?, t.head? = some '@') {d : Document}
    (h : Document.compileFile (lib.insert root
      (Text.join ['\n'] (above ++ ('!' :: target) :: below))).loader depth root = .ok d) :
    Document.compileFile (lib.insert root
      (Text.join ['\n'] (above ++ (SourceLine.textsOf source ++ below)))).loader depth root
        = .ok d := by
  have htarget : ∀ t ∈ ['!' :: target], '\n' ∉ t ∧ '\r' ∉ t := by simpa using hline
  have hincluding : SourceLine.textsOf (Text.join ['\n'] (above ++ ('!' :: target) :: below))
      = linesOf above ++ ('!' :: target) :: (linesOf below ++ [[]]) :=
    textsOf_join_between (List.cons_ne_nil _ []) htarget above below
  have hne : SourceLine.textsOf source ≠ [] := Text.splitLines_ne_nil _
  have hinlined := textsOf_join_between hne (fun t => SourceLine.notMem_of_mem_textsOf) above below
  rw [compileFile_insert, SourceLine.ofSource, hincluding] at h
  rw [compileFile_insert, SourceLine.ofSource, hinlined]
  generalize Text.join ['\n'] (above ++ ('!' :: target) :: below) = including at h
  generalize Text.join ['\n'] (above ++ (SourceLine.textsOf source ++ below)) = inlined
  -- the hypothesis about the first line, in the form in which the file's lines begin with it
  have htab' : ∃ t us, SourceLine.textsOf source = t :: us ∧ t.head? = some '@' := by
    obtain ⟨t, ht, hhead⟩ := htab
    obtain ⟨us, hus⟩ := List.head?_eq_some_iff.1 ht
    exact ⟨t, us, hus, hhead⟩
  have hrun := inlined_root depth (lib.sources.length + 1)
    (sameBut_insert lib root including inlined) hpath (resolve_insert hfile hsource including)
    (fun hne => load_insert hne hsource including) (congrArg Location.text hfolder) htab'
    (linesOf_tab hbelow) (linesOf above)
    (Context.start.openFile (Location.ofPath root)) (Context.start.openFile (Location.ofPath root))
    ⟨rfl, rfl⟩
  -- both documents come from the two runs; the first one succeeds, so the second one does
  simp only [Document.ofRun, Document.whileOpen, map_eq_pure_bind, CompileM.bind_run] at h ⊢
  generalize Document.readTop _ (Document.readInclusion (lib.insert root including).loader _ _) _ _
    (Context.start.openFile (Location.ofPath root)) = r at h hrun
  generalize Document.readTop _ (Document.readInclusion (lib.insert root inlined).loader _ _) _ _
    (Context.start.openFile (Location.ofPath root)) = r' at hrun ⊢
  cases hrun with
  | @ok o o' c c' ho hc =>
      obtain ⟨-, rfl⟩ := hc
      simpa [ho, Context.closeFile] using h
  | error hs => exact hs.elim
  | excused hlax => simp at h

/-- A file of two tabs, with a template that its includer calls behind it. -/
def tabFile : Text := "@ x\n# s\n~+t\n\t.b y\n@ z".toList

/-- A library with the file, and a root that is opened later. -/
def tabLibrary : Library := Library.ofList [("d/p.smsh".toList, tabFile)]

theorem compileFile_inline_tabFile :
    ∃ d, Document.compileFile (tabLibrary.insert "d/r.smsh".toList (Text.join ['\n']
        (["# a".toList, ".b x".toList] ++ "! p".toList :: ["@ b".toList, "# c\n~t".toList]))).loader
        1 "d/r.smsh".toList = .ok d ∧
      Document.compileFile (tabLibrary.insert "d/r.smsh".toList (Text.join ['\n']
        (["# a".toList, ".b x".toList] ++ (SourceLine.textsOf tabFile
          ++ ["@ b".toList, "# c\n~t".toList])))).loader 1 "d/r.smsh".toList = .ok d := by
  obtain ⟨d, hd, -⟩ : ∃ d, Document.compileFile (tabLibrary.insert "d/r.smsh".toList
      (Text.join ['\n'] (["# a".toList, ".b x".toList] ++ "! p".toList ::
        ["@ b".toList, "# c\n~t".toList]))).loader 1 "d/r.smsh".toList = .ok d ∧
      d.tabs.length = 4 := by
    decide +kernel
  have hpath : Path.sourceOf (Text.trim " p".toList) = .ok "p.smsh".toList := rfl
  have hsource : tabLibrary.find? (Location.ofPath "d/p.smsh".toList) = some tabFile := by decide
  exact ⟨d, hd, compileFile_inline tabLibrary 1 _ _ _ (by decide) hpath (by decide) (by decide)
    hsource ⟨"@ x".toList, by decide, by decide⟩ (by decide) hd⟩

end IndentMarkup
