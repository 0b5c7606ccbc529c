import IndentMarkup.Proofs.Convergence
import IndentMarkup.Proofs.Invariant
import IndentMarkup.Proofs.TemplateLines
import Mathlib.Data.Finset.Card
import Mathlib.Data.Finset.Lattice.Basic
import Mathlib.Data.List.TakeWhile
import Mathlib.Order.Filter.Finite

/-!
When a compile comes to an end.

A template that is being expanded cannot be called, so expansions of finitely many names
are nested at most as deep as there are names. But a body can define templates under names
that it puts together from its values, and the name is all that the refusal goes by. Such
templates can call one another under ever new names.

* `expanderAmong` — expansions that refuse calls of all but the given names.
* `goes_on_expanderAmong` — with more depth than names such a compile never runs out of it.
* `ends_iff` — a compile ends exactly if finitely many names do for it.
* `growing_never_ends` — a source of six lines whose compile never ends.
-/

namespace IndentMarkup

/-- Expansions of templates with the given names. A call of another name is refused as if
there were no template of it. -/
def expanderAmong (names : Finset Text) : (depth : Nat) → Expander
  | 0 => fun _ _ _ ctx => .error .exhausted ctx
  | depth + 1 => fun name values line =>
      if name ∈ names then expandWith (expanderAmong names depth) name values line
      else .failAt (.template (.unknown name)) line none

/-! ### Finitely many names end -/

/-- The given files and templates are open, as long as there is room; the depth lasts. -/
def Invariant.roomy (files : List Location) (stack : List Text) (room : Prop) : Invariant :=
  rigid (fun c => c.openFiles = files ∧ c.expanding = stack ∧ room) (· ≠ .exhausted)
    (fun _ _ _ _ hc => hc) fun _ _ _ _ _ => Stop.error_ne_exhausted _

instance (files : List Location) (stack : List Text) (room : Prop) :
    (Invariant.roomy files stack room).Outer :=
  ⟨fun _ hc => hc⟩

/-- What is not in a list becomes less by a member that the list gets. -/
theorem card_sdiff_cons_lt {α : Type} [DecidableEq α] {s : Finset α} {l : List α} {a : α}
    (ha : a ∈ s) (hl : a ∉ l) : (s \ (a :: l).toFinset).card < (s \ l.toFinset).card := by
  rw [List.toFinset_cons, Finset.sdiff_insert]
  refine Finset.card_erase_lt_of_mem ?_
  rw [Finset.mem_sdiff, List.mem_toFinset]
  exact ⟨ha, hl⟩

/-- An expander among finitely many names lasts while there is depth for every name that
is not being expanded. -/
theorem roomy_expanderAmong (names : Finset Text) (depth : Nat) (files : List Location)
    (stack : List Text) (room : Prop) (hroom : room → (names \ stack.toFinset).card < depth) :
    (Invariant.roomy files stack room).Expands (expanderAmong names depth) := by
  -- on the depth; a name that is entered is one name less that can be called
  induction depth generalizing stack room with
  | zero =>
      rintro name values n - c ⟨-, -, hc⟩
      exact absurd (hroom hc) (Nat.not_lt_zero _)
  | succ depth ih =>
      intro name values n hn
      by_cases hname : name ∈ names
      · simp only [expanderAmong, hname, if_true]
        -- below the call the name is on the stack, so fewer names are left
        have hless : room ∧ name ∉ stack →
            (names \ (name :: stack).toFinset).card < depth := by
          rintro ⟨hc, hfree⟩
          have hlt := card_sdiff_cons_lt hname hfree
          have hle := hroom hc
          omega
        have hinner := ih (name :: stack) (room ∧ name ∉ stack) hless
        -- entering, leaving and failing inside the template
        refine Invariant.keeps_expandWith ⟨?_, ?_, ?_, fun _ => trivial⟩ hinner values hn
        · rintro c ⟨hfiles, hstack, hc⟩ hfree
          exact ⟨hfiles, congrArg (name :: ·) hstack, hc, hstack ▸ hfree⟩
        · rintro c ⟨hfiles, hstack, hc⟩
          exact ⟨hfiles, congrArg (List.drop 1) hstack, hc.1⟩
        · intro s c n' hs _
          cases s with
          | error e => intro h; cases h
          | exhausted => exact absurd rfl hs
      · simp only [expanderAmong, hname, if_false]
        intro c hc
        exact Invariant.fail _ none rfl hc hn

/-- Files are nested at most as deep as there are locations that are not open. -/
theorem roomy_readNested (loader : Loader) {e : Expander}
    (he : ∀ files room, (Invariant.roomy files [] room).Expands e) (nesting : Nat)
    (files : List Location) (room : Prop)
    (hroom : room → (loader.locations.toFinset \ files.toFinset).card < nesting)
    (base source : Text) :
    (Invariant.roomy files [] room).Keeps (fun _ => True)
      (Document.readNested loader e nesting base source) := by
  -- on the nesting of files; a file that is opened is one location less
  induction nesting generalizing files room base source with
  | zero =>
      rintro c ⟨-, -, hc⟩
      exact absurd (hroom hc) (Nat.not_lt_zero _)
  | succ nesting ih =>
      apply Invariant.keeps_readSource (he files room) _ (fun _ _ => trivial)
      intro m hm _
      refine Invariant.keeps_readInclusion (J := fun file => .roomy (file :: files) []
        (room ∧ file ∉ files)) hm (fun file _ => ?_) fun file source _ hload => ?_
      · refine ⟨?_, ?_, id⟩
        · rintro c ⟨hfiles, hstack, hc⟩ hfree
          exact ⟨congrArg (file :: ·) hfiles, hstack, hc, hfiles ▸ hfree⟩
        · rintro c ⟨hfiles, hstack, hc⟩
          exact ⟨congrArg (List.drop 1) hfiles, hstack, hc.1⟩
      · apply ih
        rintro ⟨hc, hfree⟩
        have hlt := card_sdiff_cons_lt (List.mem_toFinset.2 (loader.load_mem hload)) hfree
        have hle := hroom hc
        omega

/-- There is a level of nesting for every location of the loader. -/
theorem roomy_readAll (loader : Loader) {e : Expander}
    (he : ∀ files room, (Invariant.roomy files [] room).Expands e) (files : List Location)
    (base source : Text) :
    (Invariant.roomy files [] True).Keeps (fun _ => True)
      (Document.readAll loader e base source) := by
  apply roomy_readNested loader he
  intro _
  have hlocations := List.toFinset_card_le loader.locations
  have hless := Finset.card_le_card
    (Finset.sdiff_subset (s := loader.locations.toFinset) (t := files.toFinset))
  omega

/-- With more depth than names no expansion runs out of it, in whatever context. -/
theorem goes_on_expanderAmong {names : Finset Text} {depth : Nat} (hdepth : names.card < depth)
    (name : Text) (values : List Text) (line : Nat) (ctx : Context) :
    ¬ ∃ after, expanderAmong names depth name values line ctx = .error .exhausted after := by
  rintro ⟨after, hrun⟩
  have hkeeps := roomy_expanderAmong names depth ctx.openFiles ctx.expanding True
    (fun _ => (Finset.card_le_card Finset.sdiff_subset).trans_lt hdepth)
    name values line trivial ctx ⟨rfl, rfl, trivial⟩
  rw [hrun] at hkeeps
  exact hkeeps rfl

/-- There is depth for every name, whatever files are open. -/
theorem roomy_among {names : Finset Text} {depth : Nat} (hdepth : names.card < depth)
    (files : List Location) (room : Prop) :
    (Invariant.roomy files [] room).Expands (expanderAmong names depth) :=
  roomy_expanderAmong names depth files [] room fun _ =>
    (Finset.card_le_card Finset.sdiff_subset).trans_lt hdepth

/-- A text compiled among finitely many names comes to an end. -/
theorem goes_on_compileText (loader : Loader) {names : Finset Text} {depth : Nat}
    (hdepth : names.card < depth) (source : Text) :
    Document.compileTextWith loader (expanderAmong names depth) source ≠ .error .exhausted := by
  have hkeeps := roomy_readAll loader (roomy_among hdepth) [] ['.'] source .start
    ⟨rfl, rfl, trivial⟩
  intro h
  unfold Document.compileTextWith Document.ofRun at h
  split at h
  · cases h
  · next stop after hrun =>
      cases h
      rw [hrun] at hkeeps
      exact hkeeps rfl

/-- So does a file. -/
theorem goes_on_compileFile (loader : Loader) {names : Finset Text} {depth : Nat}
    (hdepth : names.card < depth) (path : Text) :
    Document.compileFileWith loader (expanderAmong names depth) path ≠ .error .exhausted := by
  intro h
  unfold Document.compileFileWith at h
  split at h
  · cases h
  next file _ =>
    split at h
    · cases h
    next source _ =>
      have hkeeps := roomy_readAll loader (roomy_among hdepth) [file] file.parent.text source
        (Context.start.openFile file) ⟨rfl, rfl, trivial⟩
      unfold Document.ofRun Document.whileOpen at h
      generalize Document.readAll loader _ _ source _ = r at h hkeeps
      cases r with
      | ok tabs after => cases h
      | error stop after =>
          cases h
          exact hkeeps rfl

/-! ### More depth changes nothing -/

/-- A run depends on its expander as the readers do. -/
def Follows {ρ : Type} (run : Expander → ρ) (exhausted : ρ → Prop) : Prop :=
  ∀ (ι : Type) (l : Filter ι) (patient : Prop) (E : ι → Expander) (e : Expander),
    ExpanderConverges l patient E e → (patient → ¬ exhausted (run e)) →
    ∀ᶠ i in l, run (E i) = run e

/-- A single expansion depends on its expander as the readers do. -/
theorem follows_expand (name : Text) (values : List Text) (line : Nat) (ctx : Context) :
    Follows (fun e => e name values line ctx) (∃ after, · = .error .exhausted after) := by
  intro ι l patient E e he hgoes
  apply he name values line ctx
  intro hp after h
  exact hgoes hp ⟨after, h⟩

/-- So does a document, if the run that it comes from does. -/
theorem follows_ofRun {x : Expander → CompileM (List Tab)}
    (hx : ∀ (ι : Type) (l : Filter ι) (patient : Prop) (E : ι → Expander) (e : Expander),
      ExpanderConverges l patient E e → Converges l patient (fun i => x (E i)) (x e))
    (ctx : Context) :
    Follows (fun e => Document.ofRun (x e) ctx) (· = .error .exhausted) := by
  intro ι l patient E e he hgoes
  have hends : patient → ∀ after, x e ctx ≠ .error .exhausted after := by
    intro hp after h
    exact hgoes hp (by simp only [Document.ofRun, h])
  filter_upwards [hx ι l patient E e he ctx hends] with i hi
  simp only [Document.ofRun, hi]

/-- So does the compile of a text. -/
theorem follows_compileText (loader : Loader) (source : Text) :
    Follows (Document.compileTextWith loader · source) (· = .error .exhausted) :=
  follows_ofRun (fun _ _ _ _ _ he => converges_readAll loader he ['.'] source) .start

/-- So does the compile of a file. -/
theorem follows_compileFile (loader : Loader) (path : Text) :
    Follows (Document.compileFileWith loader · path) (· = .error .exhausted) := by
  unfold Document.compileFileWith
  cases loader.resolve path with
  | error err =>
      intro ι l patient E e he _
      exact .of_forall fun _ => rfl
  | ok file =>
      dsimp only
      cases loader.load file with
      | error err =>
          intro ι l patient E e he _
          exact .of_forall fun _ => rfl
      | ok source =>
          apply follows_ofRun
          intro ι l patient E e he
          exact (converges_readAll loader he file.parent.text source).whileOpen file

/-- An expander of more depth goes on where one of less runs out, and agrees with it
elsewhere. -/
theorem expander_extends (depth more : Nat) :
    ExpanderConverges (pure ()) True (fun _ => expander (depth + more)) (expander depth) := by
  -- on the depth: at none the first expander runs out, and below a call both have one level less
  induction depth with
  | zero =>
      intro name values line ctx hgoes
      exact absurd rfl (hgoes trivial ctx)
  | succ depth ih =>
      rw [Nat.succ_add]
      exact converges_expandWith ih

/-- The same for expansions among names. -/
theorem expanderAmong_extends (names : Finset Text) (depth more : Nat) :
    ExpanderConverges (pure ()) True (fun _ => expanderAmong names (depth + more))
      (expanderAmong names depth) := by
  induction depth with
  | zero =>
      intro name values line ctx hgoes
      exact absurd rfl (hgoes trivial ctx)
  | succ depth ih =>
      rw [Nat.succ_add]
      intro name values line
      apply Converges.ite _ (fun _ => .rfl _)
      intro _
      exact converges_expandWith ih name values line

/-- Expanders among more and more names come to agree with the expander of all names: an
expansion calls finitely many. -/
theorem expanderAmong_converges (depth : Nat) :
    ExpanderConverges Filter.atTop False (expanderAmong · depth) (expander depth) := by
  -- on the depth; almost all sets of names have the name that is called and do for its body
  induction depth with
  | zero =>
      intro name values line
      exact .rfl _
  | succ depth ih =>
      intro name values line ctx hgoes
      filter_upwards [converges_expandWith ih name values line ctx hgoes,
        Filter.eventually_ge_atTop {name}] with names hnames hname
      have hmem : name ∈ names := Finset.singleton_subset_iff.1 hname
      simp only [expanderAmong, hmem, if_true]
      exact hnames

/-- Some depth is enough for a run exactly if finitely many names are. -/
theorem exists_depth_iff {ρ : Type} {run : Expander → ρ} {exhausted : ρ → Prop}
    (hrun : Follows run exhausted)
    (hends : ∀ (names : Finset Text) (depth : Nat), names.card < depth →
      ¬ exhausted (run (expanderAmong names depth))) :
    (∃ depth, ¬ exhausted (run (expander depth))) ↔
      ∃ names : Finset Text, ∀ depth, run (expander depth) = run (expanderAmong names depth) := by
  constructor
  · rintro ⟨depth, hgoes⟩
    -- The names that the runs of no more depth call; deeper runs are the one of this depth.
    have hshallow : ∀ᶠ names in Filter.atTop, ∀ d ∈ Finset.range (depth + 1),
        run (expanderAmong names d) = run (expander d) :=
      (Filter.eventually_all_finset _).2 fun d _ =>
        hrun _ _ False _ _ (expanderAmong_converges d) False.elim
    obtain ⟨names, hnames⟩ := hshallow.exists
    have hsame := hnames depth (Finset.mem_range.2 depth.lt_succ_self)
    use names
    intro d
    rcases Nat.lt_or_ge d (depth + 1) with hd | hd
    · exact (hnames d (Finset.mem_range.2 hd)).symm
    · obtain ⟨more, rfl⟩ := Nat.exists_eq_add_of_le (Nat.le_of_succ_le hd)
      have hdeep := hrun _ _ True _ _ (expander_extends depth more) fun _ => hgoes
      have hdeep' := hrun _ _ True _ _ (expanderAmong_extends names depth more)
        fun _ => hsame ▸ hgoes
      exact (Filter.eventually_pure.1 hdeep).trans
        (hsame.symm.trans (Filter.eventually_pure.1 hdeep').symm)
  · rintro ⟨names, hnames⟩
    refine ⟨names.card + 1, ?_⟩
    rw [hnames]
    exact hends names _ names.card.lt_succ_self

/-- A compile ends, with a document or with an error, exactly if finitely many names of
templates do for it: refusing the calls of all others changes nothing, at any depth. The
same holds for a single expansion in any context. -/
theorem ends_iff (loader : Loader) :
    (∀ source,
      (∃ depth, Document.compileText loader depth source ≠ .error .exhausted) ↔
        ∃ names : Finset Text, ∀ depth, Document.compileText loader depth source
          = Document.compileTextWith loader (expanderAmong names depth) source) ∧
    (∀ path,
      (∃ depth, Document.compileFile loader depth path ≠ .error .exhausted) ↔
        ∃ names : Finset Text, ∀ depth, Document.compileFile loader depth path
          = Document.compileFileWith loader (expanderAmong names depth) path) ∧
    (∀ name values line ctx,
      (∃ depth, ¬ ∃ after, expander depth name values line ctx = .error .exhausted after) ↔
        ∃ names : Finset Text, ∀ depth, expander depth name values line ctx
          = expanderAmong names depth name values line ctx) := by
  refine ⟨?_, ?_, ?_⟩
  · intro source
    apply exists_depth_iff (follows_compileText loader source)
    intro names depth hdepth
    exact goes_on_compileText loader hdepth source
  · intro path
    apply exists_depth_iff (follows_compileFile loader path)
    intro names depth hdepth
    exact goes_on_compileFile loader hdepth path
  · intro name values line ctx
    apply exists_depth_iff (follows_expand name values line ctx)
    intro names depth hdepth
    exact goes_on_expanderAmong hdepth name values line ctx

/-! ### Names without an end -/

/-- The names that the growing source comes up with, one after the other. -/
def growingName (k : Nat) : Text := 'a' :: List.replicate k 'x'

/-- The two lines that make the template of a name and call it. -/
def growingLines (t : Text) : List Text := ['~' :: 'u' :: ' ' :: t, '~' :: t]

/-- The template that defines another one, under the name that it is given. -/
def growingMaker : Template := ⟨['u'], [['n']], "~+>n\n\t~u >nx\n\t~>nx".toList⟩

/-- The template of a name. It makes that of the next name and calls it. -/
def growingCaller (k : Nat) : Template :=
  ⟨growingName k, [], Text.join ['\n'] (growingLines (growingName (k + 1)))⟩

/-- The definition of the maker, and the first two lines of the kind that it writes. -/
def growingSource : Text := "~+u n\n\t~+>n\n\t\t~u >nx\n\t\t~>nx\n~u a\n~a".toList

/-- The maker can be called, and the names from the `k`-th one on are free. -/
structure Ready (k : Nat) (c : Context) : Prop where
  unit : c.indentation = .tabs
  maker : c.template? ['u'] = some growingMaker
  free : ∀ j, k ≤ j → c.template? (growingName j) = none
  makerClosed : ['u'] ∉ c.expanding
  callersClosed : ∀ j, k ≤ j → growingName j ∉ c.expanding

/-- The context with the template of the `k`-th name. -/
def Context.grown (c : Context) (k : Nat) : Context :=
  { c with templates := c.templates.insert (growingName k) (growingCaller k) }

/-- The next name has one more letter. -/
theorem growingName_succ (k : Nat) : growingName (k + 1) = growingName k ++ ['x'] := by
  rw [growingName, List.replicate_succ', growingName, List.cons_append]

/-- Names of different numbers are different. -/
theorem growingName_injective {j k : Nat} (h : growingName j = growingName k) : j = k := by
  have hlength := congrArg List.length h
  simpa [growingName] using hlength

/-- Only two letters stand in a name. -/
theorem mem_growingName {k : Nat} {c : Char} (h : c ∈ growingName k) : c = 'a' ∨ c = 'x' := by
  rcases List.mem_cons.1 h with h | h
  · exact .inl h
  · exact .inr (List.eq_of_mem_replicate h)

/-- No character of a name is blank. -/
theorem isBlank_growingName {k : Nat} : ∀ c ∈ growingName k, Text.isBlank c = false := by
  intro c hc
  rcases mem_growingName hc with rfl | rfl <;> decide

/-- Nothing else stands in a name. -/
@[simp] theorem notMem_growingName {k : Nat} {c : Char} (ha : c ≠ 'a') (hx : c ≠ 'x') :
    c ∉ growingName k := by
  intro hc
  rcases mem_growingName hc with h | h
  · exact ha h
  · exact hx h

/-- A name at the end of a line is not trimmed. -/
theorem trimEnd_growing (k : Nat) (front : Text) :
    Text.trimEnd (front ++ growingName k) = front ++ growingName k := by
  rw [Text.trimEnd_append_of_not_allBlank, Text.trimEnd_of_no_blank isBlank_growingName]
  rfl

/-- The lines as they are stored and read again. -/
theorem textsOf_growing (k : Nat) :
    SourceLine.textsOf (Text.join ['\n'] (growingLines (growingName k)))
      = growingLines (growingName k) ++ [[]] := by
  apply SourceLine.textsOf_join (List.cons_ne_nil _ _)
  intro t ht
  simp only [List.mem_cons, List.not_mem_nil, or_false] at ht
  rcases ht with rfl | rfl <;> simp

/-- There is nothing to protect in the lines of a name. -/
theorem protectClosers_growing (k : Nat) :
    Template.protectClosers (Text.join ['\n'] (growingLines (growingName k)))
      = Text.join ['\n'] (growingLines (growingName k)) := by
  apply Template.protectClosers_of_no_closer
  intro hcloser
  have hmem := hcloser.subset (List.mem_cons_self (a := '\\'))
  simp [growingLines, Text.join] at hmem

/-- The lines of a name stand at the margin. -/
theorem scan_growing (k : Nat) : ∀ t ∈ growingLines (growingName k),
    Text.allBlank t = false ∧ ∃ l, Indentation.scan .tabs 0 t = .ok l := by
  intro t ht
  simp only [growingLines, List.mem_cons, List.not_mem_nil, or_false] at ht
  rcases ht with rfl | rfl
  all_goals
    constructor
    · rfl
    · exact ⟨_, scan_template .tabs 0 _⟩

/-- What the maker makes of a name: a definition, with the lines for the next name below. -/
theorem growingMaker_substitute (k : Nat) :
    growingMaker.substitute [growingName k]
      = .ok (Text.join ['\n'] (('~' :: '+' :: growingName k)
          :: (growingLines (growingName (k + 1))).map Indentation.tabs.indent)) := by
  rw [growingName_succ]
  generalize growingName k = t
  have hcontent : growingMaker.substitute [t]
      = .ok ("~+".toList ++ (t ++ ("\n\t~u ".toList
        ++ (t ++ ("x\n\t~".toList ++ (t ++ ['x'])))))) :=
    rfl
  rw [hcontent]
  simp [growingLines, Text.join, Indentation.indent, Indentation.unitLength, Indentation.unitChar]

/-- What the maker makes is read as a definition with two lines below. -/
theorem textsOf_growingMaker (k : Nat) :
    SourceLine.textsOf (Text.join ['\n'] (('~' :: '+' :: growingName k)
        :: (growingLines (growingName (k + 1))).map Indentation.tabs.indent))
      = ('~' :: '+' :: growingName k)
        :: ((growingLines (growingName (k + 1))).map Indentation.tabs.indent ++ [[]]) := by
  apply SourceLine.textsOf_join (List.cons_ne_nil _ _)
  intro t ht
  simp only [growingLines, List.map_cons, List.map_nil, List.mem_cons, List.not_mem_nil,
    or_false] at ht
  rcases ht with rfl | rfl | rfl <;>
    simp [Indentation.indent, Indentation.unitLength, Indentation.unitChar]

/-- A call of the maker defines the template of the name and does nothing else. -/
theorem expander_growingMaker (depth n : Nat) {k : Nat} {c : Context} (hc : Ready k c) :
    expander (depth + 1) ['u'] [growingName k] n c = .ok [] (c.grown k) := by
  have hbody : c.bodyOfCall ['u'] [growingName k]
      = .ok (Text.join ['\n'] (('~' :: '+' :: growingName k)
          :: (growingLines (growingName (k + 1))).map Indentation.tabs.indent)) := by
    simp only [Context.bodyOfCall, hc.maker, growingMaker_substitute, hc.makerClosed, if_false]
  have hfree := hc.free k (Nat.le_refl k)
  have hunit := hc.unit
  -- the context is taken apart, so that its unit is the tab in what follows
  obtain ⟨metadata, templates, unit, nextId, hasStructure, files, stack⟩ := c
  obtain rfl : unit = .tabs := hunit
  have htabs : Indentation.tabs ≠ .spaces 0 := by simp
  have hdefine := readDefinition_indent
    (Context.enter ⟨metadata, templates, .tabs, nextId, hasStructure, files, stack⟩ ['u'])
    htabs ⟨0, 0, 0, '~' :: '+' :: growingName k⟩ rfl (growingName k)
    (Text.words_of_no_blank (List.cons_ne_nil _ _) isBlank_growingName) rfl hfree
    (scan_growing (k + 1)) 1 [⟨3, []⟩] rfl
  rw [protectClosers_growing] at hdefine
  -- the definition takes the two lines below it and leaves the empty one at the end
  have hline : Block.readTemplateLine (expander depth)
      ⟨0, 0, 0, Text.trimEnd ('~' :: '+' :: growingName k)⟩
      (SourceLine.numberFrom 1 ((growingLines (growingName (k + 1))).map Indentation.tabs.indent)
        ++ [⟨3, []⟩]) ⟨metadata, templates, .tabs, nextId, hasStructure, files, ['u'] :: stack⟩
      = .ok ([], [⟨3, []⟩]) ⟨metadata, templates.insert (growingName k) (growingCaller k), .tabs,
          nextId, hasStructure, files, ['u'] :: stack⟩ := by
    have htrim : Text.trimEnd ('~' :: '+' :: growingName k) = '~' :: '+' :: growingName k :=
      trimEnd_growing k ['~', '+']
    rw [htrim]
    exact CompileM.bind_run_ok hdefine _
  have hsource : SourceLine.ofSource (Text.join ['\n'] (('~' :: '+' :: growingName k)
      :: (growingLines (growingName (k + 1))).map Indentation.tabs.indent))
      = ⟨0, '~' :: '+' :: growingName k⟩ :: (SourceLine.numberFrom 1
        ((growingLines (growingName (k + 1))).map Indentation.tabs.indent) ++ [⟨3, []⟩]) := by
    rw [SourceLine.ofSource, textsOf_growingMaker]
    rfl
  simp only [expander, expandWith, hbody, hsource, Context.enter,
    readFragment_template_ok hline rfl]
  rfl

/-- The first of the two lines calls the maker with the name. -/
theorem readTemplateLine_maker (e : Expander) (k n : Nat) (rest : List SourceLine) :
    Block.readTemplateLine e ⟨n, 0, 0, Text.trimEnd ('~' :: 'u' :: ' ' :: growingName k)⟩ rest
      = do return (← e ['u'] [growingName k] n, rest) := by
  -- behind the name of the template stands one value, the name
  have hvalue : Text.trim (' ' :: growingName k) = growingName k :=
    Text.trim_of_no_blank isBlank_growingName
  have hvalues : Template.valuesOf (' ' :: growingName k) = [growingName k] := by
    have hne : growingName k ≠ [] := List.cons_ne_nil _ _
    have hpieces : Text.pieces (· == '>') (growingName k) = [growingName k] := by
      apply Text.pieces_of_no_cut
      intro c hc
      rcases mem_growingName hc with rfl | rfl <;> decide
    simp only [Template.valuesOf, hvalue, hne, if_false, hpieces, List.map_cons, List.map_nil,
      Text.trim_of_no_blank isBlank_growingName]
  rw [show Text.trimEnd ('~' :: 'u' :: ' ' :: growingName k) = '~' :: 'u' :: ' ' :: growingName k
    from trimEnd_growing k ['~', 'u', ' '],
    readTemplateLine_call (by decide) (by decide) rfl, ← hvalues]
  rfl

/-- The second one calls the template of the name. -/
theorem readTemplateLine_caller (e : Expander) (k n : Nat) (rest : List SourceLine) :
    Block.readTemplateLine e ⟨n, 0, 0, Text.trimEnd ('~' :: growingName k)⟩ rest
      = do return (← e (growingName k) [] n, rest) := by
  have hspace : ∀ c ∈ '~' :: growingName k, decide (c ≠ ' ') = true := by
    intro c hc
    rcases List.mem_cons.1 hc with rfl | hc
    · decide
    · rcases mem_growingName hc with rfl | rfl <;> decide
  have htoken : ('~' :: growingName k).takeWhile (· ≠ ' ') = '~' :: growingName k :=
    List.takeWhile_eq_self_iff.2 hspace
  have hafter : ('~' :: growingName k).dropWhile (· ≠ ' ') = [] :=
    List.dropWhile_eq_nil_iff.2 hspace
  rw [show Text.trimEnd ('~' :: growingName k) = '~' :: growingName k
    from trimEnd_growing k ['~'], readTemplateLine_call (by decide) (by decide) rfl]
  simp only [Line.token, Line.afterToken, htoken, hafter]
  rfl

/-- So the first line makes the template of the name. -/
theorem readTemplateLine_maker_run (depth n : Nat) {k : Nat} {c : Context} (hc : Ready k c)
    (rest : List SourceLine) :
    Block.readTemplateLine (expander (depth + 1))
      ⟨n, 0, 0, Text.trimEnd ('~' :: 'u' :: ' ' :: growingName k)⟩ rest c
      = .ok ([], rest) (c.grown k) := by
  rw [readTemplateLine_maker, CompileM.bind_run_ok (expander_growingMaker depth n hc)]
  rfl

/-- In the body of the template of a name the next name is free. -/
theorem Ready.next {k : Nat} {c : Context} (hc : Ready k c) :
    Ready (k + 1) ((c.grown k).enter (growingName k)) where
  unit := hc.unit
  maker := by
    have hne : ['u'] ≠ growingName k := by simp [growingName]
    exact (Table.find?_insert_of_ne _ _ hne).trans hc.maker
  free j hj := by
    have hne : growingName j ≠ growingName k := by
      intro heq
      have hsame := growingName_injective heq
      omega
    exact (Table.find?_insert_of_ne _ _ hne).trans (hc.free j (by omega))
  makerClosed hmem := by
    rcases List.mem_cons.1 hmem with h | h
    · simp [growingName] at h
    · exact hc.makerClosed h
  callersClosed j hj hmem := by
    rcases List.mem_cons.1 hmem with h | h
    · have hsame := growingName_injective h
      omega
    · exact hc.callersClosed j (by omega) h

/-- The template of a name makes the next one and calls it, and so on until the depth is
used up. -/
theorem expander_growingName (depth n : Nat) {k : Nat} {c : Context} (hc : Ready k c) :
    ∃ after, expander depth (growingName k) [] n (c.grown k) = .error .exhausted after := by
  -- on the depth; the call of a name makes the next one and calls it with one level less
  induction depth generalizing k c n with
  | zero => exact ⟨c.grown k, rfl⟩
  | succ depth ih =>
      have hbody : (c.grown k).bodyOfCall (growingName k) []
          = .ok (Text.join ['\n'] (growingLines (growingName (k + 1)))) := by
        have hfound : (c.grown k).template? (growingName k) = some (growingCaller k) :=
          Table.find?_insert_self _ _ _
        have hclosed : growingName k ∉ (c.grown k).expanding := hc.callersClosed k (Nat.le_refl k)
        simp only [Context.bodyOfCall, hfound, hclosed, if_false]
        rfl
      have hsource : SourceLine.ofSource
          (Text.join ['\n'] (growingLines (growingName (k + 1))))
          = [⟨0, '~' :: 'u' :: ' ' :: growingName (k + 1)⟩, ⟨1, '~' :: growingName (k + 1)⟩,
            ⟨2, []⟩] := by
        rw [SourceLine.ofSource, textsOf_growing]
        rfl
      obtain ⟨after, hread⟩ : ∃ after, Block.readWithin (expander depth) 3 0
          [⟨0, '~' :: 'u' :: ' ' :: growingName (k + 1)⟩, ⟨1, '~' :: growingName (k + 1)⟩,
            ⟨2, []⟩] ((c.grown k).enter (growingName k)) = .error .exhausted after := by
        -- without depth the first of the two lines fails, with depth the second one does
        cases depth with
        | zero =>
            refine ⟨(c.grown k).enter (growingName k), readWithin_template_error ?_⟩
            rw [readTemplateLine_maker]
            rfl
        | succ depth =>
            obtain ⟨after, hcall⟩ := ih 1 hc.next
            have hfirst := readTemplateLine_maker_run depth 0 hc.next
              [⟨1, '~' :: growingName (k + 1)⟩, ⟨2, []⟩]
            have hsecond := readTemplateLine_caller (expander (depth + 1)) (k + 1) 1 [⟨2, []⟩]
            refine ⟨after, ?_⟩
            rw [readWithin_template, CompileM.bind_run_ok hfirst]
            refine CompileM.bind_run_error (readWithin_template_error ?_) _
            rw [hsecond, CompileM.bind_run_error hcall]
      refine ⟨after.leave, ?_⟩
      simp only [expander, expandWith, hbody, hsource, Block.readFragment, Block.readBlock,
        List.length_cons, List.length_nil, CompileM.bind_run_error hread, Stop.inTemplate]

/-- The context behind the definition of the maker. -/
def growingStart : Context :=
  { Context.start with templates := (∅ : Table Template).insert ['u'] growingMaker }

/-- At the start all names are free. -/
theorem ready_growingStart : Ready 0 growingStart where
  unit := rfl
  maker := Table.find?_insert_self _ _ _
  free j _ := by
    have hne : growingName j ≠ ['u'] := by simp [growingName]
    exact Table.find?_insert_of_ne _ _ hne
  makerClosed := List.not_mem_nil
  callersClosed _ _ := List.not_mem_nil

/-- The lines of the growing source, numbered. -/
theorem ofSource_growing : SourceLine.ofSource growingSource
    = [⟨0, ['~', '+', 'u', ' ', 'n']⟩, ⟨1, "\t~+>n".toList⟩, ⟨2, "\t\t~u >nx".toList⟩,
      ⟨3, "\t\t~>nx".toList⟩, ⟨4, ['~', 'u', ' ', 'a']⟩, ⟨5, ['~', 'a']⟩, ⟨6, []⟩] := by
  decide +kernel

/-- Its first line defines the maker. -/
theorem readTemplateLine_growingStart (e : Expander) :
    Block.readTemplateLine e ⟨0, 0, 0, Text.trimEnd ['~', '+', 'u', ' ', 'n']⟩
      [⟨1, "\t~+>n".toList⟩, ⟨2, "\t\t~u >nx".toList⟩, ⟨3, "\t\t~>nx".toList⟩,
        ⟨4, ['~', 'u', ' ', 'a']⟩, ⟨5, ['~', 'a']⟩, ⟨6, []⟩] .start
      = .ok ([], [⟨4, ['~', 'u', ' ', 'a']⟩, ⟨5, ['~', 'a']⟩, ⟨6, []⟩]) growingStart :=
  rfl

/-- However deep templates may be expanded in one another, the growing source needs more. -/
theorem growing_exhausted (depth : Nat) :
    Document.compileText (∅ : Library).loader depth growingSource = .error .exhausted := by
  obtain ⟨after, hread⟩ : ∃ after, ∀ x, Document.readWithin (expander depth) x 7 ∅
      (SourceLine.ofSource growingSource) .start = .error .exhausted after := by
    have hdefine := readTemplateLine_growingStart (expander depth)
    rw [ofSource_growing]
    -- with no depth the call of the maker fails, with any other the call of the first name does
    cases depth with
    | zero =>
        have hmaker := readTemplateLine_maker (expander 0) 0 4 [⟨5, ['~', 'a']⟩, ⟨6, []⟩]
        refine ⟨growingStart, fun x => (readTop_template_ok hdefine).trans ?_⟩
        refine readTop_template_error ((congrFun hmaker growingStart).trans ?_)
        rfl
    | succ depth =>
        have hmake := readTemplateLine_maker_run depth 4 ready_growingStart
          [⟨5, ['~', 'a']⟩, ⟨6, []⟩]
        have hcaller := readTemplateLine_caller (expander (depth + 1)) 0 5 [⟨6, []⟩]
        obtain ⟨after, hcall⟩ := expander_growingName (depth + 1) 5 ready_growingStart
        refine ⟨after, fun x => (readTop_template_ok hdefine).trans ?_⟩
        refine (readTop_template_ok hmake).trans (readTop_template_error ?_)
        exact (congrFun hcaller _).trans (CompileM.bind_run_error hcall _)
  have hlength : (SourceLine.ofSource growingSource).length = 7 := by
    rw [ofSource_growing]
    rfl
  have hrun : Document.readAll (∅ : Library).loader (expander depth) ['.'] growingSource .start
      = .error .exhausted after := by
    rw [Document.readAll, Document.readNested, Document.readSource, hlength,
      CompileM.bind_run_error (hread _)]
  simp only [Document.compileText, Document.compileTextWith, Document.ofRun, hrun]

/-- No depth is enough for the growing source. -/
theorem growing_never_ends : ¬ ∃ depth,
    Document.compileText (∅ : Library).loader depth growingSource ≠ .error .exhausted := by
  rintro ⟨depth, hends⟩
  exact hends (growing_exhausted depth)

end IndentMarkup
