import IndentMarkup.Document.Html
import IndentMarkup.Proofs.Nesting

/-!
The headings of a document.

A heading is read on its line and goes into the outline as it is; only the tabs that are opened
for sections outside all tabs have headings that stand on no line. So what holds of all headings
that are read, and of empty ones, holds of all headings of a document. The name of a heading is
formatted, so the brackets in it belong to elements. The description is not, and is written as it
was read.

* `Document.headings` — all headings of a document.
* `Document.forall_headings` — what is read on every line holds of all of them.
* `Document.wellNested_headings` — titles are well nested, and so are descriptions that have no
  angle brackets.
-/

namespace IndentMarkup

/-! ### Headings in outlines -/

/-- The headings of a tab and of its sections. -/
def Tab.headings (t : Tab) : List Heading := t.heading :: t.sections.map (·.heading)

/-- The headings of tabs and of their sections. -/
def tabsHeadings (tabs : List Tab) : List Heading := tabs.flatMap Tab.headings

namespace Outline

/-- The headings of all tabs and sections that have been opened. -/
def headings (o : Outline) : List Heading := tabsHeadings o.finish

theorem headings_none (closed : List Tab) : headings ⟨closed, none⟩ = tabsHeadings closed := rfl

theorem headings_some (closed : List Tab) (t : OpenTab) : headings ⟨closed, some t⟩
    = tabsHeadings closed ++ t.tab.headings ++ t.current.toList.map (·.heading) := by
  simp [headings, finish, closeTab, OpenTab.close, tabsHeadings, Tab.headings]

theorem headings_push? {o o' : Outline} {elements : List Element}
    (h : o.push? elements = some o') : o'.headings = o.headings := by
  obtain ⟨closed, current⟩ := o
  unfold push? at h
  split at h
  · next tab s hopen =>
      cases hopen
      cases h
      simp only [headings_some]
      rfl
  · cases h

/-- A section brings its heading, and perhaps an empty one for a tab around it. -/
theorem subset_openSection (o : Outline) (id : Nat) (heading : Heading) (hasTitle : Bool) :
    (o.openSection id heading hasTitle).1.headings ⊆ heading :: ⟨none, none⟩ :: o.headings := by
  obtain ⟨closed, current⟩ := o
  cases current with
  | none =>
      simp only [openSection, headings_some, headings_none, Tab.headings]
      grind
  | some t =>
      simp only [openSection, headings_some, OpenTab.close, Tab.headings]
      grind

theorem subset_openTab (o : Outline) (id : Nat) (heading : Heading) :
    (o.openTab id heading).1.headings ⊆ heading :: o.headings := by
  simp only [openTab, headings_some, Tab.headings]
  rw [headings, finish]
  grind

theorem headings_splice (o : Outline) (tabs : List Tab) :
    (o.splice tabs).headings = o.headings ++ tabsHeadings tabs :=
  List.flatMap_append

end Outline

/-! ### Headings that are read -/

namespace Document

section Walk

variable {p : Heading → Prop} (hempty : p ⟨none, none⟩) {e : Expander}
  (hread : ∀ l marker, Yields p (Heading.read e l marker))
include hempty hread

theorem yields_headings_readLine {x : Line → CompileM (List Tab)}
    (hx : ∀ l, Yields (fun tabs => ∀ h ∈ tabsHeadings tabs, p h) (x l)) {o : Outline}
    (ho : ∀ h ∈ o.headings, p h) (l : Line) (ls : List SourceLine) :
    Yields (fun r => ∀ h ∈ r.1.headings, p h) (readLine e x o l ls) := by
  have elements : Yields (fun r => ∀ h ∈ r.1.headings, p h) (readElements e o l ls) := by
    unfold readElements
    refine .bind_any fun r => .ite (fun _ => .pure ho) fun _ => ?_
    cases hpush : o.push? r.1 with
    | none => exact .failAt _ _ _
    | some o' =>
        refine .pure ?_
        rwa [Outline.headings_push? hpush]
  unfold readLine
  refine .ite (fun _ => .failAt _ _ _) fun _ => ?_
  cases l.kind with
  | sectionStart =>
      refine (hread l _).bind fun heading hheading => .bind (p := fun o : Outline =>
        ∀ h ∈ o.headings, p h) ?_ fun o' ho' => .pure ho'
      intro c o' after hrun h hh
      -- the section stands in the open tab, or in one that is opened for it and has no heading
      cases hrun
      have hsubset := o.subset_openSection c.nextId heading _ hh
      rcases List.mem_cons.1 hsubset with rfl | hmem
      · exact hheading
      · rcases List.mem_cons.1 hmem with rfl | hmem
        · exact hempty
        · exact ho h hmem
  | tabStart =>
      refine (hread l _).bind fun heading hheading => .bind (p := fun o : Outline =>
        ∀ h ∈ o.headings, p h) ?_ fun o' ho' => .pure ho'
      intro c o' after hrun h hh
      cases hrun
      rcases List.mem_cons.1 (o.subset_openTab c.nextId heading hh) with rfl | hmem
      · exact hheading
      · exact ho h hmem
  | directive => exact .bind_any fun _ => .pure ho
  | inclusion =>
      refine (hx l).bind fun tabs htabs => .pure fun h hh => ?_
      rw [Outline.headings_splice] at hh
      rcases List.mem_append.1 hh with hh | hh
      · exact ho h hh
      · exact htabs h hh
  | _ => exact elements

theorem yields_headings_readSource {x : Line → CompileM (List Tab)}
    (hx : ∀ l, Yields (fun tabs => ∀ h ∈ tabsHeadings tabs, p h) (x l)) (source : Text) :
    Yields (fun tabs => ∀ h ∈ tabsHeadings tabs, p h) (readSource e x source) := by
  have within (most : Nat) : ∀ o ls, (∀ h ∈ o.headings, p h) →
      Yields (fun o => ∀ h ∈ o.headings, p h) (readWithin e x most o ls) := by
    induction most with
    | zero => exact fun o ls ho => .pure ho
    | succ most ih =>
        intro o ls ho
        rw [readWithin]
        refine .bind_any fun found => ?_
        cases found with
        | none => exact .pure ho
        | some found =>
            exact (yields_headings_readLine hempty hread hx ho found.1 found.2).bind
              fun r hr => ih r.1 r.2 hr
  exact (within _ ∅ _ (List.forall_mem_nil _)).bind fun o ho => .pure ho

omit hempty hread in
theorem yields_whileOpen {α : Type} {q : α → Prop} {act : CompileM α} (h : Yields q act)
    (file : Location) : Yields q (whileOpen file act) := by
  intro c a after hrun
  unfold whileOpen at hrun
  split at hrun
  · next hact =>
      cases hrun
      exact h _ _ _ hact
  · cases hrun

/-- What holds of every heading that is read holds of all headings of a source and of the files
that it includes. -/
theorem yields_headings_readAll (loader : Loader) (base source : Text) :
    Yields (fun tabs => ∀ h ∈ tabsHeadings tabs, p h) (readAll loader e base source) := by
  have nested (nesting : Nat) : ∀ base source, Yields (fun tabs => ∀ h ∈ tabsHeadings tabs, p h)
      (readNested loader e nesting base source) := by
    induction nesting with
    | zero =>
        intro base source c tabs after hrun
        cases hrun
    | succ nesting ih =>
        intro base source
        refine yields_headings_readSource hempty hread (fun l => ?_) source
        unfold readInclusion
        refine .ite (fun _ => .failAt _ _ _) fun _ => ?_
        cases Path.sourceOf (Text.trim (l.content.drop 1)) with
        | error found => exact .failAt _ _ _
        | ok path =>
            dsimp only
            cases loader.resolve (Path.join base path) with
            | error err => exact .failAt _ _ _
            | ok file =>
                refine .look fun c => .ite (fun _ => .failAt _ _ _) fun _ => ?_
                cases loader.load file with
                | error err => exact .failAt _ _ _
                | ok source => exact yields_whileOpen (ih _ _) file
  exact nested _ base source

end Walk

end Document

/-! ### Titles and subtitles -/

/-- The name of a section, if it is shown, as it is written above the elements. -/
def Section.title (s : Section) : Text :=
  match s.hasTitle, s.heading.name with
  | true, some name => "<h1>".toList ++ name ++ "</h1>".toList
  | _, _ => []

theorem Section.html_eq (s : Section) :
    s.html = "<section id=\"".toList ++ Text.ofNat s.id ++ "\">".toList ++ s.title
      ++ s.heading.subtitle ++ Element.htmlAll s.elements ++ "</section>".toList := by
  unfold Section.html Section.title
  cases s.hasTitle with
  | false => rfl
  | true => cases s.heading.name <;> rfl

/-- The name of a tab as it is written above the sections. -/
def Tab.title (name : Text) : Text := "<h1 class=\"tab-title\">".toList ++ name ++ "</h1>".toList

theorem Tab.html_eq {t : Tab} {name : Text} (h : t.heading.name = some name) :
    t.html = "<section class=\"tab\" id=\"".toList ++ Text.ofNat t.id ++ "\">".toList
      ++ Tab.title name ++ t.heading.subtitle ++ t.sections.flatMap Section.html
      ++ "</section>".toList := by
  unfold Tab.html Tab.title
  simp only [h]
  generalize "<section class=\"tab\" id=\"".toList = start
  generalize "\">".toList = behind
  generalize "<h1 class=\"tab-title\">".toList = opening
  generalize "</h1>".toList = closing
  generalize "</section>".toList = ending
  simp only [List.append_assoc]

/-- The heading has no description, or one without angle brackets. -/
def Heading.IsPlain (h : Heading) : Prop :=
  ∀ text, h.description = some text → '<' ∉ text ∧ '>' ∉ text

/-- An element around a well-nested text. -/
theorem WellNested.enclosed (tag : Text) (attributes : List (Text × Text)) {inner : Text}
    (hvalues : ∀ a ∈ attributes, '"' ∉ a.2) (hvoid : isVoidTag tag = false)
    (h : WellNested inner) :
    WellNested (openingTag tag attributes ++ inner ++ Element.closeTag tag) := by
  rw [← List.append_nil (_ ++ Element.closeTag tag)]
  exact .closed hvalues hvoid h .nil

theorem Section.wellNested_title {s : Section} (h : ∀ name, s.heading.name = some name →
    WellNested name) : WellNested s.title := by
  unfold Section.title
  split
  · next name _ hname =>
      exact .enclosed "h1".toList [] nofun (by decide) (h name hname)
  · exact .nil

theorem Heading.wellNested_subtitle {h : Heading} (hnested : ∀ text, h.description = some text →
    WellNested text) : WellNested h.subtitle := by
  unfold Heading.subtitle
  split
  · exact .nil
  · next text htext =>
      exact .enclosed ['p'] [("class".toList, "subtitle".toList)]
        (by decide) (by decide) (hnested text htext)

/-! ### Documents -/

namespace Document

/-- The headings of a document. -/
def headings (d : Document) : List Heading := tabsHeadings d.tabs

/-- What holds of every heading that is read, and of an empty one, holds of all headings of a
document. -/
theorem forall_headings {p : Heading → Prop} (hempty : p ⟨none, none⟩) {e : Expander}
    (hread : ∀ l marker, Yields p (Heading.read e l marker)) {loader : Loader} {d : Document}
    (h : (∃ source, compileTextWith loader e source = .ok d) ∨
      ∃ path, compileFileWith loader e path = .ok d) : ∀ heading ∈ d.headings, p heading := by
  have gathered {act : CompileM (List Tab)} (hact : Yields (fun tabs =>
      ∀ h ∈ tabsHeadings tabs, p h) act) (hrun : ofRun act .start = .ok d) :
      ∀ heading ∈ d.headings, p heading := by
    unfold ofRun at hrun
    split at hrun
    · next tabs after htabs =>
        cases hrun
        exact hact _ _ _ htabs
    · cases hrun
  have source (base source : Text) := yields_headings_readAll hempty hread loader base source
  rcases h with ⟨text, htext⟩ | ⟨path, hpath⟩
  · exact gathered (source _ text) htext
  · unfold compileFileWith at hpath
    split at hpath
    · cases hpath
    · split at hpath
      · cases hpath
      · next file _ _ text _ => exact gathered (yields_whileOpen (source _ text) file) hpath

/-- If a document is the same whatever calls would give, so that no template is called for it, the
titles of its sections and tabs are well nested, and so is a subtitle whose description has no
angle brackets. -/
theorem wellNested_headings {loader : Loader} {d : Document}
    (h : (∃ source, ∀ e, compileTextWith loader e source = .ok d) ∨
      ∃ path, ∀ e, compileFileWith loader e path = .ok d) :
    (∀ s ∈ d.sections, WellNested s.title ∧
      (s.heading.IsPlain → WellNested s.heading.subtitle)) ∧
    ∀ t ∈ d.tabs, ∀ name, t.heading.name = some name → WellNested (Tab.title name) ∧
      (t.heading.IsPlain → WellNested t.heading.subtitle) := by
  -- calls are refused, so the headings are those of texts without calls
  have hrefuse (name : Text) (values : List Text) (n : Nat) :
      Yields (fun _ => False) (refuseCalls name values n) := by
    intro c a after hrun
    cases hrun
  have hread (l : Line) (marker : Nat) :
      Yields (fun h : Heading => ∀ name, h.name = some name → WellNested name)
        (Heading.read refuseCalls l marker) := by
    unfold Heading.read
    dsimp only
    refine .bind_any fun description => .ite (fun _ => .pure nofun) fun _ => ?_
    refine (yields_format hrefuse _ _ _).bind fun html hhtml => .pure fun name hname => ?_
    cases hname
    exact hhtml
  have hnames : ∀ heading ∈ d.headings, ∀ name, heading.name = some name → WellNested name :=
    forall_headings nofun hread
      (h.imp (fun ⟨source, hsource⟩ => ⟨source, hsource _⟩) fun ⟨path, hpath⟩ => ⟨path, hpath _⟩)
  have hsubtitle (heading : Heading) (hplain : heading.IsPlain) : WellNested heading.subtitle :=
    Heading.wellNested_subtitle fun text htext =>
      .of_no_angle (hplain text htext).1 (hplain text htext).2
  constructor
  · intro s hs
    obtain ⟨t, ht, hs⟩ := List.mem_flatMap.1 hs
    refine ⟨Section.wellNested_title fun name hname => ?_, hsubtitle _⟩
    exact hnames _ (List.mem_flatMap.2 ⟨t, ht, List.mem_cons_of_mem _ (List.mem_map_of_mem hs)⟩)
      name hname
  · intro t ht name hname
    refine ⟨?_, hsubtitle _⟩
    have hnested := hnames _ (List.mem_flatMap.2 ⟨t, ht, List.mem_cons_self⟩) name hname
    exact .enclosed "h1".toList [("class".toList, "tab-title".toList)]
      (by decide) (by decide) hnested

/-- A tab with a void element in its name, and a section with a span in its name. -/
def spannedHeadings : Text := "@ T <br>(x)\n# A <b c>(y)".toList

theorem wellNested_headings_spannedHeadings : ∃ d,
    (∀ e, compileTextWith (∅ : Library).loader e spannedHeadings = .ok d) ∧
    (∃ s ∈ d.sections, (s.title = "<h1>A <b>c</b></h1>".toList ∧ WellNested s.title) ∧
      s.heading.subtitle = "<p class=\"subtitle\">y</p>".toList ∧
      WellNested s.heading.subtitle) ∧
    ∃ t ∈ d.tabs, t.heading.name = some "T <br>".toList ∧
      WellNested (Tab.title "T <br>".toList) := by
  obtain ⟨d, hd⟩ : ∃ d, ∀ e, compileTextWith (∅ : Library).loader e spannedHeadings = .ok d :=
    ⟨_, fun e => rfl⟩
  obtain ⟨d', hd', ⟨s, hs, htitle, hheading⟩, t, ht, hname⟩ :
      ∃ d, compileTextWith (∅ : Library).loader refuseCalls spannedHeadings = .ok d ∧
        (∃ s ∈ d.sections, s.title = "<h1>A <b>c</b></h1>".toList ∧
          s.heading = ⟨some "A <b>c</b>".toList, some ['y']⟩) ∧
        ∃ t ∈ d.tabs, t.heading.name = some "T <br>".toList := by
    decide +kernel
  cases (hd refuseCalls).symm.trans hd'
  obtain ⟨hsections, htabs⟩ := wellNested_headings (.inl ⟨_, hd⟩)
  have hplain : s.heading.IsPlain := by
    rw [hheading]
    rintro text htext
    cases htext
    decide
  exact ⟨d, hd, ⟨s, hs, ⟨htitle, (hsections s hs).1⟩, by rw [hheading]; rfl,
    (hsections s hs).2 hplain⟩, t, ht, hname, (htabs t ht _ hname).1⟩

/-- An opening tag alone is not well nested. -/
theorem not_wellNested_bold : ¬ WellNested "<b>".toList := by
  have hchars : "<b>".toList = ['<', 'b', '>'] := rfl
  generalize "<b>".toList = t at hchars
  intro h
  cases h with
  | nil => cases hchars
  | char hopen => exact hopen (List.cons.inj hchars).1
  | @written v t hvoid _ =>
      match v, hvoid, hchars with
      | [], _, hchars => cases hchars
      | [c], hvoid, hchars =>
          cases hchars
          revert hvoid
          decide
      | c :: d :: v, _, hchars => simp at hchars
  | @void tag t attributes _ hvoid _ =>
      have hlong : ∀ tag ∈ voidTags, 2 ≤ tag.length := by decide
      have htag := hlong tag (List.contains_iff_mem.1 hvoid)
      have hlength := congrArg List.length hchars
      simp [openingTag] at hlength
      omega
  | @closed tag inner t attributes =>
      have hlength := congrArg List.length hchars
      simp [openingTag, Element.closeTag] at hlength
      omega

/-- Two characters that stand next to each other in one place only tell where a text is cut. -/
theorem cut_of_unique {w s t : Text} {a b : Char} {k : Nat} (h : s ++ a :: b :: t = w)
    (hunique : ∀ i < w.length, (w.drop i).take 2 = [a, b] → i = k) :
    s = w.take k ∧ t = w.drop (k + 2) := by
  have hdrop : w.drop s.length = a :: b :: t := by rw [← h, List.drop_left]
  have hlength : s.length < w.length := by
    rw [← h, List.length_append]
    exact Nat.lt_add_of_pos_right (Nat.succ_pos _)
  obtain rfl := hunique s.length hlength (by rw [hdrop]; rfl)
  refine ⟨by rw [← h, List.take_left], ?_⟩
  rw [← List.drop_drop, hdrop]
  rfl

/-- The attributes of a tag end in a double quote. -/
theorem exists_concat_attributes {attributes : List (Text × Text)} (h : attributes ≠ []) :
    ∃ front : Text, attributes.flatMap (fun a => ' ' :: a.1 ++ "=\"".toList ++ a.2 ++ ['"'])
      = front ++ ['"'] := by
  obtain ⟨before, a, rfl⟩ := List.eq_nil_or_concat' attributes |>.resolve_left h
  rw [List.flatMap_append, List.flatMap_singleton]
  exact ⟨_, (List.append_assoc _ _ _).symm⟩

/-- A description with an opening tag is written as it is, and its paragraph is not closed. -/
theorem not_wellNested_subtitle :
    ¬ WellNested (Heading.subtitle ⟨none, some "<b>".toList⟩) := by
  have hchars : Heading.subtitle ⟨none, some "<b>".toList⟩ = ['<', 'p', ' ', 'c', 'l', 'a', 's',
      's', '=', '"', 's', 'u', 'b', 't', 'i', 't', 'l', 'e', '"', '>', '<', 'b', '>', '<', '/',
      'p', '>'] := rfl
  have hno : ∀ tag ∈ voidTags, tag.head? ∉ [none, some 'p'] := by decide
  generalize Heading.subtitle ⟨none, some "<b>".toList⟩ = t at hchars
  intro h
  cases h with
  | nil => cases hchars
  | char hopen => exact hopen (List.cons.inj hchars).1
  | @written v t hvoid _ =>
      cases v with
      | nil => cases hchars
      | cons c v =>
          obtain rfl : c = 'p' := (List.cons.inj (List.cons.inj hchars).2).1
          have hsolid : Text.isBlank 'p' = false := by decide
          obtain ⟨u, hu⟩ := Text.trimEnd_cons_of_not_isBlank hsolid v
          have htrim : Text.trim ('p' :: v) = 'p' :: u := hu
          rw [htrim, isVoidTag, List.contains_iff_mem] at hvoid
          exact hno _ hvoid (by simp)
  | @void tag t attributes _ hvoid _ =>
      have htag := hno tag (List.contains_iff_mem.1 hvoid)
      cases tag with
      | nil => exact htag (by decide)
      | cons c tag =>
          obtain rfl : c = 'p' := (List.cons.inj (List.cons.inj hchars).2).1
          exact htag (by simp)
  | @closed tag inner t attributes _ _ hinner _ =>
      have hclose : openingTag tag attributes ++ inner ++ Element.closeTag tag ++ t
          = openingTag tag attributes ++ inner ++ '<' :: '/' :: (tag ++ '>' :: t) := by
        simp [Element.closeTag]
      rw [hclose] at hchars
      obtain ⟨hfront, hbehind⟩ := cut_of_unique (k := 23) hchars (by decide)
      obtain ⟨rfl, rfl⟩ : tag = ['p'] ∧ t = [] := by
        match tag, hbehind with
        | [], hbehind => cases hbehind
        | [c], hbehind =>
            cases hbehind
            exact ⟨rfl, rfl⟩
        | c :: d :: tag, hbehind => simp at hbehind
      by_cases hsome : attributes = []
      · subst hsome
        cases hfront
      · obtain ⟨front, hattributes⟩ := exists_concat_attributes hsome
        have hopening : openingTag ['p'] attributes ++ inner
            = '<' :: 'p' :: front ++ '"' :: '>' :: inner := by
          rw [openingTag, hattributes]
          simp
        rw [hopening] at hfront
        obtain ⟨-, hinside⟩ := cut_of_unique (k := 18) hfront (by decide)
        rw [hinside] at hinner
        exact not_wellNested_bold hinner

/-- The angle brackets of a description come to the page as they are. -/
theorem description_not_wellNested : ∃ d,
    (∀ e, compileTextWith (∅ : Library).loader e "# A(<b>)".toList = .ok d) ∧
    ∃ s ∈ d.sections, s.heading.description = some "<b>".toList ∧
      s.html = "<section id=\"1\"><h1>A</h1><p class=\"subtitle\"><b></p></section>".toList ∧
      ¬ WellNested "<b>".toList ∧ ¬ WellNested s.heading.subtitle := by
  obtain ⟨d, hd⟩ : ∃ d, ∀ e, compileTextWith (∅ : Library).loader e "# A(<b>)".toList = .ok d :=
    ⟨_, fun e => rfl⟩
  obtain ⟨d', hd', s, hs, hdescription, hhtml⟩ :
      ∃ d, compileTextWith (∅ : Library).loader refuseCalls "# A(<b>)".toList = .ok d ∧
        ∃ s ∈ d.sections, s.heading.description = some "<b>".toList ∧
          s.html =
            "<section id=\"1\"><h1>A</h1><p class=\"subtitle\"><b></p></section>".toList := by
    decide +kernel
  cases (hd refuseCalls).symm.trans hd'
  refine ⟨d, hd, s, hs, hdescription, hhtml, not_wellNested_bold, ?_⟩
  have hsubtitle : s.heading.subtitle = Heading.subtitle ⟨none, some "<b>".toList⟩ := by
    rw [Heading.subtitle, hdescription, Heading.subtitle]
  rw [hsubtitle]
  exact not_wellNested_subtitle

end Document

end IndentMarkup
