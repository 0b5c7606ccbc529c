import IndentMarkup.Proofs.Comments.Readers
import IndentMarkup.Proofs.Runs.Cuts
import Mathlib.Data.List.Forall2
import Mathlib.Data.List.TakeWhile

/-!
Runs of items are as long as they can be, and complete.

Lines with the tag of an item that follow one another at one depth, with the same token, become one
outer element. Each of them is read with the lines below it as if nothing else stood there, in the
context that the items before it have left, and is one child; the block goes on behind the last
one. Nothing else becomes a child.

* `Block.Item` — an item as it stands in a source, and `Block.Item.Belongs`, when it is one of a
  run.
* `Block.RunEnds` — what follows upon a run.
* `Block.Item.Gives`, `Block.GivesAll` — what an item, and items in order, are read as.
* `Block.gives_of_readElement`, `Block.givesAll_of_collects` — reading one item, and all of them.
* `Block.collects_of_readLine` — a line that starts a run is its first item.
* `Block.Collects.lines` — items are read from lines that continue the run.
* `Block.readBlock_run` — a run within a block.
-/

namespace IndentMarkup.Block

open Context

/-! ### Items in a source -/

/-- The line of an item, and the lines below it that are its own. -/
structure Item where
  line : SourceLine
  below : List SourceLine

def Item.lines (i : Item) : List SourceLine := i.line :: i.below

/-- The lines of items in order. -/
def itemsLines (items : List Item) : List SourceLine := items.flatMap Item.lines

/-- Measured in the unit, the item's line has the depth and the token of the run, and the lines
below it are blank, or deeper and no comments. -/
structure Item.Belongs (unit : Indentation) (token : Text) (depth : Nat) (i : Item) : Prop where
  loud : i.line.isSilent = false
  line {m : Line} : i.line.scan unit = .ok m → continues token depth m = true
  below {l : SourceLine} : l ∈ i.below → l.isBlank = true ∨
    l.isSilent = false ∧ ∀ m, l.scan unit = .ok m → depth < m.depth

/-- Measured in the unit, nothing in these lines belongs to the last item or goes on with the run:
the first one that is not blank does not continue it, and neither that one nor the first one that
says something is deeper. A comment is passed over by the block below an item, so a deeper line
behind it would still be the item's own. -/
structure RunEnds (unit : Indentation) (token : Text) (depth : Nat) (rest : List SourceLine) :
    Prop extends Ends depth rest unit where
  other {l : SourceLine} {more : List SourceLine} {m : Line} : skipBlank rest = l :: more →
    l.scan unit = .ok m → continues token depth m = false

variable {unit : Indentation} {token : Text} {depth : Nat} {items : List Item}
  {rest : List SourceLine}

theorem forall_scan_iff {l : SourceLine} {p : Line → Prop} :
    (∀ m, l.scan unit = .ok m → p m) ↔ ∀ m ∈ (l.scan unit).toOption, p m := by
  cases l.scan unit <;> simp [Except.toOption]

theorem forall_head_iff {ls : List SourceLine} {p : Line → Prop} :
    (∀ l more m, ls = l :: more → l.scan unit = .ok m → p m) ↔
      ∀ l ∈ ls.head?, ∀ m ∈ (l.scan unit).toOption, p m := by
  constructor
  · intro h l hl
    obtain ⟨more, rfl⟩ := List.head?_eq_some_iff.1 hl
    exact forall_scan_iff.1 fun m hscan => h l more m rfl hscan
  · rintro h l more m rfl hscan
    exact forall_scan_iff.2 (h l rfl) m hscan

instance (i : Item) : Decidable (i.Belongs unit token depth) :=
  decidable_of_iff (i.line.isSilent = false ∧
      (∀ m ∈ (i.line.scan unit).toOption, continues token depth m = true) ∧
      ∀ l ∈ i.below, l.isBlank = true ∨
        l.isSilent = false ∧ ∀ m ∈ (l.scan unit).toOption, depth < m.depth)
    ⟨fun h => ⟨h.1, fun hscan => forall_scan_iff.2 h.2.1 _ hscan,
        fun hl => (h.2.2 _ hl).imp_right fun hl => ⟨hl.1, forall_scan_iff.2 hl.2⟩⟩,
      fun h => ⟨h.loud, forall_scan_iff.1 fun _ hscan => h.line hscan,
        fun _ hl => (h.below hl).imp_right fun hl => ⟨hl.1, forall_scan_iff.1 hl.2⟩⟩⟩

instance : Decidable (RunEnds unit token depth rest) :=
  decidable_of_iff
    ((∀ l ∈ (skipBlank rest).head?, ∀ m ∈ (l.scan unit).toOption,
        m.depth ≤ depth ∧ continues token depth m = false) ∧
      ∀ l ∈ (skipSilent rest).head?, ∀ m ∈ (l.scan unit).toOption, m.depth ≤ depth)
    ⟨fun h =>
      { solid := fun hl hscan => (forall_head_iff.2 h.1 _ _ _ hl hscan).1
        loud := fun hl hscan => forall_head_iff.2 h.2 _ _ _ hl hscan
        other := fun hl hscan => (forall_head_iff.2 h.1 _ _ _ hl hscan).2 },
      fun h => ⟨forall_head_iff.1 fun _ _ _ hl hscan => ⟨h.solid hl hscan, h.other hl hscan⟩,
        forall_head_iff.1 fun _ _ _ hl hscan => h.loud hl hscan⟩⟩

theorem itemsLines_cons (i : Item) (items : List Item) (rest : List SourceLine) :
    itemsLines (i :: items) ++ rest = i.line :: (i.below ++ (itemsLines items ++ rest)) := by
  simp [itemsLines, Item.lines]

theorem skipBlank_append {blanks ls : List SourceLine} (h : ∀ l ∈ blanks, l.isBlank = true) :
    skipBlank (blanks ++ ls) = skipBlank ls :=
  List.dropWhile_append_of_pos h

/-- The lines of further items do not belong to an item in front of them. -/
theorem ends_itemsLines (hitems : ∀ i ∈ items, i.Belongs unit token depth)
    (hrest : RunEnds unit token depth rest) : Ends depth (itemsLines items ++ rest) unit := by
  cases items with
  | nil => exact hrest.toEnds
  | cons i items =>
      have hi := hitems i List.mem_cons_self
      have hshallow {m : Line} (h : i.line.scan unit = .ok m) : m.depth ≤ depth :=
        Nat.le_of_eq (continues_iff.1 (hi.line h)).1
      constructor
      · intro l more m hfound hscan
        have hsolid := isBlank_of_loud hi.loud
        rw [itemsLines_cons, skipBlank, List.dropWhile_cons_of_neg (by simp [hsolid])] at hfound
        cases hfound
        exact hshallow hscan
      · intro l more m hfound hscan
        rw [itemsLines_cons, skipSilent, List.dropWhile_cons_of_neg (by simp [hi.loud])] at hfound
        cases hfound
        exact hshallow hscan

theorem endsBetween_itemsLines {c d : Context}
    (h : ∀ mid, c.KeepsUnit mid → mid.KeepsUnit d →
      (∀ i ∈ items, i.Belongs mid.indentation token depth) ∧
        RunEnds mid.indentation token depth rest) :
    EndsBetween depth (itemsLines items ++ rest) c d :=
  fun mid hc hd => ends_itemsLines (h mid hc hd).1 (h mid hc hd).2

/-- A block that ends among the lines below an item leaves blank lines only. -/
theorem Item.Belongs.isBlank_of_stops {i : Item} {c : Context} {ls : List SourceLine}
    (hi : i.Belongs c.indentation token depth) (hls : ls ⊆ i.below)
    (hstops : Stops (depth + 1) ls c) : ∀ l ∈ ls, l.isBlank = true := by
  have hsilent : skipSilent ls = [] := by
    rcases hstops with hnone | ⟨l, more, m, hfound, hscan, hlt⟩
    · exact hnone
    · have hl : l ∈ ls := by
        have hskip : skipSilent ls <:+ ls := List.dropWhile_suffix _
        rw [hfound] at hskip
        exact hskip.mem List.mem_cons_self
      rcases hi.below (hls hl) with hblank | ⟨-, hdeep⟩
      · rw [isBlank_of_loud (loud_of_skipSilent hfound)] at hblank
        cases hblank
      · have hgt := hdeep m hscan
        omega
  intro l hl
  rcases hi.below (hls hl) with hblank | ⟨hloud, -⟩
  · exact hblank
  · have hall := List.dropWhile_eq_nil_iff.1 hsilent l hl
    rw [hloud] at hall
    cases hall

/-! ### What items are read as -/

/-- The text of a line with an element as HTML: literal, or formatted. -/
def htmlOf (e : Expander) (m : Line) (head : TagLine) : CompileM Text :=
  if head.raw then pure (Text.escapeMarkup head.text)
  else Inline.format e head.text m.number head.column

/-- A text that is not empty ends in a line break. -/
def TagLine.broken (head : TagLine) (html : Text) : Text :=
  if head.text = [] then html else html ++ "<br>".toList

theorem readElement_eq (e : Expander) (children : Reader) (m : Line) (head : TagLine) {tag : Text}
    (htag : tag ≠ "img".toList) (ls : List SourceLine) :
    readElement e children m head tag ls = htmlOf e m head >>= fun html =>
      children (m.depth + 1) ls >>= fun r =>
        pure ((Element.ofTag tag (head.broken html) head.attributes).withChildren r.1, r.2) := by
  obtain ⟨_, attributes, text, column, raw⟩ := head
  rw [readElement, if_neg htag]
  cases raw <;> rfl

/-- Read in `c`, the item is an element with the attributes and the text of its line, and with the
elements of the lines below it, read alone, as its children. -/
inductive Item.Gives (e : Expander) (depth : Nat) (inner : Text) (i : Item) (c : Context) :
    Element → Context → Prop where
  | of_parts {m : Line} {head : TagLine} {html : Text} {mid d : Context} {children : List Element}
      {left : List SourceLine} :
      i.line.scan c.indentation = .ok m → readTag m c = .ok head c →
      htmlOf e m head c = .ok html mid →
      readBlock e (depth + 1) i.below mid = .ok (children, left) d →
      (∀ l ∈ left, l.isBlank = true) →
      Gives e depth inner i c
        ((Element.ofTag inner (head.broken html) head.attributes).withChildren children) d

/-- Read one after the other, the items are these elements. -/
inductive GivesAll (e : Expander) (depth : Nat) (inner : Text) :
    List Item → Context → List Element → Context → Prop where
  | nil {c : Context} : GivesAll e depth inner [] c [] c
  | cons {i : Item} {items : List Item} {c mid d : Context} {el : Element} {es : List Element} :
      i.Gives e depth inner c el mid → GivesAll e depth inner items mid es d →
      GivesAll e depth inner (i :: items) c (el :: es) d

theorem GivesAll.length_eq {e : Expander} {inner : Text} {c d : Context} {es : List Element}
    (h : GivesAll e depth inner items c es d) : es.length = items.length := by
  induction h with
  | nil => rfl
  | cons _ _ ih => rw [List.length_cons, List.length_cons, ih]

/-! ### Reading items -/

section Reading

variable {e : Expander} (he : e.Steady) {inner : Text} (hinner : inner ≠ "img".toList)
  {c d : Context} {es : List Element} {left blanks : List SourceLine}
include he hinner

/-- An item is read alone, and of its lines only blank ones are left. -/
theorem gives_of_readElement {i : Item} {m : Line} {head : TagLine} {el : Element}
    {tail : List SourceLine} (hscan : i.line.scan c.indentation = .ok m)
    (hdepth : m.depth = depth) (htag : readTag m c = .ok head c)
    (hrun : readElement e (readBlock e) m head inner (i.below ++ tail) c = .ok (el, left) d)
    (htail : EndsBetween depth tail c d) (hi : i.Belongs d.indentation token depth) :
    ∃ blanks, left = blanks ++ tail ∧ (∀ l ∈ blanks, l.isBlank = true) ∧
      i.Gives e depth inner c el d := by
  subst hdepth
  have hcuts : Cuts m.depth tail _ _ :=
    cuts_readElement he head inner (cuts_readBlock he (Nat.lt_succ_self m.depth) i.below)
  obtain ⟨blanks, rfl, halone⟩ := hcuts c el left d hrun htail
  rw [readElement_eq e (readBlock e) m head hinner] at halone
  obtain ⟨html, mid, hhtml, hthen⟩ := CompileM.exists_of_bind_ok halone
  obtain ⟨⟨children, behind⟩, last, hblock, hend⟩ := CompileM.exists_of_bind_ok hthen
  cases hend
  have hblank := hi.isBlank_of_stops (suffix_of_readBlock hblock).subset (reads_iff.2 hblock).stops
  exact ⟨behind, rfl, hblank, .of_parts hscan htag hhtml hblock hblank⟩

/-- All items that are left are read, one after the other, and nothing behind them. -/
theorem givesAll_of_collects {lines : List (SourceLine × Line)}
    (hblanks : ∀ l ∈ blanks, l.isBlank = true)
    (hlines : Collects e token inner depth (blanks ++ (itemsLines items ++ rest)) c lines es left d)
    (hunits : ∀ mid, c.KeepsUnit mid → mid.KeepsUnit d →
      (∀ i ∈ items, i.Belongs mid.indentation token depth) ∧
        RunEnds mid.indentation token depth rest) :
    ∃ blanks', left = blanks' ++ rest ∧ (∀ l ∈ blanks', l.isBlank = true) ∧
      GivesAll e depth inner items c es d := by
  -- on the items, for any blank lines left in front by the item before
  induction items generalizing c es blanks lines with
  | nil =>
      cases hlines with
      | halt => exact ⟨blanks, rfl, hblanks, .nil⟩
      | item hfound hscan hgoes _ hitem hmore =>
          have hto := (steady_readElement he _ _ inner _).run hitem
          have hfrom := (steady_readRun he token inner depth _).run hmore.run
          rw [skipBlank_append hblanks] at hfound
          rw [(hunits c (.refl c) (hto.trans hfrom)).2.other hfound hscan] at hgoes
          cases hgoes
  | cons i items ih =>
      have hkeep := (steady_readRun he token inner depth _).run hlines.run
      have hi := (hunits c (.refl c) hkeep).1 i List.mem_cons_self
      have hskip : skipBlank (blanks ++ (itemsLines (i :: items) ++ rest)) =
          i.line :: (i.below ++ (itemsLines items ++ rest)) := by
        rw [skipBlank_append hblanks, itemsLines_cons, skipBlank,
          List.dropWhile_cons_of_neg (by simp [isBlank_of_loud hi.loud])]
      cases hlines with
      | halt hhalts =>
          rcases hhalts with hnone | ⟨l, more, m, hfound, hscan, hother⟩
          · rw [hskip] at hnone
            cases hnone
          · rw [hskip] at hfound
            cases hfound
            rw [hi.line hscan] at hother
            cases hother
      | @item _ more between _ l m head _ mid _ el lines es hfound hscan hgoes htag hitem hmore =>
          rw [hskip] at hfound
          cases hfound
          have hto := (steady_readElement he m head inner _).run hitem
          have hfrom := (steady_readRun he token inner depth _).run hmore.run
          have hothers : ∀ mid', c.KeepsUnit mid' → mid'.KeepsUnit d →
              (∀ j ∈ items, j.Belongs mid'.indentation token depth) ∧
                RunEnds mid'.indentation token depth rest := by
            -- what is asked of the lines holds in the contexts of the rest of the run
            intro mid' hc hd
            obtain ⟨hall, hrest⟩ := hunits mid' hc hd
            exact ⟨fun j hj => hall j (List.mem_cons_of_mem i hj), hrest⟩
          have htail : EndsBetween depth (itemsLines items ++ rest) c mid :=
            endsBetween_itemsLines fun mid' hc hd => hothers mid' hc (hd.trans hfrom)
          obtain ⟨blanks₁, hbetween, hblanks₁, hgives⟩ := gives_of_readElement he hinner hscan
            (continues_iff.1 hgoes).1 htag hitem htail
            ((hunits mid hto hfrom).1 i List.mem_cons_self)
          subst hbetween
          obtain ⟨blanks₂, hleft, hblanks₂, hmoreGives⟩ := ih hblanks₁ hmore
            fun mid' hc hd => hothers mid' (hto.trans hc) hd
          exact ⟨blanks₂, hleft, hblanks₂, .cons hgives hmoreGives⟩

end Reading

/-! ### Lines that start runs -/

theorem find?_run : ∀ run ∈ runs, runs.find? (·.tag = run.tag) = some run := by
  decide

theorem inner_ne_img : ∀ run ∈ runs, run.inner ≠ "img".toList := by
  decide

section Starts

variable {e : Expander} {run : Run} {c d : Context} {ls left : List SourceLine}
  {es : List Element}

/-- A line that starts a run is the first of its items. -/
theorem collects_of_readLine (hrun : run ∈ runs) {l : SourceLine} {m : Line}
    (hsolid : l.isBlank = false) (hscan : l.scan c.indentation = .ok m)
    (hgoes : continues token depth m = true) (htoken : SourceLine.tagOfToken token = run.tag)
    (h : readLine e m ls c = .ok (es, left) d) :
    ∃ lines children, es = [(Element.ofTag run.outer [] ∅).withChildren children] ∧
      Collects e token run.inner depth (l :: ls) c ((l, m) :: lines) children left d := by
  obtain ⟨rfl, hkind, rfl⟩ := continues_iff.1 hgoes
  unfold readLine readLineWith at h
  rw [hkind] at h
  obtain ⟨head, mid, htag, hthen⟩ := CompileM.exists_of_bind_ok h
  have hmid := context_of_readTag htag
  subst hmid
  rw [tag_of_readTag hkind htag, htoken, find?_run run hrun] at hthen
  obtain ⟨⟨first, between⟩, mid, hfirst, hthen⟩ := CompileM.exists_of_bind_ok hthen
  obtain ⟨⟨more, behind⟩, last, hmore, hend⟩ := CompileM.exists_of_bind_ok hthen
  cases hend
  obtain ⟨lines, hlines⟩ := exists_collects hmore
  have hskip : skipBlank (l :: ls) = l :: ls := by simp [skipBlank, hsolid]
  exact ⟨lines, first :: more, rfl, .item hskip hscan hgoes htag hfirst hlines⟩

/-- In some context and with some lines below it, the measured line is read as this item. -/
def ReadFrom (e : Expander) (inner : Text) (p : SourceLine × Line) (el : Element) : Prop :=
  ∃ head ls left c d, p.1.scan c.indentation = .ok p.2 ∧ readTag p.2 c = .ok head c ∧
    readElement e (readBlock e) p.2 head inner ls c = .ok (el, left) d

/-- The items are read from lines that continue the run, one from each. -/
theorem Collects.lines {inner : Text} {lines : List (SourceLine × Line)}
    (h : Collects e token inner depth ls c lines es left d) :
    List.Sublist (lines.map (·.1)) ls ∧ (∀ p ∈ lines, continues token depth p.2 = true) ∧
      List.Forall₂ (ReadFrom e inner) lines es := by
  induction h with
  | halt => exact ⟨List.nil_sublist _, fun p hp => absurd hp List.not_mem_nil, .nil⟩
  | @item ls rest between left l m head c mid d el lines es hfound hscan hgoes htag hitem _ ih =>
      obtain ⟨hsublist, hall, hread⟩ := ih
      have hskip : skipBlank ls <:+ ls := List.dropWhile_suffix _
      rw [hfound] at hskip
      refine ⟨?_, List.forall_mem_cons.2 ⟨hgoes, hall⟩,
        .cons ⟨head, rest, between, c, mid, hscan, htag, hitem⟩ hread⟩
      exact ((hsublist.trans (suffix_of_readElement hitem).sublist).cons_cons l).trans
        hskip.sublist

end Starts

/-! ### Runs in blocks -/

variable {run : Run}

/-- A block that comes to items of a run has one element for them and goes on behind them. -/
theorem reads_run {n : Nat} (hrun : run ∈ runs) (htoken : SourceLine.tagOfToken token = run.tag)
    {ls left : List SourceLine} {c d : Context} {es : List Element}
    (hread : Reads (expander n) depth ls c es left d)
    (hlines : skipSilent ls = itemsLines items ++ rest) (hsome : items ≠ [])
    (hunits : ∀ unit, unit = c.indentation ∨ unit = d.indentation →
      (∀ i ∈ items, i.Belongs unit token depth) ∧ RunEnds unit token depth rest) :
    ∃ children after blanks mid,
      GivesAll (expander n) depth run.inner items c children mid ∧
      es = (Element.ofTag run.outer [] ∅).withChildren children :: after ∧
      (∀ l ∈ blanks, l.isBlank = true) ∧
      Reads (expander n) depth (blanks ++ rest) mid after left d := by
  have he := steady_expander n
  obtain ⟨i, items, rfl⟩ := List.exists_cons_of_ne_nil hsome
  have hi := (hunits _ (.inl rfl)).1 i List.mem_cons_self
  rw [itemsLines_cons] at hlines
  cases hread with
  -- the block cannot stop in front of the first item, which is at its depth
  | stop hstops =>
      rcases hstops with hnone | ⟨l, more, m, hfound, hscan, hlt⟩
      · rw [hlines] at hnone
        cases hnone
      · rw [hlines] at hfound
        cases hfound
        have hdepth := (continues_iff.1 (hi.line hscan)).1
        omega
  | @line _ below between _ l m _ mid _ first more hfound hscan hdepth hline hmore =>
      rw [hlines] at hfound
      cases hfound
      obtain ⟨lines, children, rfl, hcollects⟩ := collects_of_readLine hrun
        (isBlank_of_loud hi.loud) hscan (hi.line hscan) htoken hline
      rw [← itemsLines_cons, ← List.nil_append (itemsLines _ ++ rest)] at hcollects
      -- the reader of the run may change the unit, but then the block keeps what it changed
      have hbehind := (steady.readBlock (f := expander n) he depth between).run
        (reads_iff.1 hmore)
      obtain ⟨blanks, rfl, hblanks, hgives⟩ := givesAll_of_collects he
        (inner_ne_img run hrun) (fun l hl => absurd hl List.not_mem_nil) hcollects
        fun mid' hfrom hto => hunits _ (hfrom.indentation (hto.trans hbehind))
      exact ⟨children, more, blanks, mid, hgives, rfl, hblanks, hmore⟩

/-- A run within a block that is read. Its items are lines of its token with the lines below them;
the block comes to the first of them, and behind the last one it ends, or something else comes that
is not deeper. Then the block has one outer element for the items, in which each is read from its
own lines, and goes on behind the last one; and every item of an outer element, whatever stands
between the items, is read from a line with the depth and the token of the first one.

Lines are measured when they are reached, and a template between them may set the unit of
indentation, once. What is asked of the lines is therefore asked in the units before and behind
the block; a line that is indented by tabs or by spaces can be measured only where they are the
unit. -/
theorem readBlock_run (n : Nat) (hrun : run ∈ runs)
    (htoken : SourceLine.tagOfToken token = run.tag) :
    (∀ (ls ls₁ left : List SourceLine) (c c₁ d : Context) (es before : List Element),
      readBlock (expander n) depth ls c = .ok (es, left) d →
      Comes (expander n) depth ls c before ls₁ c₁ →
      skipSilent ls₁ = itemsLines items ++ rest → items ≠ [] →
      (∀ unit, unit = c₁.indentation ∨ unit = d.indentation →
        (∀ i ∈ items, i.Belongs unit token depth) ∧ RunEnds unit token depth rest) →
      ∃ children after blanks mid,
        GivesAll (expander n) depth run.inner items c₁ children mid ∧
        children.length = items.length ∧
        es = before ++ (Element.ofTag run.outer [] ∅).withChildren children :: after ∧
        (∀ l ∈ blanks, l.isBlank = true) ∧
        readBlock (expander n) depth (blanks ++ rest) mid = .ok (after, left) d) ∧
    (∀ (l : SourceLine) (m : Line) (ls left : List SourceLine) (c d : Context)
      (es : List Element), l.isBlank = false → l.scan c.indentation = .ok m →
      continues token depth m = true → readLine (expander n) m ls c = .ok (es, left) d →
      ∃ lines children, es = [(Element.ofTag run.outer [] ∅).withChildren children] ∧
        List.Sublist (lines.map (·.1)) ls ∧
        (∀ p ∈ lines, p.2.depth = depth ∧ p.2.kind = .tag ∧ itemToken p.2.content = token) ∧
        List.Forall₂ (ReadFrom (expander n) run.inner) ((l, m) :: lines) children) := by
  constructor
  · intro ls ls₁ left c c₁ d es before hblock hcomes hlines hsome hunits
    obtain ⟨after, rfl, hread⟩ := hcomes.reads (reads_iff.2 hblock)
    obtain ⟨children, more, blanks, mid, hgives, rfl, hblanks, hmore⟩ :=
      reads_run hrun htoken hread hlines hsome hunits
    exact ⟨children, more, blanks, mid, hgives, hgives.length_eq, rfl, hblanks,
      reads_iff.1 hmore⟩
  · intro l m ls left c d es hsolid hscan hgoes hline
    obtain ⟨lines, children, hes, hcollects⟩ :=
      collects_of_readLine hrun hsolid hscan hgoes htoken hline
    obtain ⟨hsublist, hall, hread⟩ := hcollects.lines
    refine ⟨lines, children, hes, hsublist.of_cons_cons, fun p hp => ?_, hread⟩
    exact continues_iff.1 (hall p (List.mem_cons_of_mem _ hp))

/-- A comment, a list of two items with a line below the first one and a blank line between them,
and another list. -/
def twoLists : Text := "> lists\n.uli one\n\tmore\n\n.uli(wide) two\n.oli three".toList

/-- The items of the first list. -/
def firstList : List Item :=
  [⟨⟨1, ".uli one".toList⟩, [⟨2, "\tmore".toList⟩, ⟨3, []⟩]⟩, ⟨⟨4, ".uli(wide) two".toList⟩, []⟩]

theorem readBlock_run_twoLists :
    (∃ children after blanks mid d left, children.length = 2 ∧
      GivesAll (expander 0) 0 "li".toList firstList .start children mid ∧
      readBlock (expander 0) 0 (SourceLine.ofSource twoLists) .start =
        .ok ((Element.ofTag "ul".toList [] ∅).withChildren children :: after, left) d ∧
      readBlock (expander 0) 0 (blanks ++ [⟨5, ".oli three".toList⟩, ⟨6, []⟩]) mid =
        .ok (after, left) d) ∧
    ∃ lines children, (∀ p ∈ lines, itemToken p.2.content = ".uli".toList) ∧
      List.Forall₂ (ReadFrom (expander 0) "li".toList)
        ((⟨1, ".uli one".toList⟩, ⟨1, 0, 0, ".uli one".toList⟩) :: lines) children := by
  obtain ⟨hblocks, hlines⟩ := @readBlock_run ".uli".toList 0 firstList
    [⟨5, ".oli three".toList⟩, ⟨6, []⟩] ⟨"uli".toList, "ul".toList, "li".toList⟩ 0
    (by decide) (by decide)
  constructor
  · obtain ⟨last, hrun⟩ := CompileM.exists_of_run' (by decide +kernel :
      (readBlock (expander 0) 0 (SourceLine.ofSource twoLists) >>= fun _ =>
        get >>= fun c => pure c.indentation).run' .start = some .tabs)
    obtain ⟨⟨es, left⟩, d, hblock, hend⟩ := CompileM.exists_of_bind_ok hrun
    have hunit : d.indentation = .tabs := (EStateM.Result.ok.inj hend).1
    obtain ⟨children, after, blanks, mid, hgives, hlength, hes, -, hbehind⟩ :=
      hblocks _ (SourceLine.ofSource twoLists) left .start .start d es [] hblock .here
        (by decide) (by decide) (by
          intro unit hunits
          have htabs : unit = .tabs := hunits.elim id fun hd => hd.trans hunit
          subst htabs
          decide +kernel)
    rw [hes] at hblock
    exact ⟨children, after, blanks, mid, d, left, hlength, hgives, hblock, hbehind⟩
  · obtain ⟨last, hrun⟩ := CompileM.exists_of_run' (by decide +kernel :
      (readLine (expander 0) ⟨1, 0, 0, ".uli one".toList⟩
        ((SourceLine.ofSource twoLists).drop 2) >>= fun _ => pure ()).run' .start = some ())
    obtain ⟨⟨es, left⟩, d, hline, -⟩ := CompileM.exists_of_bind_ok hrun
    obtain ⟨lines, children, -, -, hall, hread⟩ :=
      hlines ⟨1, ".uli one".toList⟩ _ _ left .start d es (by decide) (by decide) (by decide) hline
    exact ⟨lines, children, fun p hp => (hall p hp).2.2, hread⟩

end IndentMarkup.Block
