import IndentMarkup.Proofs.Boundary
import IndentMarkup.Proofs.Effects
import IndentMarkup.Proofs.Linewise

/-!
More sections at the end of a source.

Lines below a source that start with a section, a tab or an inclusion leave what the source
gives as it is: an error stays the same error, and the tabs stay the same tabs, but that the
last one can get more sections.

* `Tab.Extends` — tabs that go on where others end.
* `Outline.settled` — what no line can change any more in what has been gathered.
* `extends_readLine`, `extends_readTop` — a line, and all lines, only add to it.
* `compileText_append` — a source and the source with more lines.
-/

namespace IndentMarkup

/-! ### Tabs that go on -/

/-- The tabs `ts'` go on where `ts` end: all tabs but the last are the same, and the last
one has the same number and heading and can have more sections behind its own. -/
def Tab.Extends (ts ts' : List Tab) : Prop :=
  ts = [] ∨ ∃ before last last' after, ts = before ++ [last] ∧ ts' = before ++ last' :: after ∧
    last'.id = last.id ∧ last'.heading = last.heading ∧ last.sections <+: last'.sections

namespace Tab.Extends

/-- Tabs that are the same up to one that gets more sections, and then go on, extend those up to
it. -/
theorem last (before : List Tab) {t t' : Tab} (after : List Tab) (hid : t'.id = t.id)
    (hheading : t'.heading = t.heading) (hsections : t.sections <+: t'.sections) :
    Extends (before ++ [t]) (before ++ t' :: after) :=
  .inr ⟨before, t, t', after, rfl, rfl, hid, hheading, hsections⟩

theorem append (ts more : List Tab) : Extends ts (ts ++ more) := by
  rcases List.eq_nil_or_concat ts with rfl | ⟨before, t, rfl⟩
  · exact .inl rfl
  · rw [List.concat_eq_append, List.append_assoc]
    exact last before more rfl rfl List.prefix_rfl

theorem refl (ts : List Tab) : Extends ts ts := by
  simpa using append ts []

theorem trans {ts ts' ts'' : List Tab} (h : Extends ts ts') (h' : Extends ts' ts'') :
    Extends ts ts'' := by
  rcases h with rfl | ⟨before, t, t', after, rfl, rfl, hid, hheading, hsections⟩
  · exact .inl rfl
  rcases h' with hnil | ⟨before', u, u', after', heq, rfl, hid', hheading', hsections'⟩
  · simp at hnil
  -- The last tab of the first list is the last one of the second, or it is settled there.
  rcases List.eq_nil_or_concat after with rfl | ⟨between, v, rfl⟩
  · obtain ⟨rfl, hu⟩ := List.append_inj' heq rfl
    obtain rfl : t' = u := by simpa using hu
    exact last before after' (hid'.trans hid) (hheading'.trans hheading)
      (hsections.trans hsections')
  · have heq' : (before ++ t' :: between) ++ [v] = before' ++ [u] := by simpa using heq
    obtain ⟨rfl, -⟩ := List.append_inj' heq' rfl
    rw [List.append_assoc, List.cons_append]
    exact last before _ hid hheading hsections

end Tab.Extends

/-! ### What is settled -/

namespace Outline

/-- What no line can change any more: the closed tabs, and of the open one all but the
section that is open. -/
def settled (o : Outline) : List Tab := o.closed ++ (o.current.map (·.tab)).toList

/-- Closing the tab that is open only adds the section that is open. -/
theorem extends_finish (o : Outline) : Tab.Extends o.settled o.finish := by
  obtain ⟨closed, current⟩ := o
  cases current with
  | none => simpa [settled, finish, closeTab] using Tab.Extends.refl closed
  | some t => exact .last closed [] rfl rfl (List.prefix_append _ _)

/-- A section settles what stands in front of it: the open tab stays open with its sections. -/
theorem finish_openSection (o : Outline) (id : Nat) (heading : Heading) (hasTitle : Bool) :
    Tab.Extends o.finish (o.openSection id heading hasTitle).1.settled := by
  obtain ⟨closed, current⟩ := o
  cases current with
  | none => exact .append closed _
  | some t => exact .refl _

theorem finish_openTab (o : Outline) (id : Nat) (heading : Heading) :
    Tab.Extends o.finish (o.openTab id heading).1.settled :=
  .append _ _

/-- An inclusion settles what stands in front of it. -/
theorem finish_splice (o : Outline) (tabs : List Tab) :
    Tab.Extends o.finish (o.splice tabs).settled := by
  rw [settled, splice, Option.map_none, Option.toList_none, List.append_nil]
  exact .append _ _

/-- Elements go into the section that is open, so they settle nothing. -/
theorem settled_push? {o o' : Outline} {elements : List Element}
    (h : o.push? elements = some o') : o'.settled = o.settled := by
  unfold push? at h
  split at h
  · next tab s hcurrent =>
      cases h
      simp [settled, hcurrent]
  · cases h

end Outline

/-! ### Reading only adds -/

section Reading

variable {e : Expander} {x : Line → CompileM (List Tab)}

/-- A line adds to what is settled. If it is the line of a section, a tab or an inclusion,
all that stands in front of it is settled. -/
theorem extends_readLine (o : Outline) (l : Line) (ls : List SourceLine) :
    Yields (fun r => Tab.Extends o.settled r.1.settled ∧
        (l.kind.isBoundary = true → Tab.Extends o.finish r.1.settled))
      (Document.readLine e x o l ls) := by
  -- a line that opens something settles all in front of it, any other one leaves what is settled
  have opens {o' : Outline} {boundary : Prop} (h : Tab.Extends o.finish o'.settled) :
      Tab.Extends o.settled o'.settled ∧ (boundary → Tab.Extends o.finish o'.settled) :=
    ⟨o.extends_finish.trans h, fun _ => h⟩
  have stays {o' : Outline} {boundary : Prop} (h : o'.settled = o.settled) (hno : ¬ boundary) :
      Tab.Extends o.settled o'.settled ∧ (boundary → Tab.Extends o.finish o'.settled) :=
    ⟨h ▸ .refl _, fun hb => absurd hb hno⟩
  unfold Document.readLine
  split
  · exact .failAt _ _ _
  · cases l.kind with
    | sectionStart =>
        refine .bind_any fun heading => .bind ?_ fun o' h => .pure (opens h)
        rintro c _ after ⟨⟩
        exact o.finish_openSection _ _ _
    | tabStart =>
        refine .bind_any fun heading => .bind ?_ fun o' h => .pure (opens h)
        rintro c _ after ⟨⟩
        exact o.finish_openTab _ _
    | inclusion => exact .bind_any fun tabs => .pure (opens (o.finish_splice tabs))
    | directive => exact .bind_any fun _ => .pure (stays rfl nofun)
    | _ =>
        refine .bind_any fun r => ?_
        dsimp only
        split
        · exact .pure (stays rfl nofun)
        · split
          · next hpush => exact .pure (stays (Outline.settled_push? hpush) nofun)
          · exact .failAt _ _ _

/-- Lines at the top level only add to what is settled. -/
theorem extends_readTop (o : Outline) (ls : List SourceLine) :
    Yields (fun o' => Tab.Extends o.settled o'.settled) (Document.readTop e x o ls) := by
  -- on the number of lines, since a line can read more lines than its own
  induction hlength : ls.length using Nat.strongRecOn generalizing o ls with
  | ind n ih =>
      have hskip : skipSilent ls <:+ ls := List.dropWhile_suffix _
      rw [Document.readTop_eq]
      generalize skipSilent ls = found at hskip
      cases found with
      | nil => exact .pure (.refl _)
      | cons head rest =>
          refine .bind_any fun l => ?_
          intro c o' after hrun
          rw [CompileM.bind_run] at hrun
          cases hread : Document.readLine e x o l rest c with
          | error s middle => simp [hread] at hrun
          | ok r middle =>
              rw [hread] at hrun
              have hlt : r.2.length < n := by
                have hle := (Document.suffix_of_readLine hread).length_le
                have hlt := hskip.length_le
                rw [List.length_cons] at hlt
                omega
              obtain ⟨hline, -⟩ := extends_readLine o l rest c r middle hread
              exact hline.trans (ih _ hlt r.1 r.2 rfl middle o' after hrun)

/-- Lines that start with a section, a tab or an inclusion settle all that stands in front
of them. -/
theorem finish_readTop (o : Outline) {head : SourceLine} (hhead : head.IsBoundary)
    (ls : List SourceLine) :
    Yields (fun o' => Tab.Extends o.finish o'.settled)
      (Document.readTop e x o (head :: ls)) := by
  obtain ⟨hsilent, -, hscan⟩ := Coupling.scan_boundary hhead
  rw [Document.readTop_cons hsilent]
  intro c o' after hrun
  obtain ⟨l, hl, -, hkind⟩ := hscan c.indentation
  have hmeasured : CompileM.scan head c = .ok l c := by rw [CompileM.scan, hl]
  rw [CompileM.bind_run_ok hmeasured, CompileM.bind_run] at hrun
  cases hread : Document.readLine e x o l ls c with
  | error s middle => simp [hread] at hrun
  | ok r middle =>
      rw [hread] at hrun
      obtain ⟨-, hline⟩ := extends_readLine o l ls c r middle hread
      exact (hline hkind).trans (extends_readTop r.1 r.2 middle o' after hrun)

end Reading

/-! ### Appending -/

/-- The source's first line is of a section, a tab or an inclusion. -/
def OpensAtMargin (source : Text) : Prop :=
  ∃ head ∈ (SourceLine.ofSource source).head?, head.IsBoundary

theorem OpensAtMargin.numberFrom {source : Text} (h : OpensAtMargin source) (n : Nat) :
    ∃ head rest, SourceLine.numberFrom n (SourceLine.textsOf source) = head :: rest ∧
      head.IsBoundary := by
  obtain ⟨head, hhead, hboundary⟩ := h
  unfold SourceLine.ofSource at hhead
  cases hts : SourceLine.textsOf source with
  | nil =>
      rw [hts] at hhead
      cases hhead
  | cons t ts =>
      rw [hts] at hhead
      cases hhead
      exact ⟨⟨n, t⟩, SourceLine.numberFrom (n + 1) ts, rfl, hboundary⟩

/-- The lines of a source with more below it: its own but for the empty one at its end, and
those below, numbered on. -/
theorem ofSource_append (source more : Text) :
    ∃ ls, SourceLine.ofSource source = ls ++ [⟨ls.length, []⟩] ∧
      SourceLine.ofSource (source ++ '\n' :: more)
        = ls ++ SourceLine.numberFrom ls.length (SourceLine.textsOf more) := by
  refine ⟨SourceLine.numberFrom 0 ((Text.splitLines source).map (List.filter (· ≠ '\r'))), ?_, ?_⟩
  · rw [SourceLine.length_numberFrom, SourceLine.ofSource, SourceLine.textsOf_eq,
      SourceLine.numberFrom_append, Nat.zero_add]
    rfl
  · rw [SourceLine.length_numberFrom, SourceLine.ofSource, SourceLine.textsOf_eq,
      Text.splitLines_append, List.map_append, List.append_assoc, ← SourceLine.textsOf_eq,
      SourceLine.numberFrom_append, Nat.zero_add]

/-- A source that does not compile gives the same error with more lines that start with a
section, a tab or an inclusion. If both compile, the tabs with these lines go on where those
without them end. -/
theorem compileText_append (loader : Loader) (depth : Nat) (source : Text) {more : Text}
    (hmore : OpensAtMargin more) :
    (∀ s, Document.compileText loader depth source = .error s →
      Document.compileText loader depth (source ++ '\n' :: more) = .error s) ∧
    ∀ d d', Document.compileText loader depth source = .ok d →
      Document.compileText loader depth (source ++ '\n' :: more) = .ok d' →
      Tab.Extends d.tabs d'.tabs := by
  obtain ⟨ls, hsource, happended⟩ := ofSource_append source more
  -- both sources are read to the end of the lines they share, and differ from there on
  obtain ⟨head, rest, hbelow, hhead⟩ := hmore.numberFrom ls.length
  have hsilent : skipSilent [⟨ls.length, []⟩] = [] := rfl
  have hread (source : Text) : Document.readAll loader (expander depth) ['.'] source
      = Document.readTop (expander depth) (Document.readInclusion loader (Document.readNested loader
          (expander depth) loader.locations.length) ['.']) ∅ (SourceLine.ofSource source)
        >>= fun o => pure o.finish := rfl
  unfold Document.compileText Document.compileTextWith Document.ofRun
  rw [hread, hread, hsource, happended, hbelow, Document.readTop_append (.inl rfl),
    Document.readTop_append (hhead.closes rest)]
  simp only [Document.readTop_of_silent hsilent, bind_pure, CompileM.bind_run]
  generalize Document.readTop (expander depth) _ ∅ ls .start = r
  cases r with
  -- an error stands in the shared lines, so the lines below are not reached
  | error s after => simp
  | ok o after =>
      simp only [CompileM.pure_run]
      constructor
      · intro s h
        cases h
      · intro d d' h h'
        -- what is closed at the end without the lines below is what they settle
        cases h
        generalize hrest : Document.readTop (expander depth) _ o (head :: rest) after = r' at h'
        cases r' with
        | error s last => cases h'
        | ok o' last =>
            cases h'
            exact (finish_readTop o hhead rest after o' last hrest).trans o'.extends_finish

/-- Lines that start with a section, and with a tab behind it. -/
def moreSections : Text := "# c\n~b\n@ d\n# e".toList

theorem compileText_append_moreSections :
    OpensAtMargin moreSections ∧
      (∃ s, Document.compileText (∅ : Library).loader 1 "# a\n.img".toList = .error s ∧
        Document.compileText (∅ : Library).loader 1
          ("# a\n.img".toList ++ '\n' :: moreSections) = .error s) ∧
      ∃ d d', Document.compileText (∅ : Library).loader 1 "# a\n~+b\n\t.p x".toList = .ok d ∧
        Document.compileText (∅ : Library).loader 1
          ("# a\n~+b\n\t.p x".toList ++ '\n' :: moreSections) = .ok d' ∧
        Tab.Extends d.tabs d'.tabs := by
  have hmore : OpensAtMargin moreSections := ⟨⟨0, "# c".toList⟩, by decide, .inl rfl⟩
  refine ⟨hmore, ?_, ?_⟩
  · obtain ⟨s, hs, -⟩ : ∃ s, Document.compileText (∅ : Library).loader 1 "# a\n.img".toList
        = .error s ∧ s ≠ .exhausted := by
      decide +kernel
    exact ⟨s, hs, (compileText_append _ 1 _ hmore).1 s hs⟩
  · obtain ⟨d, hd, -⟩ : ∃ d, Document.compileText (∅ : Library).loader 1
        "# a\n~+b\n\t.p x".toList = .ok d ∧ d.tabs.length = 1 := by
      decide +kernel
    obtain ⟨d', hd', -⟩ : ∃ d', Document.compileText (∅ : Library).loader 1
        ("# a\n~+b\n\t.p x".toList ++ '\n' :: moreSections) = .ok d' ∧ d'.tabs.length = 2 := by
      decide +kernel
    exact ⟨d, d', hd, hd', (compileText_append _ 1 _ hmore).2 d d' hd hd'⟩

end IndentMarkup
