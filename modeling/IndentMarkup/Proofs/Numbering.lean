import IndentMarkup.Proofs.Invariant

/-!
The numbers of sections and tabs.

One counter gives numbers to the sections and tabs of a document and of all files that it
includes, while tabs are closed by later lines and the tabs of a file come in between. The
numbers come out in the order of the document all the same, and none is left out.

* `Draws` — an action appends the numbers that it draws, in order.
* `draws_readTopLine`, `draws_readSource`, `draws_readAll` — the readers of sources do.
* `ids_compile` — a document has the numbers from zero up to those drawn.
-/

namespace IndentMarkup

/-- The numbers of a tab and of its sections, in order. -/
def Tab.ids (t : Tab) : List Nat := t.id :: t.sections.map (·.id)

/-- The numbers of tabs and of their sections, in order. -/
def tabsIds (tabs : List Tab) : List Nat := tabs.flatMap Tab.ids

/-- The numbers in what has been gathered, as they will stand in the document. -/
def Outline.ids (o : Outline) : List Nat := tabsIds o.finish

/-- The numbers of the tabs and sections of a document, in order. -/
def Document.ids (d : Document) : List Nat := tabsIds d.tabs

/-! ### Outlines -/

/-- Tabs one behind the other have their numbers one behind the other. -/
theorem tabsIds_append (tabs more : List Tab) :
    tabsIds (tabs ++ more) = tabsIds tabs ++ tabsIds more :=
  List.flatMap_append

/-- The open section comes behind the sections of its tab that are closed. -/
theorem OpenTab.ids_close (t : OpenTab) :
    t.close.ids = t.tab.ids ++ t.current.toList.map (·.id) := by
  simp [close, Tab.ids]

namespace Outline

/-- Without an open tab the numbers are those of the closed ones. -/
theorem ids_none (closed : List Tab) : ids ⟨closed, none⟩ = tabsIds closed := rfl

/-- The open tab comes behind the closed ones. -/
theorem ids_some (closed : List Tab) (t : OpenTab) :
    ids ⟨closed, some t⟩ = tabsIds closed ++ t.close.ids := by
  simp [ids, finish, closeTab, tabsIds]

/-- Tabs that are spliced in come behind all others. -/
theorem ids_splice (o : Outline) (tabs : List Tab) :
    (o.splice tabs).ids = o.ids ++ tabsIds tabs :=
  tabsIds_append _ _

/-- Elements have no numbers. -/
theorem ids_push? {o o' : Outline} {elements : List Element} (h : o.push? elements = some o') :
    o'.ids = o.ids := by
  unfold push? at h
  split at h
  · next tab s hcurrent =>
      cases h
      obtain ⟨closed, current⟩ := o
      dsimp only at hcurrent
      subst hcurrent
      simp [ids_some, OpenTab.ids_close]
  · cases h

/-- Opening a section appends the numbers that it takes. -/
theorem ids_openSection (o : Outline) (id : Nat) (heading : Heading) (hasTitle : Bool) :
    ∃ n, (o.openSection id heading hasTitle).2 = id + n ∧
      (o.openSection id heading hasTitle).1.ids = o.ids ++ List.range' id n := by
  obtain ⟨closed, current⟩ := o
  cases current with
  -- without an open tab the section takes a number for a new tab and one for itself
  | none =>
      refine ⟨2, rfl, ?_⟩
      simp [openSection, ids_none, ids_some, OpenTab.close, Tab.ids, List.range']
  | some t =>
      refine ⟨1, rfl, ?_⟩
      simp only [openSection, ids_some, OpenTab.ids_close, List.append_assoc]
      simp [List.range']

/-- Opening a tab appends the number that it takes. -/
theorem ids_openTab (o : Outline) (id : Nat) (heading : Heading) :
    (o.openTab id heading).1.ids = o.ids ++ List.range' id 1 := by
  rw [openTab, ids_some, OpenTab.ids_close]
  simp [ids, finish, Tab.ids]

end Outline

/-! ### Drawing numbers -/

/-- Whatever the action gives has the numbers from before and, behind them and in order,
those that the action drew. -/
def Draws {α : Type} (before : List Nat) (ids : α → List Nat) (x : CompileM α) : Prop :=
  ∀ ctx a after, x ctx = .ok a after →
    ∃ n, after.nextId = ctx.nextId + n ∧ ids a = before ++ List.range' ctx.nextId n

namespace Draws

variable {α β : Type} {before : List Nat} {p : α → List Nat} {q : β → List Nat}

/-- What gives the numbers from before has drawn none. -/
theorem pure {a : α} (h : p a = before) : Draws before p (Pure.pure a) := by
  intro ctx a' after hrun
  cases hrun
  exact ⟨0, rfl, by simp [h]⟩

/-- An action that fails gives nothing and so draws nothing. -/
theorem failAt (cause : Cause) (line : Nat) (column : Option Nat) :
    Draws before p (CompileM.failAt cause line column) := by
  intro ctx a after hrun
  cases hrun

/-- What the second action draws comes behind what the first one drew. -/
theorem bind {x : CompileM α} {f : α → CompileM β} (hx : Draws before p x)
    (hf : ∀ a, Draws (p a) q (f a)) : Draws before q (x >>= f) := by
  intro ctx b after hrun
  rw [CompileM.bind_run] at hrun
  cases hrun₁ : x ctx with
  | error s middle => simp [hrun₁] at hrun
  | ok a middle =>
      rw [hrun₁] at hrun
      obtain ⟨n, hnext, hids⟩ := hx ctx a middle hrun₁
      obtain ⟨n', hnext', hids'⟩ := hf a middle b after hrun
      refine ⟨n + n', by omega, ?_⟩
      rw [hids', hids, hnext, List.append_assoc, List.range'_append_1]

/-- Numbers that stand before those of an action stay in front of them. -/
theorem append {x : CompileM α} (hx : Draws [] p x) (before : List Nat) :
    Draws before (fun a => before ++ p a) x := by
  intro ctx a after hrun
  obtain ⟨n, hnext, hids⟩ := hx ctx a after hrun
  exact ⟨n, hnext, congrArg (before ++ ·) hids⟩

/-- A file that is open while numbers are drawn makes no difference. -/
theorem whileOpen {x : CompileM α} (hx : Draws before p x) (file : Location) :
    Draws before p (Document.whileOpen file x) := by
  intro ctx a after hrun
  unfold Document.whileOpen at hrun
  split at hrun
  · next a' after' hrun' =>
      cases hrun
      exact hx (ctx.openFile file) a after' hrun'
  · cases hrun

end Draws

/-! ### Elements draw no numbers -/

/-- The counter stands at a number. -/
def Invariant.counter (n : Nat) : Invariant :=
  rigid (·.nextId = n) (fun _ => True) (fun _ _ _ _ hc => hc) fun _ _ _ _ _ => trivial

/-- An action that leaves the counter alone draws nothing. -/
theorem draws_of_keeps {α : Type} {x : CompileM α} {post : α → Prop}
    (h : ∀ n, (Invariant.counter n).Keeps post x) (before : List Nat) :
    Draws before (fun _ => before) x := by
  intro ctx a after hrun
  have hkeeps := h ctx.nextId ctx rfl
  rw [hrun] at hkeeps
  exact ⟨0, hkeeps.2, by simp⟩

/-- Expansions draw no numbers, as their lines open neither sections nor tabs. -/
theorem counter_expands_expander (depth n : Nat) :
    (Invariant.counter n).Expands (expander depth) := by
  -- on the number of expansions, since a body is read with one less
  induction depth with
  | zero => exact fun name values line _ c hc => trivial
  | succ depth ih =>
      intro name values line hline
      exact Invariant.keeps_expandWith ⟨fun hc _ => hc, id, fun _ _ => trivial, fun _ => trivial⟩
        ih values hline

/-! ### Sources draw their numbers in order -/

section Sources

variable {e : Expander} (he : ∀ n, (Invariant.counter n).Expands e)
include he

/-- The name of a section or tab draws no number. -/
theorem draws_heading (m : Line) (marker : Nat) (before : List Nat) :
    Draws before (fun _ => before) (Heading.read e m marker) :=
  draws_of_keeps (fun n => Invariant.keeps_heading (he n) trivial marker) before

/-- A line with elements draws no number. -/
theorem draws_readLine (m : Line) (ls : List SourceLine) (before : List Nat) :
    Draws before (fun _ => before) (Block.readLine e m ls) :=
  draws_of_keeps (fun n => Invariant.keeps_readLine (he n) trivial fun _ _ => trivial) before

/-- Elements that are added to the open section leave the numbers as they are. -/
theorem draws_readElements (o : Outline) (m : Line) (ls : List SourceLine) :
    Draws o.ids (fun r => r.1.ids) (Document.readElements e o m ls) := by
  unfold Document.readElements
  refine Draws.bind (draws_readLine he m ls o.ids) ?_
  intro result
  dsimp only
  split
  · exact .pure rfl
  · cases hpush : o.push? result.1 with
    | none => exact .failAt _ _ _
    | some o' => exact .pure (Outline.ids_push? hpush)

/-- A line at the top draws the numbers of what it opens or includes. -/
theorem draws_readTopLine {x : Line → CompileM (List Tab)}
    (hx : ∀ m, Draws [] tabsIds (x m)) (o : Outline) (m : Line) (ls : List SourceLine) :
    Draws o.ids (fun r => r.1.ids) (Document.readLine e x o m ls) := by
  unfold Document.readLine
  split
  · exact .failAt _ _ _
  cases m.kind with
  | sectionStart =>
      -- the heading first, which draws nothing, and then the section that is opened
      refine .bind (draws_heading he m _ o.ids) fun heading =>
        .bind (p := Outline.ids) ?_ fun o' => .pure rfl
      intro ctx o' after hrun
      cases hrun
      exact Outline.ids_openSection o ctx.nextId heading _
  | tabStart =>
      refine .bind (draws_heading he m _ o.ids) fun heading =>
        .bind (p := Outline.ids) ?_ fun o' => .pure rfl
      intro ctx o' after hrun
      cases hrun
      exact ⟨1, rfl, Outline.ids_openTab o ctx.nextId heading⟩
  | directive =>
      refine .bind (p := fun _ => o.ids) ?_ fun _ => .pure rfl
      intro ctx _ after hrun
      unfold CompileM.change at hrun
      split at hrun
      · next after' hread =>
          obtain ⟨-, metadata, indentation, rfl⟩ := Context.readDirective_ok hread
          cases hrun
          exact ⟨0, rfl, by simp⟩
      · cases hrun
  | inclusion =>
      -- the file numbers its own tabs, and these come behind those that have been gathered
      exact .bind ((hx m).append o.ids) fun tabs => .pure (Outline.ids_splice o tabs)
  | _ => exact draws_readElements he o m ls

/-- Lines one after the other draw their numbers one after the other. -/
theorem draws_readTop {x : Line → CompileM (List Tab)} (hx : ∀ m, Draws [] tabsIds (x m))
    (most : Nat) (o : Outline) (ls : List SourceLine) :
    Draws o.ids Outline.ids (Document.readWithin e x most o ls) := by
  -- on the bound for lines; each line starts from the outline that the line before has left
  induction most generalizing o ls with
  | zero => exact .pure rfl
  | succ most ih =>
      rw [Document.readWithin]
      apply Draws.bind (draws_of_keeps (fun n => Invariant.keeps_next fun _ _ => trivial) o.ids)
      intro found
      cases found with
      | none => exact .pure rfl
      | some found =>
          exact .bind (draws_readTopLine he hx o found.1 found.2) fun r => ih r.1 r.2

/-- The numbers of a source stand in its tabs. -/
theorem draws_readSource {x : Line → CompileM (List Tab)} (hx : ∀ m, Draws [] tabsIds (x m))
    (source : Text) : Draws [] tabsIds (Document.readSource e x source) :=
  .bind (draws_readTop he hx _ ∅ _) fun _ => .pure rfl

omit he in
/-- An inclusion draws the numbers of the included source. -/
theorem draws_readInclusion (loader : Loader) {x : Text → Text → CompileM (List Tab)}
    (hx : ∀ base source, Draws [] tabsIds (x base source)) (base : Text) (m : Line) :
    Draws [] tabsIds (Document.readInclusion loader x base m) := by
  unfold Document.readInclusion
  dsimp only
  split
  · exact .failAt _ _ _
  split
  · exact .failAt _ _ _
  split
  · exact .failAt _ _ _
  · next file _ =>
      intro ctx tabs after hrun
      rw [CompileM.get_bind_run] at hrun
      -- only a file that is not open and can be loaded is read, and then its source draws
      by_cases hopen : file ∈ ctx.openFiles
      · simp only [if_pos hopen] at hrun
        cases hrun
      · simp only [if_neg hopen] at hrun
        cases hload : loader.load file with
        | error err =>
            rw [hload] at hrun
            cases hrun
        | ok source =>
            rw [hload] at hrun
            exact (hx _ source).whileOpen file ctx tabs after hrun

/-- A source and the files that it includes draw the numbers of their tabs in order. -/
theorem draws_readAll (loader : Loader) (base source : Text) :
    Draws [] tabsIds (Document.readAll loader e base source) := by
  -- on the depth of inclusions
  have nested (nesting : Nat) : ∀ base source,
      Draws [] tabsIds (Document.readNested loader e nesting base source) := by
    induction nesting with
    | zero =>
        intro base source ctx tabs after hrun
        cases hrun
    | succ nesting ih =>
        intro base source
        exact draws_readSource he (draws_readInclusion loader ih base) source
  exact nested _ base source

end Sources

/-! ### Documents -/

/-- A document that comes from such a run has all numbers up to the next free one. -/
theorem ids_of_run {x : CompileM (List Tab)} (hx : Draws [] tabsIds x) {d : Document}
    (h : Document.ofRun x .start = .ok d) :
    ∃ after, x .start = .ok d.tabs after ∧ d.ids = List.range after.nextId := by
  unfold Document.ofRun at h
  split at h
  · next tabs after hrun =>
      cases h
      obtain ⟨n, hnext, hids⟩ := hx _ _ _ hrun
      have hcount : after.nextId = n := hnext.trans (Nat.zero_add n)
      refine ⟨after, hrun, ?_⟩
      rw [Document.ids, hids, hcount, List.range_eq_range']
      rfl
  · cases h

/-- The tabs and sections of a compiled document, each tab in front of its sections, have
the numbers from zero up to the number that the compile would give next: all of those that
were given, in order. -/
theorem ids_compile (loader : Loader) (depth : Nat) (d : Document) :
    (∀ source, Document.compileText loader depth source = .ok d →
      ∃ after, Document.readAll loader (expander depth) ['.'] source .start = .ok d.tabs after ∧
        d.ids = List.range after.nextId) ∧
    (∀ path, Document.compileFile loader depth path = .ok d →
      ∃ file source after, loader.resolve path = .ok file ∧ loader.load file = .ok source ∧
        Document.whileOpen file
          (Document.readAll loader (expander depth) file.parent.text source) .start
            = .ok d.tabs after ∧
        d.ids = List.range after.nextId) := by
  have hdraws := draws_readAll (counter_expands_expander depth) loader
  constructor
  · intro source h
    exact ids_of_run (hdraws _ source) h
  · intro path h
    unfold Document.compileFile Document.compileFileWith at h
    split at h
    · cases h
    · next file hresolve =>
        split at h
        · cases h
        · next source hload =>
            obtain ⟨after, hrun, hids⟩ := ids_of_run ((hdraws _ source).whileOpen file) h
            exact ⟨file, source, after, hresolve, hload, hrun, hids⟩

/-- A root with an inclusion between its sections, and the file that it includes. -/
def includingLibrary : Library :=
  Library.ofList [("r.smsh".toList, "# a\n! b\n@ c\n# d".toList),
    ("b.smsh".toList, "# e\n@ f".toList)]

theorem ids_compile_inclusion :
    (∃ (d : Document) (after : Context),
      Document.compileText includingLibrary.loader 1 "! r".toList = .ok d ∧
      Document.readAll includingLibrary.loader (expander 1) ['.'] "! r".toList .start
        = .ok d.tabs after ∧
      d.ids = List.range after.nextId ∧ d.ids = List.range 7) ∧
    (∃ (d : Document) (after : Context),
      Document.compileFile includingLibrary.loader 1 "r.smsh".toList = .ok d ∧
      d.ids = List.range after.nextId ∧ d.ids = List.range 7) := by
  constructor
  · obtain ⟨d, hd, hseven⟩ : ∃ d, Document.compileText includingLibrary.loader 1 "! r".toList
        = .ok d ∧ d.ids = List.range 7 := by
      decide +kernel
    obtain ⟨after, hrun, hids⟩ := (ids_compile _ 1 d).1 _ hd
    exact ⟨d, after, hd, hrun, hids, hseven⟩
  · obtain ⟨d, hd, hseven⟩ : ∃ d, Document.compileFile includingLibrary.loader 1
        "r.smsh".toList = .ok d ∧ d.ids = List.range 7 := by
      decide +kernel
    obtain ⟨_, _, after, -, -, -, hids⟩ := (ids_compile _ 1 d).2 _ hd
    exact ⟨d, after, hd, hids, hseven⟩

end IndentMarkup
