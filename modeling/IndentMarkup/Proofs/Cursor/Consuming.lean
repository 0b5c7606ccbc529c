import IndentMarkup.Proofs.Runs
import IndentMarkup.Proofs.Skipping

/-!
What readers consume.

Readers of elements call one another, and each of them takes lines from the front of those that are
left. Here a run is written down with the lines that it has consumed: a block consumes the line of
each of its elements, a run the line of each of its items, a body the lines that are stored. Silent
lines are consumed by nobody; they are passed over. So a run consumes each line that says something
once, in the order of the source.

* `loudLines` — the lines that say something.
* `Block.Task`, `Block.Consumes` — a reader that is asked for something, and the lines that it
  consumes.
* `Block.consumes_iff` — this describes the runs of the readers.
* `Block.Consumes.exists_taken` — of the lines that it takes, each one that says something is
  consumed, once and in order.
-/

namespace IndentMarkup

/-! ### Lines that say something -/

/-- The lines that say something: they are not blank, and their first character that is not blank
is not the marker of a comment. -/
def loudLines (ls : List SourceLine) : List SourceLine := ls.filter fun l => !l.isSilent

section Loud

variable {l : SourceLine} {ls rest : List SourceLine}

@[simp] theorem loudLines_nil : loudLines [] = [] := rfl

@[simp] theorem loudLines_append (ls rest : List SourceLine) :
    loudLines (ls ++ rest) = loudLines ls ++ loudLines rest := List.filter_append ls rest

/-- A line that says something stays. -/
theorem loudLines_cons_of_loud (h : l.isSilent = false) (ls : List SourceLine) :
    loudLines (l :: ls) = l :: loudLines ls := List.filter_cons_of_pos (by simp [h])

/-- What stays says something and was there. -/
theorem mem_loudLines : l ∈ loudLines ls ↔ l ∈ ls ∧ l.isSilent = false := by
  simp [loudLines]

/-- A line that is passed to stands behind lines that say nothing. -/
theorem exists_of_dropWhile {p : SourceLine → Bool} (hp : ∀ l, p l = true → l.isSilent = true)
    (h : ls.dropWhile p = rest) : ∃ passed, ls = passed ++ rest ∧ loudLines passed = [] := by
  refine ⟨ls.takeWhile p, by rw [← h, List.takeWhile_append_dropWhile], ?_⟩
  refine List.filter_eq_nil_iff.2 fun t ht => ?_
  simp [hp t (List.all_eq_true.1 List.all_takeWhile t ht)]

/-- What says something is found behind the silent lines in front. -/
theorem loudLines_of_skipSilent (h : skipSilent ls = rest) : loudLines ls = loudLines rest := by
  obtain ⟨passed, rfl, hpassed⟩ := exists_of_dropWhile (fun _ h => h) h
  rw [loudLines_append, hpassed, List.nil_append]

end Loud

namespace Line

/-- The line stands for an element. -/
def HasElement (m : Line) : Prop := m.kind = .tag ∨ m.kind = .text ∨ m.kind = .escaped

/-- The deeper lines below are taken as they are: a custom class or a template definition. -/
def OpensBody (m : Line) : Prop :=
  m.kind = .customClass ∨ ∃ signature, m.content = '~' :: '+' :: signature

/-- No line stands for an element and owns a body. -/
theorem HasElement.not_opensBody {m : Line} (h : m.HasElement) : ¬ m.OpensBody := by
  rintro (hclass | ⟨signature, hcontent⟩)
  · rcases h with hkind | hkind | hkind
    all_goals
      rw [hkind] at hclass
      cases hclass
  · rcases h with hkind | hkind | hkind
    all_goals
      rw [kind, hcontent] at hkind
      cases hkind

end Line

namespace Block

variable {e : Expander} {m : Line} {ls left : List SourceLine} {es : List Element} {c d : Context}

/-! ### Single lines -/

/-- Such a line is read as a tag with what belongs to it. -/
theorem readLine_of_hasElement (h : m.HasElement) (e : Expander) (ls : List SourceLine) :
    readLine e m ls = readTree e (readBlock e) m ls := by
  unfold readLine readLineWith
  rcases h with hkind | hkind | hkind <;> rw [hkind]

/-- A body that is taken is one that can be taken in the unit of the context. -/
theorem takeDeeper_of_takeBody {depth : Nat} {body : List Text}
    (h : takeBody depth ls c = .ok (body, left) d) :
    takeDeeper c.indentation depth ls = .ok (body, left) := by
  unfold takeBody at h
  split at h
  · next hrun =>
      cases h
      exact hrun
  · cases h

/-- A custom class takes its body and leaves the lines behind it. -/
theorem exists_body_of_readClass (h : readClass m ls c = .ok left d) :
    ∃ body, takeDeeper c.indentation m.depth ls = .ok (body, left) := by
  unfold readClass at h
  dsimp only at h
  split at h
  · cases h
  · obtain ⟨⟨body, behind⟩, mid, hbody, hthen⟩ := CompileM.exists_of_bind_ok h
    obtain ⟨_, last, -, hend⟩ := CompileM.exists_of_bind_ok hthen
    cases hend
    exact ⟨body, takeDeeper_of_takeBody hbody⟩

/-- So does a definition. -/
theorem exists_body_of_readDefinition {signature : Text}
    (h : readDefinition m signature ls c = .ok left d) :
    ∃ body, takeDeeper c.indentation m.depth ls = .ok (body, left) := by
  unfold readDefinition at h
  cases hwords : Text.words signature with
  | nil =>
      rw [hwords] at h
      cases h
  | cons name parameters =>
      rw [hwords] at h
      dsimp only at h
      rw [CompileM.get_bind_run] at h
      obtain ⟨⟨body, behind⟩, mid, hbody, hthen⟩ := CompileM.exists_of_bind_ok h
      obtain ⟨_, last, -, hend⟩ := CompileM.exists_of_bind_ok hthen
      cases hend
      exact ⟨body, takeDeeper_of_takeBody hbody⟩

/-- So does a line that owns a body, whichever of the two it is. -/
theorem exists_body_of_readLine (hbody : m.OpensBody) (h : readLine e m ls c = .ok (es, left) d) :
    ∃ body, takeDeeper c.indentation m.depth ls = .ok (body, left) := by
  unfold readLine readLineWith at h
  rcases hbody with hkind | ⟨signature, hcontent⟩
  · rw [hkind] at h
    obtain ⟨behind, mid, hclass, hend⟩ := CompileM.exists_of_bind_ok h
    cases hend
    exact exists_body_of_readClass hclass
  · have hkind : m.kind = .template := by rw [Line.kind, hcontent]; rfl
    rw [hkind] at h
    dsimp only at h
    unfold readTemplateLine at h
    rw [hcontent] at h
    obtain ⟨behind, mid, hdefinition, hend⟩ := CompileM.exists_of_bind_ok h
    cases hend
    exact exists_body_of_readDefinition hdefinition

/-- All other lines leave the lines below as they are. -/
theorem yields_readLine_left (e : Expander) (helement : ¬ m.HasElement) (hbody : ¬ m.OpensBody)
    (ls : List SourceLine) : Yields (·.2 = ls) (readLine e m ls) := by
  unfold readLine readLineWith
  cases hkind : m.kind with
  | blank | comment | margin => exact .pure rfl
  | sectionStart | tabStart | inclusion => exact .failAt _ _ _
  | directive =>
      exact .look fun c => .ite (fun _ => .bind_any fun _ => .pure rfl) fun _ => .failAt _ _ _
  | customClass => exact absurd (.inl hkind) hbody
  | template =>
      dsimp only
      unfold readTemplateLine
      split
      · next signature hcontent => exact absurd (.inr ⟨signature, hcontent⟩) hbody
      · exact .bind_any fun _ => .pure rfl
      · exact .bind_any fun _ => .pure rfl
  | tag => exact absurd (.inl hkind) helement
  | text => exact absurd (.inr (.inl hkind)) helement
  | escaped => exact absurd (.inr (.inr hkind)) helement

/-- An image leaves the lines below as they are, and none of them is its child. -/
theorem stops_of_readImage {head : TagLine} {el : Element}
    (h : readImage m head ls c = .ok (el, left) d) :
    left = ls ∧ d = c ∧ Stops (m.depth + 1) ls c := by
  unfold readImage at h
  cases hlink : head.attributes.find? "href".toList with
  | none =>
      rw [hlink] at h
      cases h
  | some source =>
      rw [hlink] at h
      dsimp only at h
      rw [next] at h
      -- without a line behind it an image has no child; with one, this is not deeper
      cases hfound : skipSilent ls with
      | nil =>
          rw [hfound] at h
          cases h
          exact ⟨rfl, rfl, .inl hfound⟩
      | cons l rest =>
          rw [hfound] at h
          dsimp only at h
          rw [bind_assoc] at h
          obtain ⟨m', hscan, hthen⟩ := exists_of_scan_bind h
          rw [pure_bind] at hthen
          dsimp only at hthen
          split at hthen
          · cases hthen
          · next hshallow =>
              cases hthen
              exact ⟨rfl, rfl, .inr ⟨l, rest, m', hfound, hscan, by omega⟩⟩

/-! ### Runs of readers -/

/-- What a reader is asked for: the elements at a depth, those of a line, the element of a line
under a tag, or the items of a run behind its first one. -/
inductive Task where
  | block (depth : Nat)
  | line (m : Line)
  | element (m : Line) (head : TagLine) (tag : Text)
  | items (token inner : Text) (depth : Nat)

/-- The reader that is asked comes to these elements, and leaves these lines. -/
def Task.Runs (e : Expander) (ls : List SourceLine) (c : Context) (es : List Element)
    (left : List SourceLine) (d : Context) : Task → Prop
  | block depth => readBlock e depth ls c = .ok (es, left) d
  | line m => readLine e m ls c = .ok (es, left) d
  | element m head tag =>
      ∃ el, es = [el] ∧ readElement e (readBlock e) m head tag ls c = .ok (el, left) d
  | items token inner depth => readRun e token inner depth ls c = .ok (es, left) d

/-- From lines and a context on, a reader gives elements, consumes lines, and leaves lines and a
context. A block consumes the line of each of its elements, and a run the line of each of its
items. The lines of a body are consumed by the line that owns it. -/
inductive Consumes (e : Expander) : Task → List SourceLine → Context → List Element →
    List SourceLine → List SourceLine → Context → Prop where
  | stop {depth : Nat} {ls : List SourceLine} {c : Context} :
      Stops depth ls c → Consumes e (.block depth) ls c [] [] ls c
  | next {depth : Nat} {ls rest own between others left : List SourceLine} {l : SourceLine}
      {m : Line} {c mid d : Context} {es more : List Element} :
      skipSilent ls = l :: rest → l.scan c.indentation = .ok m → m.depth = depth →
      Consumes e (.line m) rest c es own between mid →
      Consumes e (.block depth) between mid more others left d →
      Consumes e (.block depth) ls c (es ++ more) (l :: own ++ others) left d
  | alone {m : Line} {ls : List SourceLine} {c d : Context} {es : List Element} :
      ¬ m.HasElement → ¬ m.OpensBody → readLine e m ls c = .ok (es, ls) d →
      Consumes e (.line m) ls c es [] ls d
  | body {m : Line} {taken left : List SourceLine} {c d : Context} {es : List Element} :
      m.OpensBody → readLine e m (taken ++ left) c = .ok (es, left) d →
      takeDeeper c.indentation m.depth (taken ++ left) = .ok (taken.map (·.text), left) →
      Consumes e (.line m) (taken ++ left) c es (loudLines taken) left d
  | tree {m : Line} {head : TagLine} {ls used left : List SourceLine} {c d : Context}
      {el : Element} :
      m.HasElement → readTag m c = .ok head c → runs.find? (·.tag = head.tag) = none →
      Consumes e (.element m head head.tag) ls c [el] used left d →
      Consumes e (.line m) ls c [el] used left d
  | run {m : Line} {head : TagLine} {run : Run} {ls own between others left : List SourceLine}
      {c mid d : Context} {first : Element} {more : List Element} :
      m.HasElement → readTag m c = .ok head c → runs.find? (·.tag = head.tag) = some run →
      Consumes e (.element m head run.inner) ls c [first] own between mid →
      Consumes e (.items (itemToken m.content) run.inner m.depth) between mid more others left d →
      Consumes e (.line m) ls c [(Element.ofTag run.outer [] ∅).withChildren (first :: more)]
        (own ++ others) left d
  | image {m : Line} {head : TagLine} {ls : List SourceLine} {c : Context} {el : Element} :
      readImage m head ls c = .ok (el, ls) c →
      Consumes e (.element m head "img".toList) ls c [el] [] ls c
  | element {m : Line} {head : TagLine} {tag html : Text} {ls used left : List SourceLine}
      {c mid d : Context} {children : List Element} :
      tag ≠ "img".toList → htmlOf e m head c = .ok html mid →
      Consumes e (.block (m.depth + 1)) ls mid children used left d →
      Consumes e (.element m head tag) ls c
        [(Element.ofTag tag (head.broken html) head.attributes).withChildren children] used left d
  | halt {token inner : Text} {depth : Nat} {ls : List SourceLine} {c : Context} :
      Halts token depth ls c → Consumes e (.items token inner depth) ls c [] [] ls c
  | item {token inner : Text} {depth : Nat} {ls rest own between others left : List SourceLine}
      {l : SourceLine} {m : Line} {head : TagLine} {c mid d : Context} {el : Element}
      {more : List Element} :
      skipBlank ls = l :: rest → l.scan c.indentation = .ok m → continues token depth m = true →
      readTag m c = .ok head c → Consumes e (.element m head inner) rest c [el] own between mid →
      Consumes e (.items token inner depth) between mid more others left d →
      Consumes e (.items token inner depth) ls c (el :: more) (l :: own ++ others) left d

variable {t : Task} {used : List SourceLine}

/-- What is written down is a run of the reader. -/
theorem Consumes.runs (h : Consumes e t ls c es used left d) : t.Runs e ls c es left d := by
  -- along the rules; each of them is a step of one reader, in the order in which the reader goes
  induction h with
  | stop hstops => exact readBlock_of_stops hstops
  | next hfound hscan hdepth _ _ hline hblock =>
      exact reads_iff.1 (.line hfound hscan hdepth hline (reads_iff.2 hblock))
  | alone _ _ hrun => exact hrun
  | body _ hrun _ => exact hrun
  | tree helement htag hnone _ ih =>
      obtain ⟨el, hel, hrun⟩ := ih
      cases hel
      rw [Task.Runs, readLine_of_hasElement helement, readTree, CompileM.bind_run_ok htag]
      simp only [hnone]
      rw [CompileM.bind_run_ok hrun]
      rfl
  | run helement htag hsome _ _ ih hitems =>
      obtain ⟨el, hel, hrun⟩ := ih
      cases hel
      rw [Task.Runs, readLine_of_hasElement helement, readTree, CompileM.bind_run_ok htag]
      simp only [hsome]
      rw [CompileM.bind_run_ok hrun]
      rw [Task.Runs, readRun] at hitems
      rw [CompileM.bind_run_ok hitems]
      rfl
  | image hrun => exact ⟨_, rfl, by rw [readElement, if_pos rfl, hrun]⟩
  | element htag hhtml _ hblock =>
      refine ⟨_, rfl, ?_⟩
      rw [readElement_eq e (readBlock e) _ _ htag, CompileM.bind_run_ok hhtml,
        CompileM.bind_run_ok hblock]
      rfl
  | halt hhalts => exact (Collects.halt hhalts).run
  | item hfound hscan hgoes htag _ _ ih hitems =>
      obtain ⟨el, hel, hrun⟩ := ih
      cases hel
      obtain ⟨lines, hlines⟩ := exists_collects hitems
      exact (Collects.item hfound hscan hgoes htag hrun hlines).run

/-- All runs of blocks on these lines can be written down. -/
def Followed (e : Expander) (ls : List SourceLine) : Prop :=
  ∀ depth c es left d, readBlock e depth ls c = .ok (es, left) d →
    ∃ used, Consumes e (.block depth) ls c es used left d

/-- The element of a line can be written down if the blocks in its lines can. -/
theorem exists_consumes_element {head : TagLine} {tag : Text} {el : Element}
    (hblock : Followed e ls)
    (h : readElement e (readBlock e) m head tag ls c = .ok (el, left) d) :
    ∃ used, Consumes e (.element m head tag) ls c [el] used left d := by
  by_cases htag : tag = "img".toList
  · subst htag
    rw [readElement, if_pos rfl] at h
    obtain ⟨rfl, rfl, -⟩ := stops_of_readImage h
    exact ⟨[], .image h⟩
  · rw [readElement_eq e (readBlock e) m head htag] at h
    obtain ⟨html, mid, hhtml, hthen⟩ := CompileM.exists_of_bind_ok h
    obtain ⟨⟨children, behind⟩, last, hchildren, hend⟩ := CompileM.exists_of_bind_ok hthen
    cases hend
    obtain ⟨used, hused⟩ := hblock _ _ _ _ _ hchildren
    exact ⟨used, .element htag hhtml hused⟩

/-- So can the items of a run. -/
theorem exists_consumes_items {token inner : Text} {depth : Nat}
    {lines : List (SourceLine × Line)} (hblock : ∀ rest, rest <:+ ls → Followed e rest)
    (h : Collects e token inner depth ls c lines es left d) :
    ∃ used, Consumes e (.items token inner depth) ls c es used left d := by
  -- along the items, each of which leaves fewer lines
  induction h with
  | halt hhalts => exact ⟨[], .halt hhalts⟩
  | @item ls rest _ _ l _ _ _ _ _ _ _ _ hfound hscan hgoes htag hitem _ ih =>
      have hskip : skipBlank ls <:+ ls := List.dropWhile_suffix _
      have hrest : rest <:+ ls := (List.suffix_cons l rest).trans (hfound ▸ hskip)
      obtain ⟨own, hown⟩ := exists_consumes_element (hblock _ hrest) hitem
      obtain ⟨others, hothers⟩ := ih fun rest hsuffix =>
        hblock rest (hsuffix.trans ((suffix_of_readElement hitem).trans hrest))
      exact ⟨_, .item hfound hscan hgoes htag hown hothers⟩

/-- So can a tag with its run. -/
theorem exists_consumes_tree (hblock : ∀ rest, rest <:+ ls → Followed e rest)
    (helement : m.HasElement) (h : readTree e (readBlock e) m ls c = .ok (es, left) d) :
    ∃ used, Consumes e (.line m) ls c es used left d := by
  unfold readTree at h
  obtain ⟨head, mid, htag, hthen⟩ := CompileM.exists_of_bind_ok h
  have hmid := context_of_readTag htag
  subst hmid
  cases hrun : runs.find? (·.tag = head.tag) with
  | none =>
      rw [hrun] at hthen
      obtain ⟨⟨el, behind⟩, last, hel, hend⟩ := CompileM.exists_of_bind_ok hthen
      cases hend
      obtain ⟨used, hused⟩ := exists_consumes_element (hblock ls List.suffix_rfl) hel
      exact ⟨used, .tree helement htag hrun hused⟩
  | some run =>
      rw [hrun] at hthen
      obtain ⟨⟨first, between⟩, mid, hfirst, hthen⟩ := CompileM.exists_of_bind_ok hthen
      obtain ⟨⟨more, behind⟩, last, hmore, hend⟩ := CompileM.exists_of_bind_ok hthen
      cases hend
      obtain ⟨own, hown⟩ := exists_consumes_element (hblock ls List.suffix_rfl) hfirst
      obtain ⟨lines, hlines⟩ := exists_collects hmore
      obtain ⟨others, hothers⟩ := exists_consumes_items (fun rest hsuffix =>
        hblock rest (hsuffix.trans (suffix_of_readElement hfirst))) hlines
      exact ⟨_, .run helement htag hrun hown hothers⟩

/-- So can a line of any kind. -/
theorem exists_consumes_line (hblock : ∀ rest, rest <:+ ls → Followed e rest)
    (h : readLine e m ls c = .ok (es, left) d) :
    ∃ used, Consumes e (.line m) ls c es used left d := by
  -- an element, a body, or a line that stands alone
  by_cases helement : m.HasElement
  · rw [readLine_of_hasElement helement] at h
    exact exists_consumes_tree hblock helement h
  by_cases hbody : m.OpensBody
  · obtain ⟨body, htake⟩ := exists_body_of_readLine hbody h
    obtain ⟨taken, rfl, rfl, -⟩ := takeDeeper_takes htake
    exact ⟨_, .body hbody h htake⟩
  · obtain rfl : left = ls := yields_readLine_left e helement hbody ls c _ d h
    exact ⟨[], .alone helement hbody h⟩

/-- So all runs of blocks can be written down. -/
theorem followed (e : Expander) (ls : List SourceLine) : Followed e ls := by
  -- on the number of lines; the blocks below a line and behind it have fewer
  induction hlength : ls.length using Nat.strongRecOn generalizing ls with
  | ind n ih =>
      intro depth c es left d h
      cases reads_iff.2 h with
      | stop hstops => exact ⟨[], .stop hstops⟩
      | line hfound hscan hdepth hline hrest =>
          have hskip : skipSilent ls <:+ ls := List.dropWhile_suffix _
          have hlt := (hfound ▸ hskip).length_le
          rw [List.length_cons] at hlt
          have hleft := (suffix_of_readLine hline).length_le
          obtain ⟨own, hown⟩ := exists_consumes_line (fun below hsuffix =>
            ih below.length (by have := hsuffix.length_le; omega) below rfl) hline
          obtain ⟨others, hothers⟩ := ih _ (by omega) _ rfl _ _ _ _ _ (reads_iff.1 hrest)
          exact ⟨_, .next hfound hscan hdepth hown hothers⟩

/-- The runs of readers are those that can be written down with the lines that they consume. -/
theorem consumes_iff :
    (∃ used, Consumes e t ls c es used left d) ↔ t.Runs e ls c es left d := by
  refine ⟨fun ⟨used, h⟩ => h.runs, fun h => ?_⟩
  cases t with
  | block depth => exact followed e ls _ _ _ _ _ h
  | line m => exact exists_consumes_line (fun rest _ => followed e rest) h
  | element m head tag =>
      obtain ⟨el, rfl, hrun⟩ := h
      exact exists_consumes_element (followed e ls) hrun
  | items token inner depth =>
      obtain ⟨lines, hlines⟩ := exists_collects h
      exact exists_consumes_items (fun rest _ => followed e rest) hlines

/-! ### Once and in order -/

/-- A line that continues a run says something. -/
theorem loud_of_continues {unit : Indentation} {l : SourceLine} {token : Text} {depth : Nat}
    (hscan : l.scan unit = .ok m) (hgoes : continues token depth m = true) :
    l.isSilent = false := by
  obtain ⟨-, hkind, -⟩ := continues_iff.1 hgoes
  rw [Bool.eq_false_iff, Ne, SourceLine.isSilent_iff_of_scan hscan]
  simp [Line.PassedOver, Line.Veiled, hkind]

/-- What is taken from the front up to a line that is passed to, below that line, and behind. -/
theorem exists_taken_of_dropWhile {p : SourceLine → Bool} {l : SourceLine}
    {rest own between others : List SourceLine} (hp : ∀ l, p l = true → l.isSilent = true)
    (hfound : ls.dropWhile p = l :: rest) (hloud : l.isSilent = false)
    (hown : ∃ taken, rest = taken ++ between ∧ own = loudLines taken)
    (hothers : ∃ taken, between = taken ++ left ∧ others = loudLines taken) :
    ∃ taken, ls = taken ++ left ∧ l :: own ++ others = loudLines taken := by
  obtain ⟨passed, rfl, hpassed⟩ := exists_of_dropWhile hp hfound
  obtain ⟨taken, rfl, rfl⟩ := hown
  obtain ⟨more, rfl, rfl⟩ := hothers
  refine ⟨passed ++ l :: (taken ++ more), by simp, ?_⟩
  rw [loudLines_append, hpassed, loudLines_cons_of_loud hloud, loudLines_append]
  rfl

/-- Lines are taken from the front, and of these the ones that say something are consumed. -/
theorem Consumes.exists_taken (h : Consumes e t ls c es used left d) :
    ∃ taken, ls = taken ++ left ∧ used = loudLines taken := by
  -- along the rules: lines are taken where a line is found, below it, and behind it
  induction h with
  | stop | alone | image | halt => exact ⟨[], rfl, rfl⟩
  | body => exact ⟨_, rfl, rfl⟩
  | tree _ _ _ _ ih => exact ih
  | element _ _ _ ih => exact ih
  | run _ _ _ _ _ ihfirst ihmore =>
      obtain ⟨taken, rfl, rfl⟩ := ihfirst
      obtain ⟨more, rfl, rfl⟩ := ihmore
      exact ⟨taken ++ more, by simp, by simp⟩
  | next hfound _ _ _ _ ihline ihblock =>
      have hloud := loud_of_skipSilent hfound
      exact exists_taken_of_dropWhile (fun _ h => h) hfound hloud ihline ihblock
  | item hfound hscan hgoes _ _ _ ihitem ihmore =>
      have hloud := loud_of_continues hscan hgoes
      exact exists_taken_of_dropWhile (fun _ => Coupling.isSilent_of_isBlank) hfound hloud ihitem
        ihmore

end Block

end IndentMarkup
