import IndentMarkup.Proofs.Cursor.Consuming
import Mathlib.Data.List.DropRight

/-!
How far one line moves the cursor.

The lines of a source stay as they are while they are read; only the place of the first one that is
not read yet moves. A reader that is given the lines behind a place leaves those behind another one.
In a section the unit of indentation does not change any more, so it can be said in advance how far
a line moves the place: an element up to the first line that is not deeper, a run of items up to
the first one that does not belong to it, a body past its last line that is not blank, and any other
line past itself.

* `Block.AllMeasured`, `Block.Consumes.fits` — in a section, what a reader consumes is deeper, or
  goes on with a run.
* `Block.Consumes.rests` — where a reader stops.
* `Block.takeDeeper_bodyLines` — how long a body is.
* `Document.Consumes`, `Document.consumes_iff` — the top level of a source.
* `Block.Moves`, `Block.moves_of_consumes` — what is true of the new place.
* `cursor_contract` — all of this, and that each line that says something is read once.
-/

namespace IndentMarkup

open Context

/-- With a section, the unit of indentation stays. -/
theorem elementEffect_settled (unit : Indentation) :
    ElementEffect fun c d => Settled unit c → Settled unit d where
  refl _ hc := hc
  trans h h' hc := h' (h hc)
  directive h hc := by
    -- with a section open a directive is refused
    have hopen := hc.2
    rw [(readDirective_ok h).1] at hopen
    cases hopen
  addClass h hc := by
    obtain ⟨metadata, -, rfl⟩ := addClass_ok h
    exact hc
  define h hc := by
    obtain ⟨m, -, -, rfl⟩ := defineBody_ok h
    exact hc
  undefine h hc := by
    obtain ⟨-, rfl⟩ := undefine_ok h
    exact hc
  template _ h hc := h hc

/-- The line starts a run of items. -/
def Line.StartsRun (m : Line) : Prop :=
  m.kind = .tag ∧ ∃ run ∈ Block.runs,
    SourceLine.tagOfToken (Block.itemToken m.content) = run.tag

namespace Block

variable {e : Expander} {t : Task} {m : Line} {ls left used : List SourceLine}
  {es : List Element} {c d : Context} {unit : Indentation} {depth n : Nat}

/-! ### In a section -/

/-- So the unit stays in every run of a reader. -/
theorem Task.Runs.settled (h : t.Runs (expander n) ls c es left d) (hc : Settled unit c) :
    Settled unit d := by
  have hparts := (elementEffect_settled unit).congruence
  have he := hparts.expander n
  have hblock := hparts.readBlock (f := expander n) he
  -- a run of each reader is a run of the actions that it is made of
  cases t with
  | block depth => exact CompileM.after_of_ok h ▸ hblock depth ls c hc
  | line m => exact CompileM.after_of_ok h ▸ hparts.readLine (f := expander n) he m ls c hc
  | element m head tag =>
      obtain ⟨el, -, hrun⟩ := h
      exact CompileM.after_of_ok hrun ▸
        @ElementCongruence.readElement _ hparts (expander n) (expander n) he
          (readBlock (expander n)) (readBlock (expander n)) hblock m head tag ls c hc
  | items token inner depth =>
      exact CompileM.after_of_ok h ▸
        @ElementCongruence.readItems _ hparts (expander n) (expander n) he
          (readBlock (expander n)) (readBlock (expander n)) hblock token inner depth ls.length ls c
          hc

/-- Formatting the text of a line does not change the unit, either. -/
theorem settled_of_htmlOf {head : TagLine} {html : Text}
    (h : htmlOf (expander n) m head c = .ok html d) (hc : Settled unit c) : Settled unit d := by
  have hparts := (elementEffect_settled unit).congruence
  have hformat := hparts.format (f := expander n) (hparts.expander n)
  have hhtml : Settled unit ((htmlOf (expander n) m head).after c) := by
    unfold htmlOf
    split
    · exact hc
    · exact hformat _ _ _ c hc
  exact CompileM.after_of_ok h ▸ hhtml

/-! ### What is consumed -/

/-- A measured line that the reader may consume. -/
def Task.Fits : Task → Line → Prop
  | block depth, m' => depth ≤ m'.depth
  | line m, m' => m.depth < m'.depth ∨
      m.StartsRun ∧ continues (itemToken m.content) m.depth m' = true
  | element m _ _, m' => m.depth < m'.depth
  | items token _ depth, m' => depth < m'.depth ∨ continues token depth m' = true

/-- Each line can be measured and has the property. -/
def AllMeasured (unit : Indentation) (p : Line → Prop) (ls : List SourceLine) : Prop :=
  ∀ l ∈ ls, ∃ m, l.scan unit = .ok m ∧ p m

section AllMeasured

variable {p q : Line → Prop}

theorem AllMeasured.nil : AllMeasured unit p [] := List.forall_mem_nil _

theorem AllMeasured.cons {l : SourceLine} (hscan : l.scan unit = .ok m) (hm : p m)
    (h : AllMeasured unit p ls) : AllMeasured unit p (l :: ls) :=
  List.forall_mem_cons.2 ⟨⟨m, hscan, hm⟩, h⟩

theorem AllMeasured.append (h : AllMeasured unit p ls) (h' : AllMeasured unit p left) :
    AllMeasured unit p (ls ++ left) :=
  List.forall_mem_append.2 ⟨h, h'⟩

/-- A weaker property holds of the lines, too. -/
theorem AllMeasured.mono (hpq : ∀ m, p m → q m) (h : AllMeasured unit p ls) :
    AllMeasured unit q ls := by
  intro l hl
  obtain ⟨m, hscan, hm⟩ := h l hl
  exact ⟨m, hscan, hpq m hm⟩

end AllMeasured

/-- In a body, what says something is deeper. -/
theorem allMeasured_of_takeDeeper {taken : List SourceLine} {body : List Text}
    (h : takeDeeper unit depth (taken ++ left) = .ok (body, left)) :
    AllMeasured unit (depth < ·.depth) (loudLines taken) := by
  obtain ⟨taken, hsplit, -, htaken⟩ := takeDeeper_takes h
  obtain rfl := List.append_cancel_right hsplit
  intro l hl
  obtain ⟨hmem, hloud⟩ := mem_loudLines.1 hl
  rcases htaken l hmem with hblank | ⟨-, hdeep⟩
  · rw [isBlank_of_loud hloud] at hblank
    cases hblank
  · exact hdeep

/-- A tag for which there is a run makes the line start one. -/
theorem startsRun_of_find {head : TagLine} {run : Run} (helement : m.HasElement)
    (htag : readTag m c = .ok head d) (hrun : runs.find? (·.tag = head.tag) = some run) :
    m.StartsRun := by
  -- only the line of a tag has a tag; text starts no run
  rcases helement with hkind | hplain
  · have hmem := List.mem_of_find?_eq_some hrun
    have htagged := List.find?_some hrun
    rw [tag_of_readTag hkind htag, decide_eq_true_eq] at htagged
    exact ⟨hkind, run, hmem, htagged.symm⟩
  · rw [yields_readTag_plain hplain c head d htag] at hrun
    cases hrun

/-- In a section, whatever a reader consumes is deep enough, or goes on with the run. -/
theorem Consumes.fits (h : Consumes (expander n) t ls c es used left d) (hc : Settled unit c) :
    AllMeasured unit t.Fits used := by
  -- along the run of the reader: what is consumed below a line is deeper than the line, so it is as
  -- deep as the block asks for, and the unit stays from one line to the next
  induction h with
  | stop | alone | image | halt => exact .nil
  | next _ hscan hdepth hline _ ihline ihblock =>
      have hunit := hc.1
      subst hdepth hunit
      have hown := (ihline hc).mono fun m' hfits => hfits.elim Nat.le_of_lt
        fun hgoes => Nat.le_of_eq (continues_iff.1 hgoes.2).1.symm
      exact .append (.cons hscan (Nat.le_refl _) hown) (ihblock (hline.runs.settled hc))
  | body _ _ htake =>
      have hunit := hc.1
      subst hunit
      exact (allMeasured_of_takeDeeper htake).mono fun _ => .inl
  | tree _ _ _ _ ih => exact (ih hc).mono fun _ => .inl
  | run helement htag hrun hfirst _ ihfirst ihmore =>
      have hstarts := startsRun_of_find helement htag hrun
      have hmore := (ihmore (hfirst.runs.settled hc)).mono fun m' hfits =>
        hfits.imp_right fun hgoes => And.intro hstarts hgoes
      exact .append ((ihfirst hc).mono fun _ => .inl) hmore
  | element _ hhtml _ ih => exact ih (settled_of_htmlOf hhtml hc)
  | item _ hscan hgoes _ hitem _ ihitem ihmore =>
      have hunit := hc.1
      obtain ⟨hdepth, -⟩ := continues_iff.1 hgoes
      subst hdepth hunit
      exact .append (.cons hscan (.inr hgoes) ((ihitem hc).mono fun _ => .inl))
        (ihmore (hitem.runs.settled hc))

/-! ### Where a reader stops -/

/-- What the reader stops at. Items come behind an item, and stop where that one does or behind
another one. -/
def Task.Rests (ls : List SourceLine) (c : Context) (left : List SourceLine) (d : Context) :
    Task → Prop
  | block depth => Stops depth left d
  | line m => m.HasElement → Stops (m.depth + 1) left d
  | element m _ _ => Stops (m.depth + 1) left d
  | items _ _ depth => Stops (depth + 1) ls c → Stops (depth + 1) left d

/-- A block stops where nothing as deep comes, an element where nothing deeper does. -/
theorem Consumes.rests (h : Consumes e t ls c es used left d) : t.Rests ls c left d := by
  -- the last reader of each kind says where it stops; what was read before makes no difference
  induction h with
  | stop hstops => exact hstops
  | next _ _ _ _ _ _ ih => exact ih
  | alone helement _ _ => exact fun h => absurd h helement
  | body hbody _ _ => exact fun helement => absurd hbody helement.not_opensBody
  | tree _ _ _ _ ih => exact fun _ => ih
  | run _ _ _ _ _ ihfirst ihmore => exact fun _ => ihmore ihfirst
  | image himage => exact (stops_of_readImage himage).2.2
  | element _ _ _ ih => exact ih
  | halt _ => exact id
  | item _ _ hgoes _ _ _ ihitem ihmore =>
      obtain ⟨rfl, -⟩ := continues_iff.1 hgoes
      exact fun _ => ihmore ihitem

/-! ### Bodies -/

/-- A line with something in it is deeper if it is measured so. -/
theorem deeperThan_iff_of_scan {l : SourceLine} (hsolid : l.isBlank = false)
    (hscan : l.scan unit = .ok m) : l.DeeperThan unit depth ↔ depth < m.depth := by
  simp [SourceLine.DeeperThan, hsolid, hscan]

instance (l : SourceLine) : Decidable (l.DeeperThan unit depth) :=
  decidable_of_iff (l.isBlank = true ∨ l.isBlank = false ∧
      ∃ m ∈ (l.scan unit).toOption, depth < m.depth) <| by
    unfold SourceLine.DeeperThan
    cases l.scan unit <;> simp [Except.toOption]

/-- The lines in front that are blank or deeper, without the blank ones at their end. -/
def bodyLines (unit : Indentation) (depth : Nat) (ls : List SourceLine) : List SourceLine :=
  (ls.takeWhile fun l => l.DeeperThan unit depth).rdropWhile (·.isBlank)

/-- From the end, an element is dropped if all behind it are and it is itself. -/
theorem rdropWhile_cons {α : Type} (p : α → Bool) (a : α) (l : List α) :
    (a :: l).rdropWhile p =
      if l.rdropWhile p = [] then if p a then [] else [a] else a :: l.rdropWhile p := by
  simp only [List.rdropWhile, List.reverse_cons, List.dropWhile_append, List.reverse_eq_nil_iff,
    List.isEmpty_iff]
  split
  · cases h : p a <;> simp [h]
  · simp

section BodyLines

variable {l : SourceLine}

/-- A line that is not deeper ends the body in front of it. -/
theorem bodyLines_cons_of_not (h : ¬ l.DeeperThan unit depth) (ls : List SourceLine) :
    bodyLines unit depth (l :: ls) = [] := by
  rw [bodyLines, List.takeWhile_cons_of_neg (by simpa using h), List.rdropWhile_nil]

/-- A blank line belongs to the body if something behind it does. -/
theorem bodyLines_cons_of_isBlank (h : l.isBlank = true) (ls : List SourceLine) :
    bodyLines unit depth (l :: ls) =
      if bodyLines unit depth ls = [] then [] else l :: bodyLines unit depth ls := by
  have hdeep : l.DeeperThan unit depth := .inl h
  rw [bodyLines, List.takeWhile_cons_of_pos (by simpa using hdeep), rdropWhile_cons, if_pos h]
  rfl

/-- A deeper line belongs to the body, whatever comes behind it. -/
theorem bodyLines_cons_of_solid (hsolid : l.isBlank = false) (h : l.DeeperThan unit depth)
    (ls : List SourceLine) :
    bodyLines unit depth (l :: ls) = l :: bodyLines unit depth ls := by
  rw [bodyLines, bodyLines, List.takeWhile_cons_of_pos (by simpa using h), rdropWhile_cons]
  split
  · next hnil => rw [if_neg (by simp [hsolid]), hnil]
  · rfl

end BodyLines

/-- A body is the deeper lines that follow up to the last one that is not blank. -/
theorem takeDeeper_bodyLines {body : List Text}
    (h : takeDeeper unit depth ls = .ok (body, left)) :
    ls = bodyLines unit depth ls ++ left ∧ body = (bodyLines unit depth ls).map (·.text) := by
  -- on the lines: a blank one is taken with a body behind it, any other is taken or ends the body
  induction ls generalizing body left with
  | nil =>
      cases h
      exact ⟨rfl, rfl⟩
  | cons l ls ih =>
      unfold takeDeeper at h
      cases hblank : l.isBlank with
      | true =>
          rw [if_pos hblank] at h
          rw [bodyLines_cons_of_isBlank hblank]
          split at h
          · cases h
          · next more rest hrun =>
              obtain ⟨hlines, rfl⟩ := ih hrun
              simp only [List.map_eq_nil_iff] at h
              split at h
              -- with no body behind it the blank line is left, and is no line of the body either
              · next hnil =>
                  cases h
                  rw [if_pos hnil]
                  exact ⟨rfl, rfl⟩
              · next hsome =>
                  cases h
                  rw [if_neg hsome, List.cons_append, ← hlines]
                  exact ⟨rfl, rfl⟩
      | false =>
          rw [if_neg (by simp [hblank])] at h
          split at h
          · cases h
          · next m hm =>
              split at h
              · next hshallow =>
                  cases h
                  have hnot := (deeperThan_iff_of_scan hblank hm).not.2 (Nat.not_lt.2 hshallow)
                  rw [bodyLines_cons_of_not hnot]
                  exact ⟨rfl, rfl⟩
              · next hdeep =>
                  have hbelow := (deeperThan_iff_of_scan hblank hm).2 (Nat.lt_of_not_le hdeep)
                  rw [bodyLines_cons_of_solid hblank hbelow]
                  split at h
                  · cases h
                  · next more rest hrun =>
                      obtain ⟨hlines, rfl⟩ := ih hrun
                      cases h
                      rw [List.cons_append, ← hlines]
                      exact ⟨rfl, rfl⟩

/-! ### One line -/

/-- The cursor goes from the line at place `i`, which is measured as `m`, to the place `p`. -/
structure Moves (unit : Indentation) (lines : List SourceLine) (i : Nat) (m : Line) (p : Nat) :
    Prop where
  forward : i < p
  bounded : p ≤ lines.length
  /-- What belongs to an element is deeper, or an item of the run that the line starts. -/
  between : m.HasElement → ∀ j t, i < j → j < p → lines[j]? = some t → t.isSilent = false →
    ∃ m', t.scan unit = .ok m' ∧ (m.depth < m'.depth ∨
      m.StartsRun ∧ continues (itemToken m.content) m.depth m' = true)
  /-- Nothing deeper follows upon an element. -/
  behind : m.HasElement → ∀ t rest, skipSilent (lines.drop p) = t :: rest →
    ∃ m', t.scan unit = .ok m' ∧ m'.depth ≤ m.depth
  /-- A body reaches up to its last line that is not blank. -/
  body : m.OpensBody → p = i + 1 + (bodyLines unit m.depth (lines.drop (i + 1))).length
  /-- Every other line, such as a margin, or a line that removes or calls a template, stands
  alone. -/
  alone : ¬ m.HasElement → ¬ m.OpensBody → p = i + 1

/-- What is consumed below a line lies between the places. -/
theorem moves_of_consumes {lines : List SourceLine} {i : Nat} (hi : i < lines.length)
    (hc : Settled unit c)
    (h : Consumes (expander n) (.line m) (lines.drop (i + 1)) c es used left d) :
    ∃ p, Moves unit lines i m p ∧ left = lines.drop p ∧
      used = loudLines ((lines.take p).drop (i + 1)) := by
  -- what is consumed below the line, where the reader stops, and that the unit is still the same
  have hfits := h.fits hc
  have hrests := h.rests
  have hsettled := h.runs.settled hc
  obtain ⟨hunit, -⟩ := hc
  subst hunit
  -- what is taken stands in front of what is left, and this starts at the new place
  obtain ⟨taken, hsplit, rfl⟩ := h.exists_taken
  have hrun : readLine (expander n) m (lines.drop (i + 1)) c = .ok (es, left) d := h.runs
  have hlength := congrArg List.length hsplit
  rw [List.length_drop, List.length_append] at hlength
  have hleft : left = lines.drop (i + 1 + taken.length) := by
    rw [← List.drop_drop, hsplit, List.drop_left]
  have htaken : taken = (lines.take (i + 1 + taken.length)).drop (i + 1) := by
    rw [List.drop_take, Nat.add_sub_cancel_left, hsplit, List.take_left]
  refine ⟨i + 1 + taken.length,
    { forward := by omega
      bounded := by omega
      between := ?_, behind := ?_, body := ?_, alone := ?_ }, hleft, congrArg loudLines htaken⟩
  -- what says something in between has been consumed
  · intro _ j t hij hjp ht hloud
    obtain ⟨k, rfl⟩ := Nat.exists_eq_add_of_le hij
    rw [← List.getElem?_drop, hsplit, List.getElem?_append_left (by omega)] at ht
    exact hfits t (mem_loudLines.2 ⟨List.mem_of_getElem? ht, hloud⟩)
  -- behind, the reader has stopped, and it was measured in the same unit
  · intro helement t rest hfound
    rw [← hleft] at hfound
    rcases hrests helement with hnone | ⟨l, more, m', hfound', hscan, hlt⟩
    · rw [hnone] at hfound
      cases hfound
    · rw [hfound'] at hfound
      cases hfound
      rw [hsettled.1] at hscan
      exact ⟨m', hscan, by omega⟩
  -- of the two ways to split the lines, the one that the reader takes is that of the body
  · intro hbody
    obtain ⟨body, htake⟩ := exists_body_of_readLine hbody hrun
    have hown := (takeDeeper_bodyLines htake).1
    rw [← List.append_cancel_right (hsplit.symm.trans hown)]
  -- nothing is taken below any other line
  · intro helement hbody
    have hsame := yields_readLine_left (expander n) helement hbody _ c _ d hrun
    have hlengths := congrArg List.length hsame
    rw [List.length_drop] at hlengths
    dsimp only at hlengths
    omega

end Block

/-! ### The top level of a source -/

/-- The line has a meaning at the top level alone, or there and in the body of a template: a
section, a tab, an inclusion, a directive. -/
def Line.IsOuter (m : Line) : Prop := m.kind.isBoundary = true ∨ m.kind = .directive

namespace Document

variable {e : Expander} {x : Line → CompileM (List Tab)} {o o' : Outline} {m : Line}
  {ls left used : List SourceLine} {c d : Context}

/-- A line that only the top level knows leaves the lines behind it. -/
theorem yields_readLine_left (e : Expander) (x : Line → CompileM (List Tab)) (o : Outline)
    (h : m.IsOuter) (ls : List SourceLine) : Yields (·.2 = ls) (readLine e x o m ls) := by
  unfold readLine
  refine .ite (fun _ => .failAt _ _ _) fun _ => ?_
  rcases h with hboundary | hkind
  · cases hkind : m.kind with
    | sectionStart => exact .bind_any fun _ => .bind_any fun _ => .pure rfl
    | tabStart => exact .bind_any fun _ => .bind_any fun _ => .pure rfl
    | inclusion => exact .bind_any fun _ => .pure rfl
    | _ =>
        rw [hkind] at hboundary
        cases hboundary
  · rw [hkind]
    exact .bind_any fun _ => .pure rfl

/-- All other lines are read as elements are. -/
theorem exists_readLine_of_elements (h : ¬ m.IsOuter)
    (hrun : readLine e x o m ls c = .ok (o', left) d) :
    ∃ es, Block.readLine e m ls c = .ok (es, left) d := by
  have helements : readElements e o m ls c = .ok (o', left) d := by
    unfold readLine at hrun
    -- of the kinds of lines only those that are not outer come to the readers of elements
    split at hrun
    · cases hrun
    · cases hkind : m.kind with
      | sectionStart | tabStart | inclusion => exact absurd (.inl (by rw [hkind]; rfl)) h
      | directive => exact absurd (.inr hkind) h
      | _ => rwa [hkind] at hrun
  unfold readElements at helements
  obtain ⟨⟨es, behind⟩, mid, hline, hthen⟩ := CompileM.exists_of_bind_ok helements
  refine ⟨es, ?_⟩
  dsimp only at hthen
  split at hthen
  · cases hthen
    exact hline
  · cases hpush : o.push? es with
    | none =>
        rw [hpush] at hthen
        cases hthen
    | some o₁ =>
        rw [hpush] at hthen
        cases hthen
        exact hline

/-- From lines, a context and an outline on, the top level consumes lines and comes to an outline
and a context. Each line that stands for elements consumes the lines below it. -/
inductive Consumes (e : Expander) (x : Line → CompileM (List Tab)) : List SourceLine → Context →
    Outline → List SourceLine → Outline → Context → Prop where
  | done {ls : List SourceLine} {c : Context} {o : Outline} :
      skipSilent ls = [] → Consumes e x ls c o [] o c
  | outer {ls rest others : List SourceLine} {l : SourceLine} {m : Line} {c mid d : Context}
      {o between last : Outline} :
      skipSilent ls = l :: rest → l.scan c.indentation = .ok m → m.IsOuter →
      readLine e x o m rest c = .ok (between, rest) mid →
      Consumes e x rest mid between others last d → Consumes e x ls c o (l :: others) last d
  | elements {ls rest own behind others : List SourceLine} {l : SourceLine} {m : Line}
      {c mid d : Context} {o between last : Outline} {es : List Element} :
      skipSilent ls = l :: rest → l.scan c.indentation = .ok m → ¬ m.IsOuter →
      readLine e x o m rest c = .ok (between, behind) mid →
      Block.Consumes e (.line m) rest c es own behind mid →
      Consumes e x behind mid between others last d →
      Consumes e x ls c o (l :: own ++ others) last d

/-- What the top level reads is what can be written down so. -/
theorem consumes_iff : (∃ used, Consumes e x ls c o used o' d) ↔ readTop e x o ls c = .ok o' d := by
  constructor
  · rintro ⟨used, h⟩
    -- along what is written down, each rule is one step of the reader
    induction h with
    | done hnone =>
        rw [readTop_of_silent hnone]
        rfl
    | outer hfound hscan _ hline _ ih =>
        rw [readTop_eq, hfound]
        dsimp only
        rw [Block.scan_bind_run hscan, CompileM.bind_run_ok hline]
        exact ih
    | elements hfound hscan _ hline _ _ ih =>
        rw [readTop_eq, hfound]
        dsimp only
        rw [Block.scan_bind_run hscan, CompileM.bind_run_ok hline]
        exact ih
  · intro h
    -- on the number of lines, as each line leaves fewer
    induction hlength : ls.length using Nat.strongRecOn generalizing ls c o with
    | ind n ih =>
        rw [readTop_eq] at h
        have hskip : skipSilent ls <:+ ls := List.dropWhile_suffix _
        cases hfound : skipSilent ls with
        | nil =>
            rw [hfound] at h
            cases h
            exact ⟨[], .done hfound⟩
        | cons l rest =>
            rw [hfound] at h hskip
            dsimp only at h
            obtain ⟨m, hscan, hthen⟩ := Block.exists_of_scan_bind h
            obtain ⟨⟨between, behind⟩, mid, hline, hbehind⟩ := CompileM.exists_of_bind_ok hthen
            have hle := hskip.length_le
            rw [List.length_cons] at hle
            have hsuffix : behind.length ≤ rest.length := (suffix_of_readLine hline).length_le
            obtain ⟨others, hothers⟩ := ih behind.length (by omega) hbehind rfl
            -- an outer line leaves all lines behind it, any other what is behind its own
            by_cases houter : m.IsOuter
            · obtain rfl : behind = rest := yields_readLine_left e x o houter rest c _ mid hline
              exact ⟨_, .outer hfound hscan houter hline hothers⟩
            · obtain ⟨es, hread⟩ := exists_readLine_of_elements houter hline
              obtain ⟨own, hown⟩ := Block.consumes_iff (t := .line m).2 hread
              exact ⟨_, .elements hfound hscan houter hline hown hothers⟩

/-- All lines of a source that say something are consumed, once and in order. -/
theorem Consumes.eq_loudLines (h : Consumes e x ls c o used o' d) : used = loudLines ls := by
  -- what is skipped says nothing, and what is consumed below a line has been taken from the front
  induction h with
  | done hnone => rw [loudLines_of_skipSilent hnone, loudLines_nil]
  | outer hfound _ _ _ _ ih =>
      have hloud := loud_of_skipSilent hfound
      rw [loudLines_of_skipSilent hfound, loudLines_cons_of_loud hloud, ih]
  | elements hfound _ _ _ hown _ ih =>
      have hloud := loud_of_skipSilent hfound
      obtain ⟨taken, rfl, rfl⟩ := hown.exists_taken
      rw [loudLines_of_skipSilent hfound, loudLines_cons_of_loud hloud, loudLines_append, ih]
      rfl

end Document

/-- Where a section or a tab has been opened, a line that is read moves the cursor on: an element
to the first line that is not its own, a body behind its last line that is not blank, and any other
line, such as a margin or the call of a template, behind itself. And in any context, a block and the
top level of a source consume each of their lines that say something once and in order. -/
theorem cursor_contract (n : Nat) :
    (∀ (c d : Context) (lines left : List SourceLine) (i : Nat) (l : SourceLine) (m : Line)
      (es : List Element), c.hasStructure = true → lines[i]? = some l →
      l.scan c.indentation = .ok m →
      Block.readLine (expander n) m (lines.drop (i + 1)) c = .ok (es, left) d →
      ∃ p, Block.Moves c.indentation lines i m p ∧ left = lines.drop p ∧
        Block.Consumes (expander n) (.line m) (lines.drop (i + 1)) c es
          (loudLines ((lines.take p).drop (i + 1))) left d) ∧
    (∀ (c d : Context) (depth : Nat) (ls left : List SourceLine) (es : List Element),
      Block.readBlock (expander n) depth ls c = .ok (es, left) d →
      ∃ taken, ls = taken ++ left ∧
        Block.Consumes (expander n) (.block depth) ls c es (loudLines taken) left d) ∧
    (∀ (x : Line → CompileM (List Tab)) (c d : Context) (o o' : Outline) (ls : List SourceLine),
      Document.readTop (expander n) x o ls c = .ok o' d →
      Document.Consumes (expander n) x ls c o (loudLines ls) o' d) := by
  refine ⟨?_, ?_, ?_⟩
  · intro c d lines left i l m es hopen hline _ hrun
    obtain ⟨used, hused⟩ := Block.consumes_iff (t := .line m).2 hrun
    have hi := (List.getElem?_eq_some_iff.1 hline).1
    obtain ⟨p, hmoves, hleft, rfl⟩ := Block.moves_of_consumes hi ⟨rfl, hopen⟩ hused
    exact ⟨p, hmoves, hleft, hused⟩
  · intro c d depth ls left es hrun
    obtain ⟨used, hused⟩ := Block.consumes_iff (t := .block depth).2 hrun
    obtain ⟨taken, hls, rfl⟩ := hused.exists_taken
    exact ⟨taken, hls, hused⟩
  · intro x c d o o' ls hrun
    obtain ⟨used, hused⟩ := Document.consumes_iff.2 hrun
    obtain rfl := hused.eq_loudLines
    exact hused

/-- A section with a list of two items, a comment, a custom class, and an element. -/
def listLines : List SourceLine :=
  SourceLine.ofSource "# s\n.uli a\n\t.b x\n\n.uli c\n> end\n$k\n\tp: q\n\n.p d".toList

/-- A section has been opened. -/
def openContext : Context := { Context.start with hasStructure := true }

theorem cursor_contract_listLines :
    (∃ es d, Block.readLine (expander 0) ⟨1, 0, 0, ".uli a".toList⟩ (listLines.drop 2) openContext =
        .ok (es, listLines.drop 5) d ∧
      Block.Moves .tabs listLines 1 ⟨1, 0, 0, ".uli a".toList⟩ 5) ∧
    (∃ es left d taken, Block.readBlock (expander 0) 0 (listLines.drop 1) openContext =
        .ok (es, left) d ∧ listLines.drop 1 = taken ++ left ∧
      Block.Consumes (expander 0) (.block 0) (listLines.drop 1) openContext es (loudLines taken)
        left d) ∧
    ∃ o d, Document.readTop (expander 0) (fun _ => pure []) ∅ listLines .start = .ok o d ∧
      Document.Consumes (expander 0) (fun _ => pure []) listLines .start ∅ (loudLines listLines) o
        d := by
  obtain ⟨hline, hblock, htop⟩ := cursor_contract 0
  refine ⟨?_, ?_, ?_⟩
  · obtain ⟨last, hrun⟩ := CompileM.exists_of_run' (by decide +kernel :
      (Block.readLine (expander 0) ⟨1, 0, 0, ".uli a".toList⟩ (listLines.drop 2) >>= fun r =>
        pure r.2.length).run' openContext = some 6)
    obtain ⟨⟨es, left⟩, d, hread, hlength⟩ := CompileM.exists_of_bind_ok hrun
    have hsix : left.length = 6 := (EStateM.Result.ok.inj hlength).1
    obtain ⟨p, hmoves, rfl, -⟩ := hline openContext d listLines left 1 ⟨1, ".uli a".toList⟩
      ⟨1, 0, 0, ".uli a".toList⟩ es rfl (by decide) (by decide) hread
    have hall : listLines.length = 11 := by decide
    have hbounded := hmoves.bounded
    rw [List.length_drop] at hsix
    obtain rfl : p = 5 := by omega
    exact ⟨es, d, hread, hmoves⟩
  · obtain ⟨last, hrun⟩ := CompileM.exists_of_run' (by decide +kernel :
      (Block.readBlock (expander 0) 0 (listLines.drop 1) >>= fun _ => pure ()).run' openContext =
        some ())
    obtain ⟨⟨es, left⟩, d, hread, -⟩ := CompileM.exists_of_bind_ok hrun
    obtain ⟨taken, htaken, hconsumes⟩ := hblock openContext d 0 _ left es hread
    exact ⟨es, left, d, taken, hread, htaken, hconsumes⟩
  · obtain ⟨last, hrun⟩ := CompileM.exists_of_run' (by decide +kernel :
      (Document.readTop (expander 0) (fun _ => pure []) ∅ listLines >>= fun _ => pure ()).run'
        .start = some ())
    obtain ⟨o, d, hread, -⟩ := CompileM.exists_of_bind_ok hrun
    exact ⟨o, d, hread, htop _ _ _ _ _ _ hread⟩

end IndentMarkup
