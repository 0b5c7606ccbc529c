import IndentMarkup.Proofs.BlankLines
import IndentMarkup.Proofs.Coherence
import IndentMarkup.Proofs.Comments.Readers
import Mathlib.Data.List.InsertIdx

/-!
Comments that are in nobody's way do not matter.

A source without a comment is like the source with a blank line in its place, and a blank line
is passed over like the comment. At the top level of the source the unit of indentation can
still change. But elements need an open section, and from its line on the unit is settled; the
bodies that are taken before end at the margin, which is the same in all units.

* `Outline.HasSection` — a section is open.
* `outcome_readTopLine_gap`, `readTop_gap` — a line, and the lines, of a source.
* `compileText_comment` — the results of the two compiles.
-/

namespace IndentMarkup

open Context

/-! ### Open sections -/

/-- A section is open. -/
def Outline.HasSection (o : Outline) : Prop := ∃ tab s, o.current = some ⟨tab, some s⟩

namespace Outline

/-- Elements are pushed into a section that is open. -/
theorem hasSection_of_push? {o o' : Outline} {elements : List Element}
    (h : o.push? elements = some o') : o.HasSection := by
  unfold push? at h
  split at h
  · next tab s hcurrent => exact ⟨tab, s, hcurrent⟩
  · cases h

/-- Behind a tab's line no section is open. -/
theorem not_hasSection_openTab (o : Outline) (id : Nat) (heading : Heading) :
    ¬ (o.openTab id heading).1.HasSection := by
  rintro ⟨tab, s, hcurrent⟩
  cases hcurrent

/-- Behind an inclusion no section is open. -/
theorem not_hasSection_splice (o : Outline) (tabs : List Tab) : ¬ (o.splice tabs).HasSection := by
  rintro ⟨tab, s, hcurrent⟩
  cases hcurrent

end Outline

namespace Document

variable {e : Expander} {x : Line → CompileM (List Tab)} {o : Outline} {m : Line}
  {rest : List SourceLine}

/-- Elements open no section. -/
theorem yields_readElements :
    Yields (fun r => r.1.HasSection → o.HasSection) (readElements e o m rest) := by
  unfold readElements
  refine .bind_any fun result => .ite (fun _ => .pure id) fun _ => ?_
  cases hpush : o.push? result.1 with
  | none => exact .failAt _ _ _
  | some o' => exact .pure fun _ => Outline.hasSection_of_push? hpush

/-- A section is open only behind its line, or because it was open before. -/
theorem hasSection_of_readLine {c d : Context} {r : Outline × List SourceLine}
    (hrun : readLine e x o m rest c = .ok r d) (hsection : r.1.HasSection) :
    o.HasSection ∨ m.depth = 0 ∧ m.kind = .sectionStart ∧ d.hasStructure = true := by
  unfold readLine at hrun
  split at hrun
  · cases hrun
  · next hdepth =>
      have hmargin : m.depth = 0 := Nat.eq_zero_of_not_pos hdepth
      cases hkind : m.kind with
      | sectionStart =>
          refine .inr ⟨hmargin, rfl, ?_⟩
          -- each kind of line sets what is open: a section its own, a tab and an inclusion none
          simp only [hkind, CompileM.bind_run] at hrun
          split at hrun
          · cases hrun
            rfl
          · cases hrun
      | tabStart =>
          simp only [hkind, CompileM.bind_run] at hrun
          split at hrun
          · cases hrun
            exact absurd hsection (Outline.not_hasSection_openTab _ _ _)
          · cases hrun
      | directive =>
          simp only [hkind, CompileM.bind_run] at hrun
          split at hrun
          · cases hrun
            exact .inl hsection
          · cases hrun
      | inclusion =>
          simp only [hkind, CompileM.bind_run] at hrun
          split at hrun
          · cases hrun
            exact absurd hsection (Outline.not_hasSection_splice _ _)
          · cases hrun
      | _ =>
          simp only [hkind] at hrun
          exact .inl (yields_readElements c r d hrun hsection)

end Document

/-- Lines with a tag or a text have an element. -/
theorem yields_ne_nil_readTree (e : Expander) (r : Block.Reader) (m : Line) (ls : List SourceLine) :
    Yields (·.1 ≠ []) (Block.readTree e r m ls) := by
  unfold Block.readTree
  refine .bind_any fun head => ?_
  cases Block.runs.find? (·.tag = head.tag) with
  | none => exact .bind_any fun result => .pure (List.cons_ne_nil _ _)
  | some run => exact .bind_any fun result => .bind_any fun more => .pure (List.cons_ne_nil _ _)

/-! ### Sources -/

section Top

variable {loader : Loader} {e : Expander}
  (he : ∀ name values n c, Steps loader c ((e name values n).after c))
  {x : Line → CompileM (List Tab)} (hx : ∀ m c, Steps loader c ((x m).after c)) {G : Gap}

/-- Nothing is known of the context any more. -/
theorem Coupling.Outcome.forget {p : Context → Prop} {α : Type} {values : α → α → Prop}
    {r r' : EStateM.Result Stop Context α} (h : (Coupling.alone p).Outcome values r r') :
    (Coupling.alone fun _ => True).Outcome values r r' := by
  cases h with
  | ok hv hc => exact .ok hv ⟨hc.1, trivial⟩
  | error hs => exact hs.elim
  | excused hlax => exact .excused hlax

omit he hx in
/-- What the second run gives is known from a first run that does not fail. -/
theorem Coupling.Outcome.exists_of_ok {p : Context → Prop} {α : Type} {values : α → α → Prop}
    {a : α} {c : Context} {r' : EStateM.Result Stop Context α}
    (h : (Coupling.alone p).Outcome values (.ok a c) r') : ∃ a', r' = .ok a' c ∧ values a a' := by
  cases h with
  | @ok _ a' _ c' hv hc =>
      obtain ⟨rfl, -⟩ := hc
      exact ⟨a', rfl, hv⟩

/-- Two readers give the same and leave lines that go together. -/
def Gap.Gives {α : Type} (G : Gap) (r r' : α × List SourceLine) : Prop :=
  r'.1 = r.1 ∧ G.Beside r.2 r'.2

include he

/-- Elements need an open section; without one, only bodies take lines. -/
theorem outcome_readElements_gap {o : Outline} {c : Context} {l : SourceLine} {m : Line}
    (hscan : l.scan c.indentation = .ok m) (hsolid : l.isBlank = false) (hmargin : m.depth = 0)
    (hsection : o.HasSection →
      c.hasStructure = true ∧ ∃ mc, G.comment.scan c.indentation = .ok mc)
    {rest rest' : List SourceLine} (h : G.Behind l rest rest') :
    (Coupling.alone fun _ => True).Outcome G.Gives (Document.readElements e o m rest c)
      (Document.readElements e o m rest' c) := by
  have joined (hline : (Coupling.alone fun _ => True).Outcome G.Gives
      (Block.readLine e m rest c) (Block.readLine e m rest' c)) :
      (Coupling.alone fun _ => True).Outcome G.Gives (Document.readElements e o m rest c)
        (Document.readElements e o m rest' c) := by
    refine hline.bind ?_
    rintro ⟨_, ls⟩ ⟨elements, ls'⟩ ⟨rfl, hbeside⟩
    refine .ite (fun _ => .pure ⟨rfl, hbeside⟩) fun _ => ?_
    cases o.push? elements with
    | none => exact couples_of_failAt _ _ _ _
    | some o' => exact .pure ⟨rfl, hbeside⟩
  -- with an open section the comment can be measured; without one, elements fail in the first run
  by_cases hopen : o.HasSection
  · obtain ⟨hstructure, hcomment⟩ := hsection hopen
    have hblock := couples_readBlock_gap he hcomment
    have hline := couples_readLineWith_gap he hblock hcomment hscan hsolid h
    refine joined ((hline c c ⟨rfl, rfl, hstructure⟩).forget.imp ?_)
    exact fun _ _ ⟨heq, hleft⟩ => ⟨heq, hleft.beside⟩
  · by_cases htree : m.kind = .tag ∨ m.kind = .text ∨ m.kind = .escaped
    · -- The first run fails, because its elements have nowhere to go.
      have hnone : ∀ elements, o.push? elements = none := by
        intro elements
        rw [Option.eq_none_iff_forall_ne_some]
        exact fun o' hpush => hopen (Outline.hasSection_of_push? hpush)
      have hline : Block.readLine e m rest = Block.readTree e (Block.readBlock e) m rest := by
        unfold Block.readLine Block.readLineWith
        rcases htree with hkind | hkind | hkind <;> rw [hkind]
      unfold Document.readElements
      rw [hline, CompileM.bind_run]
      cases hrun : Block.readTree e (Block.readBlock e) m rest c with
      | error s d => exact .excused trivial
      | ok r d =>
          have hne := yields_ne_nil_readTree e _ m rest c r d hrun
          simp only [List.isEmpty_iff, hne, if_false, hnone]
          exact .excused trivial
    · have hzero : l.margin = 0 := by
        -- in the way of a line at the margin the comment is at the margin, too
        rw [(SourceLine.margin_inner_of_scan hscan hsolid).1, hmargin, Nat.mul_zero]
      have hcomment (hle : G.comment.margin ≤ l.margin) :
          ∃ mc, G.comment.scan c.indentation = .ok mc := by
        rw [hzero, Nat.le_zero] at hle
        exact SourceLine.scan_of_margin_zero hle G.isComment.isBlank _
      have hline := outcome_readLineWith_gap (fun _ _ _ _ => trivial) trivial hscan hsolid
        hcomment h he (r := Block.readBlock e) fun hkind => absurd hkind htree
      exact joined (hline.imp fun _ _ ⟨heq, hleft⟩ => ⟨heq, hleft.beside⟩)

include hx

/-- A line at the top level gives the same with the blank line and with the comment. -/
theorem outcome_readTopLine_gap {o : Outline} {c : Context} {l : SourceLine} {m : Line}
    (hscan : l.scan c.indentation = .ok m) (hsolid : l.isBlank = false)
    (hsection : o.HasSection →
      c.hasStructure = true ∧ ∃ mc, G.comment.scan c.indentation = .ok mc)
    {rest rest' : List SourceLine} (h : G.Behind l rest rest') :
    (Coupling.alone fun _ => True).Outcome G.Gives (Document.readLine e x o m rest c)
      (Document.readLine e x o m rest' c) := by
  have hp : Lasting loader fun _ => True := fun _ _ _ _ => trivial
  have hparts := (way_steps loader).effect.congruence
  have hheading := hparts.heading (f := e) he
  unfold Document.readLine
  split
  · exact .excused trivial
  · next hdepth =>
      have hmargin : m.depth = 0 := Nat.eq_zero_of_not_pos hdepth
      cases hkind : m.kind with
      | sectionStart =>
          refine .bind (couples_of_steps hp (hheading m _) c c ⟨rfl, trivial⟩) ?_
          rintro _ heading ⟨rfl, -⟩
          refine .bind (couples_of_steps hp (hparts.openSection o heading _)) ?_
          rintro _ o' ⟨rfl, -⟩
          exact .pure ⟨rfl, h.beside⟩
      | tabStart =>
          refine .bind (couples_of_steps hp (hheading m _) c c ⟨rfl, trivial⟩) ?_
          rintro _ heading ⟨rfl, -⟩
          refine .bind (couples_of_steps hp (hparts.openTab o heading)) ?_
          rintro _ o' ⟨rfl, -⟩
          exact .pure ⟨rfl, h.beside⟩
      | directive =>
          refine .bind (couples_of_steps hp (hparts.directive _ _) c c ⟨rfl, trivial⟩) ?_
          exact fun _ _ _ => .pure ⟨rfl, h.beside⟩
      | inclusion =>
          refine .bind (couples_of_steps hp (hx m) c c ⟨rfl, trivial⟩) ?_
          rintro _ tabs ⟨rfl, -⟩
          exact .pure ⟨rfl, h.beside⟩
      | _ => exact outcome_readElements_gap he hscan hsolid hmargin hsection h

/-- The lines of a source, from a context on. While a section is open, the comment can be
measured; the induction is on the number of lines that are left. -/
theorem readTop_gap {d : Context} (hunit : d.indentation = G.unit) {ls ls' : List SourceLine}
    (h : G.Beside ls ls') {o final : Outline} {c : Context}
    (hsection : ls' = ls ∨ (o.HasSection →
      c.hasStructure = true ∧ ∃ mc, G.comment.scan G.unit = .ok mc))
    (hrun : Document.readTop e x o ls c = .ok final d) :
    Document.readTop e x o ls' c = .ok final d := by
  induction hlength : ls.length using Nat.strongRecOn generalizing ls ls' o c with
  | ind n ih =>
      rcases hsection with rfl | hsection
      · exact hrun
      have hparts := (way_steps loader).effect.congruence
      have hsteps : Steps loader c d :=
        CompileM.after_of_ok hrun ▸ hparts.readTop (f := e) (y := x) he hx _ o ls c
      rw [Document.readTop_eq] at hrun ⊢
      rcases h.skipSilent with ⟨hnil, hnil'⟩ | ⟨l, rest, rest', hcons, hcons', hbehind⟩
      · rw [hnil] at hrun
        rwa [hnil']
      · have hsolid := isBlank_of_skipSilent hcons
        have hsuffix : skipSilent ls <:+ ls := List.dropWhile_suffix _
        rw [hcons] at hrun hsuffix
        rw [hcons']
        cases hbehind with
        | same => exact hrun
        | @gap above hapart =>
            simp only [CompileM.bind_run, CompileM.scan] at hrun ⊢
            cases hscan : l.scan c.indentation with
            | error err =>
                simp only [hscan] at hrun
                cases hrun
            | ok m =>
                simp only [hscan] at hrun ⊢
                -- once a section is open the prologue is settled, so its unit is the one at the end
                have hsection' (hopen : o.HasSection) : c.hasStructure = true ∧
                    ∃ mc, G.comment.scan c.indentation = .ok mc := by
                  obtain ⟨hstructure, hcomment⟩ := hsection hopen
                  have hsame := (samePrologue_of_steps hsteps hstructure).2.indentation
                  exact ⟨hstructure, hsame ▸ hunit ▸ hcomment⟩
                have hline := outcome_readTopLine_gap he hx hscan hsolid hsection' (.gap hapart)
                have heffect := hparts.readTopLine (f := e) (y := x) he hx o m
                  (above ++ G.blank :: G.below) c
                cases hread : Document.readLine e x o m (above ++ G.blank :: G.below) c with
                | error s after =>
                    rw [hread] at hrun
                    cases hrun
                | ok r after =>
                    rw [CompileM.after_of_ok hread] at heffect
                    rw [hread] at hrun hline
                    obtain ⟨r', hread', houtline, hbeside⟩ := hline.exists_of_ok
                    rw [hread']
                    dsimp only at hrun ⊢
                    rw [houtline]
                    have hlt := Nat.lt_of_le_of_lt (Document.suffix_of_readLine hread).length_le
                      hsuffix.length_le
                    -- a section that is open behind the line was open before, or the line opened it
                    refine ih _ (hlength ▸ hlt) hbeside (.inr fun hopen => ?_) hrun rfl
                    rcases Document.hasSection_of_readLine hread hopen with
                      hbefore | ⟨hmargin, hkind, hstructure⟩
                    · obtain ⟨hstructure, hcomment⟩ := hsection hbefore
                      exact ⟨(samePrologue_of_steps heffect hstructure).1, hcomment⟩
                    · have hhead := SourceLine.head?_of_scan hscan hmargin
                        (LineKind.head?_of_ofContent hkind rfl)
                      have hlevel := hapart.1.level hhead
                      cases hmc : G.comment.scan G.unit with
                      | ok mc => exact ⟨hstructure, mc, rfl⟩
                      | error err =>
                          rw [hmc] at hlevel
                          cases hlevel

end Top

/-! ### One line less -/

/-- The source without its `k`-th line. -/
def withoutLine (k : Nat) (source : Text) : Text :=
  Text.join ['\n'] ((Text.splitLines source).eraseIdx k)

/-- The lines that say something are those of the source, but for the one that is left out. -/
theorem filter_textsOf_withoutLine {k : Nat} {source : Text}
    (hk : k < (Text.splitLines source).length) :
    (SourceLine.textsOf (withoutLine k source)).filter (!Text.allBlank ·)
      = ((SourceLine.textsOf source).eraseIdx k).filter (!Text.allBlank ·) := by
  have hlines : ∀ l ∈ (Text.splitLines source).eraseIdx k, '\n' ∉ l := fun l hl =>
    Text.notMem_of_mem_splitLines (List.mem_of_mem_eraseIdx hl)
  have hsolid : Text.solidLines (withoutLine k source)
      = ((Text.splitLines source).eraseIdx k).filter (!Text.allBlank ·) := by
    rw [withoutLine, Text.solidLines_join]
    change List.flatMap (fun t => (Text.splitLines t).filter (!Text.allBlank ·)) _ = _
    rw [← List.filter_flatMap, Text.flatMap_splitLines hlines]
  have hblank : (fun t => !Text.allBlank t) ∘ List.filter (· ≠ '\r')
      = fun t => !Text.allBlank t := by
    funext t
    exact congrArg (!·) (SourceLine.allBlank_filter_carriage t)
  rw [SourceLine.filter_textsOf, hsolid, SourceLine.textsOf_eq,
    List.eraseIdx_append_of_lt_length (by simpa using hk), List.filter_append, List.eraseIdx_map,
    List.filter_map, hblank]
  exact (List.append_nil _).symm

/-- Numbering lines leaves their texts as they are. -/
theorem map_text_numberFrom (first : Nat) (ts : List Text) :
    (SourceLine.numberFrom first ts).map (·.text) = ts := by
  induction ts generalizing first with
  | nil => rfl
  | cons t ts ih => rw [SourceLine.numberFrom, List.map_cons, ih]

/-- A line of a source has the number of the lines above it. -/
theorem lines_of_ofSource {source : Text} {above below : List SourceLine} {mark : SourceLine}
    (h : SourceLine.ofSource source = above ++ mark :: below) :
    mark.number = above.length ∧
      SourceLine.textsOf source = above.map (·.text) ++ mark.text :: below.map (·.text) ∧
      ∀ t, above ++ ⟨mark.number, t⟩ :: below
        = SourceLine.numberFrom 0 (above.map (·.text) ++ t :: below.map (·.text)) := by
  have htexts := congrArg (List.map (·.text)) h
  rw [SourceLine.ofSource, map_text_numberFrom, List.map_append, List.map_cons] at htexts
  rw [SourceLine.ofSource, htexts, SourceLine.numberFrom_append, Nat.zero_add, List.length_map]
    at h
  obtain ⟨habove, hmark⟩ := List.append_inj h (by
    rw [SourceLine.length_numberFrom, List.length_map])
  rw [SourceLine.numberFrom, List.cons.injEq] at hmark
  obtain ⟨hmark, hbelow⟩ := hmark
  have hnumber : mark.number = above.length := congrArg (·.number) hmark.symm
  refine ⟨hnumber, htexts, fun t => ?_⟩
  rw [SourceLine.numberFrom_append, habove, Nat.zero_add, List.length_map, SourceLine.numberFrom,
    hbelow, hnumber]

section Source

variable {source : Text} {above below : List SourceLine} {mark : SourceLine}
  (hsource : SourceLine.ofSource source = above ++ mark :: below) (hsolid : mark.isBlank = false)

include hsource hsolid

/-- Without the line, the source has the lines that it has with a blank one in its place, but
for blank lines. -/
theorem lines_withoutLine :
    (blankLines (fun _ _ _ => True) []).Lines
      (SourceLine.ofSource (withoutLine mark.number source))
      (above ++ ⟨mark.number, []⟩ :: below) := by
  obtain ⟨hnumber, htexts, hlines⟩ := lines_of_ofSource hsource
  have hk : mark.number < (Text.splitLines source).length := by
    have htext : (SourceLine.textsOf source)[mark.number]? = some mark.text := by
      simp [htexts, hnumber]
    rw [SourceLine.textsOf_eq] at htext
    by_contra hge
    rw [List.getElem?_append_right (by simpa using Nat.le_of_not_lt hge), List.getElem?_singleton]
      at htext
    split at htext
    · rw [SourceLine.isBlank, ← Option.some.inj htext] at hsolid
      cases hsolid
    · cases htext
  rw [hlines, SourceLine.ofSource]
  refine Coupling.lines_of_solid trivial rfl id ?_ ?_ 0 0
  swap
  · exact fun t _ ht n n' => ⟨rfl, ht, trivial⟩
  rw [filter_textsOf_withoutLine hk, htexts, hnumber, List.map_id,
    List.eraseIdx_append_of_length_le (by simp)]
  simp [Text.allBlank]

/-- The source without the line is read like the one with a blank line in its place. -/
theorem couples_readTop_withoutLine (loader : Loader) (depth nesting : Nat) (base : Text) :
    (blankLines (fun _ _ _ => True) []).Couples Eq
      (Document.readTop (expander depth) (Document.readInclusion loader
        (Document.readNested loader (expander depth) nesting) base) ∅
        (SourceLine.ofSource (withoutLine mark.number source)))
      (Document.readTop (expander depth) (Document.readInclusion loader
        (Document.readNested loader (expander depth) nesting) base) ∅
        (above ++ ⟨mark.number, []⟩ :: below)) := by
  refine Coupling.couples_readTop rfl (blankLines_expands depth _ []) (fun m m' hm _ => ?_)
    (Nat.le_refl _) (Nat.le_refl _) ∅ (lines_withoutLine hsource hsolid)
  refine Coupling.couples_readInclusion (J := fun file => blankLines (fun _ _ _ => True) [file])
    ?_ (blankLines_opens _ []) loader (fun file text _ => ?_) base hm
  · rintro c _ ⟨-, templates, rfl, -⟩
    rfl
  · exact blankLines_readNested loader depth (fun _ _ _ => trivial) nesting
      (List.cons_ne_nil file []) _ text

end Source

/-! ### Compiling -/

/-- A source compiles if its lines can be read. -/
theorem Document.compileText_eq_ok {loader : Loader} {depth : Nat} {source : Text}
    {d : Document} : compileText loader depth source = .ok d ↔
      ∃ o after, readTop (expander depth) (readInclusion loader (readNested loader
        (expander depth) loader.locations.length) ['.']) ∅ (SourceLine.ofSource source) .start
          = .ok o after ∧ d = ⟨after.metadata, o.finish, after.templates⟩ := by
  unfold compileText compileTextWith ofRun readAll
  rw [readNested, readSource_eq, map_eq_pure_bind, CompileM.bind_run]
  cases readTop (expander depth) _ ∅ (SourceLine.ofSource source) .start with
  | error s after => simp
  | ok o after => simp [eq_comm]

/-- A comment that is in nobody's way does not matter: if the source compiles without it, the
source with it gives the same tabs and metadata. -/
theorem compileText_comment (loader : Loader) (depth : Nat) {source : Text}
    {above below : List SourceLine} {mark : SourceLine}
    (hsource : SourceLine.ofSource source = above ++ mark :: below) (hcomment : mark.IsComment)
    {d : Document}
    (hrun : Document.compileText loader depth (withoutLine mark.number source) = .ok d)
    (hapart : Apart (.ofWidth (d.metadata.spaces.getD 0)) mark below above) :
    ∃ d', Document.compileText loader depth source = .ok d' ∧ d'.tabs = d.tabs ∧
      d'.metadata = d.metadata := by
  obtain ⟨o, after, hwithout, rfl⟩ := Document.compileText_eq_ok.1 hrun
  have hblank := couples_readTop_withoutLine hsource hcomment.isBlank loader depth
    -- first without the line and with a blank one, then with the blank one and with the comment
    loader.locations.length ['.'] .start .start ⟨rfl, ∅, rfl, .empty⟩
  rw [hwithout] at hblank
  generalize hread : Document.readTop (expander depth) _ ∅ (above ++ ⟨mark.number, []⟩ :: below)
    .start = r at hblank
  cases hblank with
  | @ok _ _ _ after' houtline hafter =>
      obtain ⟨-, templates, rfl, -⟩ := hafter
      subst houtline
      obtain ⟨ids, htrace⟩ := (way_trace loader).effect.readTop depth loader.locations.length
        ['.'] _ ∅ (above ++ ⟨mark.number, []⟩ :: below) .start
      have hunit := (Coherent.start.trace (CompileM.after_of_ok hread ▸ htrace)).unit
      have hsteps := (way_steps loader).effect
      have hgap := readTop_gap (hsteps.congruence.expander depth)
        (hsteps.readInclusion depth loader.locations.length ['.'])
        (G := ⟨_, ⟨mark.number, []⟩, mark, below, rfl, hcomment⟩) hunit (.gap hapart)
        (.inr fun ⟨tab, s, hcurrent⟩ => nomatch hcurrent) hread
      refine ⟨⟨after.metadata, o.finish, templates⟩, ?_, rfl, rfl⟩
      rw [Document.compileText_eq_ok, hsource]
      exact ⟨o, _, hgap, rfl⟩

/-- A comment among the children of an item. -/
def itemsSource : Text := "# s\n$ k\n\ta: b\n.uli a\n\t.b x\n\t> c\n\t.i y\n.uli b".toList

theorem compileText_comment_child :
    ∃ above mark below d, SourceLine.ofSource itemsSource = above ++ mark :: below ∧
      mark.IsComment ∧
      Document.compileText (∅ : Library).loader 1 (withoutLine mark.number itemsSource) = .ok d ∧
      Apart (.ofWidth (d.metadata.spaces.getD 0)) mark below above ∧
      ∃ d', Document.compileText (∅ : Library).loader 1 itemsSource = .ok d' ∧
        d'.tabs = d.tabs ∧ d'.metadata = d.metadata := by
  obtain ⟨d, hd, hspaces⟩ : ∃ d, Document.compileText (∅ : Library).loader 1
      (withoutLine 5 itemsSource) = .ok d ∧ d.metadata.spaces = none := by
    decide +kernel
  have hsource : SourceLine.ofSource itemsSource = (SourceLine.ofSource itemsSource).take 5 ++
      ⟨5, "\t> c".toList⟩ :: (SourceLine.ofSource itemsSource).drop 6 := by
    decide +kernel
  have hcomment : (⟨5, "\t> c".toList⟩ : SourceLine).IsComment := by decide
  have hapart : Apart (.ofWidth (d.metadata.spaces.getD 0)) ⟨5, "\t> c".toList⟩
      ((SourceLine.ofSource itemsSource).drop 6) ((SourceLine.ofSource itemsSource).take 5) := by
    rw [hspaces]
    decide +kernel
  exact ⟨_, _, _, d, hsource, hcomment, hd, hapart,
    compileText_comment _ 1 hsource hcomment hd hapart⟩

/-- A comment behind the children of an item. -/
def splitSource : Text := "# s\n.uli a\n\t.b x\n\t> c\n.uli b".toList

/-- Behind the children of an item, in the block of the item, a comment does matter: the next
item does not go on with the run. -/
theorem compileText_comment_splits :
    (∀ l ∈ SourceLine.ofSource splitSource, l.isBlank = false → (l.scan .tabs).isOk = true) ∧
      SourceLine.ofSource splitSource = (SourceLine.ofSource splitSource).take 3 ++
        ⟨3, "\t> c".toList⟩ :: (SourceLine.ofSource splitSource).drop 4 ∧
      (⟨3, "\t> c".toList⟩ : SourceLine).IsComment ∧
      (∃ d, Document.compileText (∅ : Library).loader 1 (withoutLine 3 splitSource) = .ok d ∧
        d.sections.map (·.elements.length) = [1]) ∧
      ∃ d, Document.compileText (∅ : Library).loader 1 splitSource = .ok d ∧
        d.sections.map (·.elements.length) = [2] := by
  refine ⟨by decide +kernel, by decide +kernel, by decide, by decide +kernel, by decide +kernel⟩

end IndentMarkup
