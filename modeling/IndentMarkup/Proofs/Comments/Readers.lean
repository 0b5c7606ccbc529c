import IndentMarkup.Proofs.Comments.Lines
import IndentMarkup.Proofs.Settings

/-!
Readers of elements pass over a comment that is apart.

In a section the unit of indentation does not change any more. So the lines that a reader has
taken below a line are silent or deeper, as they are written, and where it looks for the next
item of a run all lines since the last item are such lines. Then the conditions that a comment
has to meet say that it is not in the way.

* `Coupling.alone` — two runs from one context.
* `Taken`, `Gap.Passed` — the lines that a reader takes and leaves.
* `outcome_takeBody_gap`, `couples_readItems_gap` — the two ways of looking ahead that do not
  pass over comments.
* `couples_readLineWith_gap`, `couples_readBlock_gap` — the elements of a line and of a block are
  the same.
-/

namespace IndentMarkup

open Context

/-! ### Tokens of items -/

namespace Shorthand

/-- A step behind the name keeps the name. -/
theorem Progress.tag_of_step {x : Extent} {p q : Progress} {c : Char} (h : p.step x c = .ok q)
    (hp : p.place ≠ .name) : q.tag = p.tag ∧ q.place ≠ .name := by
  unfold Progress.step Progress.stepOutside at h
  grind

/-- So does the end of the text. -/
theorem Progress.tag_of_finish {p : Progress} {s : Shorthand} (h : p.finish = .ok s) :
    s.tag = p.tag := by
  unfold Progress.finish at h
  grind

/-- Behind its groups nothing is added to the name. -/
theorem tag_of_readFrom {x : Extent} {p : Progress} {column : Nat} {t : Text} {s : Shorthand}
    (h : readFrom x p column t = .ok s) (hp : p.place ≠ .name) : s.tag = p.tag := by
  induction t generalizing p column with
  | nil =>
      unfold readFrom at h
      split at h
      · next s' hfinish =>
          cases h
          exact Progress.tag_of_finish hfinish
      · cases h
  | cons c t ih =>
      unfold readFrom at h
      split at h
      · cases h
        rfl
      · split at h
        · next q hstep =>
            obtain ⟨htag, hq⟩ := Progress.tag_of_step hstep hp
            exact (ih h hq).trans htag
        · cases h

/-- The name reaches up to a space or an opening bracket. -/
theorem tag_of_readToken {t : Text} {s : Shorthand} (h : readToken t = .ok s) :
    s.tag = Block.itemToken t := by
  -- on the text, with what has been read of the name in front
  have from_name (t before : Text) (column : Nat)
      (hread : readFrom .token ⟨before, [], .name⟩ column t = .ok s) :
      s.tag = before ++ Block.itemToken t := by
    induction t generalizing before column with
    | nil =>
        cases hread
        simp [Block.itemToken]
    | cons c t ih =>
        unfold readFrom at hread
        by_cases hspace : c = ' '
        · simp [hspace, Progress.isOutside] at hread
          simp [← hread, Block.itemToken, Block.endsToken, hspace]
        · simp only [hspace, false_and, and_false, if_false] at hread
          split at hread
          -- an opening bracket ends the name, any other character becomes a part of it
          · next q hstep =>
              cases hopening : Bracket.opening? c with
              | some b =>
                  simp only [Progress.step, Progress.stepOutside, hopening, Except.ok.injEq]
                    at hstep
                  have htag := tag_of_readFrom hread (by simp [← hstep])
                  simp [htag, ← hstep, Block.itemToken, Block.endsToken, hopening]
              | none =>
                  simp only [Progress.step, Progress.stepOutside, hopening] at hstep
                  split at hstep
                  · cases hstep
                  · cases hstep
                    have hmore := ih _ _ hread
                    simp [hmore, Block.itemToken, Block.endsToken, hopening, hspace]
          · cases hread
  simpa using from_name t [] 0 h

end Shorthand

/-! ### Runs from one context -/

/-- Two runs from one context with a property; nothing is claimed when the first one fails. -/
def Coupling.alone (p : Context → Prop) : Coupling where
  context c c' := c' = c ∧ p c
  number _ _ := True
  column _ _ := True
  line _ _ := True
  measured _ := True
  stop _ _ _ _ := False
  lax := True
  loose := False
  tail := []

/-- A property of contexts that is not lost on the way. -/
def Lasting (loader : Loader) (p : Context → Prop) : Prop := ∀ c d, p c → Steps loader c d → p d

/-- A section has been opened, so the unit of indentation is settled. -/
def Settled (unit : Indentation) (c : Context) : Prop :=
  c.indentation = unit ∧ c.hasStructure = true

/-- It is not lost, as no directive is taken behind a section. -/
theorem lasting_settled (loader : Loader) (unit : Indentation) :
    Lasting loader (Settled unit) := by
  rintro c d ⟨hunit, hopen⟩ h
  obtain ⟨hstill, hsame⟩ := samePrologue_of_steps h hopen
  exact ⟨hsame.indentation.trans hunit, hstill⟩

section Alone

variable {loader : Loader} {p : Context → Prop} {α β : Type}

/-- The same action comes to the same. -/
theorem couples_of_steps (hp : Lasting loader p) {x : CompileM α}
    (h : ∀ c, Steps loader c (x.after c)) :
    (Coupling.alone p).Couples (fun a a' => a' = a ∧ ∃ c d, x c = .ok a d) x x := by
  rintro _ c ⟨rfl, hc⟩
  cases hrun : x c with
  | error s d => exact .excused trivial
  | ok a d => exact .ok ⟨rfl, c, d, hrun⟩ ⟨rfl, hp c d hc (CompileM.after_of_ok hrun ▸ h c)⟩

/-- A failure of the first run claims nothing. -/
theorem couples_of_failAt {values : α → β → Prop} (cause : Cause) (n : Nat)
    (column : Option Nat) (x' : CompileM β) :
    (Coupling.alone p).Couples values (CompileM.failAt cause n column) x' :=
  fun _ _ _ => .excused trivial

/-- In a section a line is measured by the unit that is settled. -/
theorem couples_scan_settled {unit : Indentation} (l : SourceLine) :
    (Coupling.alone (Settled unit)).Couples (fun m m' => m' = m ∧ l.scan unit = .ok m)
      (CompileM.scan l) (CompileM.scan l) := by
  rintro _ c ⟨rfl, rfl, hopen⟩
  unfold CompileM.scan
  cases hscan : l.scan c.indentation with
  | error e => exact .excused trivial
  | ok m => exact .ok ⟨rfl, rfl⟩ ⟨rfl, rfl, hopen⟩

end Alone

/-! ### What is taken -/

/-- The line is silent, or at least as deep as `depth`. -/
def SourceLine.AtLeast (unit : Indentation) (depth : Nat) (l : SourceLine) : Prop :=
  l.isSilent = true ∨ l.isBlank = false ∧ ∃ m, l.scan unit = .ok m ∧ depth ≤ m.depth

/-- A line that is deeper is one level deeper at least. -/
theorem SourceLine.DeeperThan.atLeast {unit : Indentation} {depth : Nat} {l : SourceLine}
    (h : l.DeeperThan unit depth) : l.AtLeast unit (depth + 1) :=
  h.imp Coupling.isSilent_of_isBlank fun ⟨hsolid, m, hm, hlt⟩ => ⟨hsolid, m, hm, hlt⟩

/-- A line that is deep enough is so for less. -/
theorem SourceLine.AtLeast.mono {unit : Indentation} {depth more : Nat} {l : SourceLine}
    (hle : depth ≤ more) (h : l.AtLeast unit more) : l.AtLeast unit depth :=
  h.imp_right fun ⟨hsolid, m, hm, hdeep⟩ => ⟨hsolid, m, hm, Nat.le_trans hle hdeep⟩

/-- A reader at some depth takes silent lines and lines that are deep enough. -/
def Taken (unit : Indentation) (depth : Nat) (ls rest : List SourceLine) : Prop :=
  ∃ taken, ls = taken ++ rest ∧ ∀ l ∈ taken, l.AtLeast unit depth

namespace Taken

variable {unit : Indentation} {depth : Nat} {ls rest last : List SourceLine}

/-- Nothing is taken at once. -/
theorem refl : Taken unit depth ls ls :=
  ⟨[], rfl, by simp⟩

/-- What is taken after what has been taken. -/
theorem trans (h : Taken unit depth ls rest) (h' : Taken unit depth rest last) :
    Taken unit depth ls last := by
  obtain ⟨taken, rfl, htaken⟩ := h
  obtain ⟨more, rfl, hmore⟩ := h'
  refine ⟨taken ++ more, by simp, fun l hl => ?_⟩
  exact (List.mem_append.1 hl).elim (htaken l) (hmore l)

/-- Lines that are deep enough are so for less. -/
theorem mono {more : Nat} (hle : depth ≤ more) (h : Taken unit more ls rest) :
    Taken unit depth ls rest := by
  obtain ⟨taken, hls, htaken⟩ := h
  exact ⟨taken, hls, fun l hl => (htaken l hl).mono hle⟩

/-- A line that is passed to is taken with the silent lines in front of it. -/
theorem of_dropWhile {silent : SourceLine → Bool} (hsilent : ∀ l, silent l = true → l.isSilent)
    {l : SourceLine} {m : Line} (hskip : ls.dropWhile silent = l :: rest)
    (hsolid : l.isBlank = false) (hscan : l.scan unit = .ok m) (hdepth : depth ≤ m.depth) :
    Taken unit depth ls rest := by
  refine ⟨ls.takeWhile silent ++ [l], ?_, fun t ht => ?_⟩
  · rw [List.append_assoc, List.singleton_append, ← hskip, List.takeWhile_append_dropWhile]
  · rcases List.mem_append.1 ht with ht | hl
    · exact .inl (hsilent t (List.all_eq_true.1 List.all_takeWhile t ht))
    · rw [List.mem_singleton.1 hl]
      exact .inr ⟨hsolid, m, hscan, hdepth⟩

end Taken

namespace Gap

variable (G : Gap)

/-- What two readers leave. -/
structure Left (unit : Indentation) (depth : Nat) (ls rest rest' : List SourceLine) : Prop where
  beside : G.Beside rest rest'
  taken : Taken unit depth ls rest

/-- Two readers give the same and leave lines that go together. -/
def Passed {α : Type} (unit : Indentation) (depth : Nat) (ls : List SourceLine)
    (r r' : α × List SourceLine) : Prop :=
  r'.1 = r.1 ∧ G.Left unit depth ls r.2 r'.2

/-- The next lines of two readers: none, or one line. -/
inductive Found (unit : Indentation) (ls : List SourceLine) :
    Option (Line × List SourceLine) → Option (Line × List SourceLine) → Prop
  | none : Found unit ls none none
  | some {l : SourceLine} {m : Line} {rest rest' : List SourceLine} : l.isBlank = false →
      l.scan unit = .ok m → (∀ depth ≤ m.depth, Taken unit depth ls rest) →
      G.Behind l rest rest' → Found unit ls (some (m, rest)) (some (m, rest'))

variable {G} {unit : Indentation} {depth more : Nat}
  {ls ls' rest rest' last last' : List SourceLine}

/-- Nothing has been taken yet. -/
theorem Left.refl (h : G.Beside ls ls') : G.Left unit depth ls ls ls' :=
  ⟨h, .refl⟩

/-- What is left after lines have been taken. -/
theorem Left.after (h : G.Left unit more rest last last') (hle : depth ≤ more)
    (htaken : Taken unit depth ls rest) : G.Left unit depth ls last last' :=
  ⟨h.beside, htaken.trans (h.taken.mono hle)⟩

end Gap

/-! ### Items -/

/-- The line of a tag has the tag of its token. -/
theorem yields_readTagged (m : Line) :
    Yields (fun head => head.tag = SourceLine.tagOfToken (Block.itemToken m.content))
      (Block.readTagged m) := by
  unfold Block.readTagged
  cases hs : Shorthand.readToken m.content with
  | error e => exact .failAt _ _ _
  | ok s =>
      dsimp only
      rw [Shorthand.tag_of_readToken hs]
      split
      · next tag htag => exact .pure (SourceLine.tagOfToken_of_tilde htag).symm
      · next hother => exact .pure (SourceLine.tagOfToken_of_no_tilde hother).symm

/-- So has a line that is found to be one. -/
theorem tag_of_readTag {m : Line} (hkind : m.kind = .tag) {c d : Context} {head : Block.TagLine}
    (h : Block.readTag m c = .ok head d) :
    head.tag = SourceLine.tagOfToken (Block.itemToken m.content) := by
  have htagged : Block.readTag m = Block.readTagged m := by
    unfold Block.readTag
    rw [hkind]
  rw [htagged] at h
  exact yields_readTagged m c head d h

/-- Text has no tag. -/
theorem yields_readTag_plain {m : Line} (h : m.kind = .text ∨ m.kind = .escaped) :
    Yields (·.tag = []) (Block.readTag m) := by
  unfold Block.readTag
  rcases h with hkind | hkind <;> rw [hkind]
  · exact .pure rfl
  · split
    · contradiction
    · exact .ite (fun _ => .pure rfl) fun _ => .pure rfl
    · exact .pure rfl
    · contradiction

/-- The line of an item has the token that can be read off it. -/
theorem itemToken?_of_readTag {l : SourceLine} {m : Line} {unit : Indentation}
    (hscan : l.scan unit = .ok m) (hsolid : l.isBlank = false)
    (hkind : m.kind = .tag ∨ m.kind = .text ∨ m.kind = .escaped) {c d : Context}
    {head : Block.TagLine} (hhead : Block.readTag m c = .ok head d) {run : Block.Run}
    (hrun : Block.runs.find? (·.tag = head.tag) = some run) :
    l.itemToken? = some (Block.itemToken m.content) := by
  -- a line with a tag shows its token; text has no tag and starts no run
  rcases hkind with hkind | hplain
  · rw [tag_of_readTag hkind hhead] at hrun
    have hinner := (SourceLine.margin_inner_of_scan hscan hsolid).2
    obtain ⟨t, ht⟩ := List.head?_eq_some_iff.1 (LineKind.head?_of_ofContent hkind rfl)
    have hdot : (Block.itemToken m.content).head? = some '.' := by
      have hends : Block.endsToken '.' = false := by decide
      simp [ht, Block.itemToken, hends]
    unfold SourceLine.itemToken?
    simp only [hinner, hdot, hrun, Option.isSome_some, and_self, if_true]
  · rw [yields_readTag_plain hplain c head d hhead] at hrun
    cases hrun

/-- A line that goes on with a run is an item of it itself. -/
theorem itemToken?_of_continues {l next : SourceLine} {token : Text}
    (hitem : l.itemToken? = some token) (hnext : Block.itemToken next.inner = token) :
    next.itemToken? = some token := by
  unfold SourceLine.itemToken? at hitem ⊢
  dsimp only at hitem ⊢
  split at hitem
  · next hrun =>
      cases hitem
      rw [hnext, if_pos hrun]
  · cases hitem

/-- The next line behind the comment is no item that goes on with a run, if no line has been
taken since the run's last item that is not deeper. -/
theorem Gap.Behind.not_continues {G : Gap} {unit : Indentation} {l : SourceLine} {m : Line}
    (hscan : l.scan unit = .ok m) (hsolid : l.isBlank = false) {token : Text}
    (hitem : l.itemToken? = some token) {ls ls' rest : List SourceLine} (h : G.Behind l ls ls')
    (htaken : Taken unit (m.depth + 1) ls rest) {above : List SourceLine}
    (habove : ∀ t ∈ above, t.isBlank = true) (heq : rest = above ++ G.blank :: G.below)
    {t : SourceLine} (ht : t ∈ firstSolid G.below) {mt : Line} (hmt : t.scan unit = .ok mt) :
    Block.continues token m.depth mt = false := by
  obtain ⟨taken, htaken, hdeep⟩ := htaken
  -- the comment stands behind what has been taken, or the lines have not come to it yet
  cases h with
  | same hbelow =>
      have hlength := hbelow.length_le
      simp [htaken, heq] at hlength
      omega
  | @gap before hapart =>
      have hbefore : before = taken ++ above := by
        rw [heq, ← List.append_assoc] at htaken
        exact List.append_cancel_right htaken
      -- all lines between the item and the comment are silent or deeper
      have hbetween : ∀ u ∈ before, u.isSilent = true ∨ l.margin < u.margin := by
        intro u hu
        rw [hbefore] at hu
        rcases List.mem_append.1 hu with hu | hu
        · rcases hdeep u hu with hsilent | ⟨hsolid', mu, hmu, hlt⟩
          · exact .inl hsilent
          · exact .inr (SourceLine.margin_lt_of_depth hscan hmu hsolid hsolid' hlt)
        · exact .inl (Coupling.isSilent_of_isBlank (habove u hu))
      have hapart' := hapart.1.run token hitem hbetween t ht
      have hsolid' := isBlank_of_firstSolid ht
      have hinner := (SourceLine.margin_inner_of_scan hmt hsolid').2
      rw [Bool.eq_false_iff]
      intro hcontinues
      simp only [Block.continues, Bool.and_eq_true, decide_eq_true_eq] at hcontinues
      obtain ⟨⟨hdepth, -⟩, htoken⟩ := hcontinues
      have hmargin := SourceLine.margin_eq_of_depth hscan hmt hsolid hsolid' hdepth
      exact hapart' hmargin (hinner ▸ htoken)

/-! ### Lines below a line -/

section Bodies

variable {loader : Loader} {p : Context → Prop} (hp : Lasting loader p) {c : Context} (hc : p c)
  {G : Gap} {l : SourceLine} {m : Line} (hscan : l.scan c.indentation = .ok m)
  (hsolid : l.isBlank = false)
  (hcomment : G.comment.margin ≤ l.margin → ∃ mc, G.comment.scan c.indentation = .ok mc)
  {ls ls' : List SourceLine} (h : G.Behind l ls ls')

include hc hscan hsolid hcomment h

/-- A body is taken alike on both sides, as the comment is not among its lines. -/
theorem outcome_takeBody_gap (hopens : l.opensBody = true) :
    (Coupling.alone p).Outcome (G.Passed c.indentation (m.depth + 1) ls)
      (Block.takeBody m.depth ls c) (Block.takeBody m.depth ls' c) := by
  unfold Block.takeBody
  -- what the first run takes the second one takes, too, and leaves it in front of the comment
  cases hrun : Block.takeDeeper c.indentation m.depth ls with
  | error e => exact .excused trivial
  | ok r =>
      obtain ⟨body, rest⟩ := r
      obtain ⟨rest', hrun', hbeside, taken, htaken, hdeep⟩ :=
        Gap.takeDeeper_behind hscan hsolid hopens hcomment h hrun
      rw [hrun']
      exact .ok ⟨rfl, hbeside, taken, htaken, fun t ht => (hdeep t ht).atLeast⟩ ⟨rfl, hc⟩

include hp

/-- Custom classes are read alike. -/
theorem outcome_readClass_gap (hkind : m.kind = .customClass) :
    (Coupling.alone p).Outcome (G.Left c.indentation (m.depth + 1) ls) (Block.readClass m ls c)
      (Block.readClass m ls' c) := by
  -- a custom class owns the lines below it
  have hopens : l.opensBody = true := by
    obtain ⟨t, ht⟩ := List.head?_eq_some_iff.1 (LineKind.head?_of_ofContent hkind rfl)
    simp only [SourceLine.opensBody, (SourceLine.margin_inner_of_scan hscan hsolid).2, ht]
  unfold Block.readClass
  dsimp only
  split
  · exact .excused trivial
  · refine (outcome_takeBody_gap hc hscan hsolid hcomment h hopens).bind ?_
    rintro ⟨_, rest⟩ ⟨body, rest'⟩ ⟨rfl, hleft⟩
    refine .bind (couples_of_steps hp ((way_steps loader).effect.congruence.addClass _ _ _)) ?_
    exact fun _ _ _ => .pure hleft

/-- Definitions are read alike. -/
theorem outcome_readDefinition_gap {signature : Text}
    (hcontent : m.content = '~' :: '+' :: signature) :
    (Coupling.alone p).Outcome (G.Left c.indentation (m.depth + 1) ls)
      (Block.readDefinition m signature ls c) (Block.readDefinition m signature ls' c) := by
  have hopens : l.opensBody = true := by
    simp only [SourceLine.opensBody, (SourceLine.margin_inner_of_scan hscan hsolid).2, hcontent]
  unfold Block.readDefinition
  cases Text.words signature with
  | nil => exact .excused trivial
  | cons name parameters =>
      dsimp only
      rw [CompileM.get_bind_run, CompileM.get_bind_run]
      refine (outcome_takeBody_gap hc hscan hsolid hcomment h hopens).bind ?_
      rintro ⟨_, rest⟩ ⟨body, rest'⟩ ⟨rfl, hleft⟩
      refine .bind (couples_of_steps hp ((way_steps loader).effect.congruence.define _ _ _ _)) ?_
      exact fun _ _ _ => .pure hleft

section Expander

variable {e : Expander} (he : ∀ name values n c, Steps loader c ((e name values n).after c))

include he

/-- Lines of templates are read alike. -/
theorem outcome_readTemplateLine_gap :
    (Coupling.alone p).Outcome (G.Passed c.indentation (m.depth + 1) ls)
      (Block.readTemplateLine e m ls c) (Block.readTemplateLine e m ls' c) := by
  have hparts := (way_steps loader).effect.congruence
  have hbeside : G.Left c.indentation (m.depth + 1) ls ls ls' := .refl h.beside
  unfold Block.readTemplateLine
  generalize hcontent : m.content = content
  split
  · next signature hcontent =>
      refine (outcome_readDefinition_gap hp hc hscan hsolid hcomment h hcontent).bind ?_
      exact fun _ _ hleft => .pure ⟨rfl, hleft⟩
  · refine .bind (couples_of_steps hp (hparts.undefine _ _) c c ⟨rfl, hc⟩) ?_
    exact fun _ _ _ => .pure ⟨rfl, hbeside⟩
  · refine .bind (couples_of_steps hp (he _ _ _) c c ⟨rfl, hc⟩) ?_
    rintro _ elements ⟨rfl, -⟩
    exact .pure ⟨rfl, hbeside⟩

/-- A line is read alike in front of the blank line and of the comment, provided that this is
so for lines with elements. -/
theorem outcome_readLineWith_gap {r : Block.Reader}
    (htree : m.kind = .tag ∨ m.kind = .text ∨ m.kind = .escaped →
      (Coupling.alone p).Outcome (G.Passed c.indentation m.depth ls) (Block.readTree e r m ls c)
        (Block.readTree e r m ls' c)) :
    (Coupling.alone p).Outcome (G.Passed c.indentation m.depth ls) (Block.readLineWith e r m ls c)
      (Block.readLineWith e r m ls' c) := by
  have hparts := (way_steps loader).effect.congruence
  have hbeside : G.Left c.indentation m.depth ls ls ls' := .refl h.beside
  unfold Block.readLineWith
  cases hkind : m.kind with
  | blank => exact .ok ⟨rfl, hbeside⟩ ⟨rfl, hc⟩
  | comment => exact .ok ⟨rfl, hbeside⟩ ⟨rfl, hc⟩
  | sectionStart => exact .excused trivial
  | tabStart => exact .excused trivial
  | inclusion => exact .excused trivial
  | directive =>
      dsimp only
      rw [CompileM.get_bind_run, CompileM.get_bind_run]
      cases c.isExpanding with
      | false => exact .excused trivial
      | true =>
          refine .bind (couples_of_steps hp (hparts.directive _ _) c c ⟨rfl, hc⟩) ?_
          exact fun _ _ _ => .pure ⟨rfl, hbeside⟩
  | customClass =>
      refine (outcome_readClass_gap hp hc hscan hsolid hcomment h hkind).bind ?_
      exact fun _ _ hleft => .pure ⟨rfl, hleft.after (Nat.le_succ _) .refl⟩
  | template =>
      have hline := outcome_readTemplateLine_gap hp hc hscan hsolid hcomment h he
      exact hline.imp fun _ _ ⟨heq, hleft⟩ => ⟨heq, hleft.after (Nat.le_succ _) .refl⟩
  | margin => exact .ok ⟨rfl, hbeside⟩ ⟨rfl, hc⟩
  | tag => exact htree (.inl hkind)
  | text => exact htree (.inr (.inl hkind))
  | escaped => exact htree (.inr (.inr hkind))

end Expander

end Bodies

/-! ### Readers -/

section Readers

variable {loader : Loader} {e : Expander}
  (he : ∀ name values n c, Steps loader c ((e name values n).after c)) {G : Gap}
  {unit : Indentation} {r : Block.Reader} {ls ls' : List SourceLine}

/-- The next line is the same on both sides, or there is none. -/
theorem couples_next_gap (h : G.Beside ls ls') :
    (Coupling.alone (Settled unit)).Couples (G.Found unit ls) (Block.next ls)
      (Block.next ls') := by
  unfold Block.next
  rcases h.skipSilent with ⟨hnil, hnil'⟩ | ⟨l, rest, rest', hcons, hcons', hbehind⟩
  · rw [hnil, hnil']
    exact .pure .none
  · have hsolid := isBlank_of_skipSilent hcons
    rw [hcons, hcons']
    refine .bind (couples_scan_settled l) ?_
    rintro _ m ⟨rfl, hm⟩
    refine .pure (.some hsolid hm (fun depth hle => ?_) hbehind)
    exact .of_dropWhile (fun _ => id) hcons hsolid hm hle

/-- Images look at the next line only. -/
theorem couples_readImage_gap (h : G.Beside ls ls') (m : Line) (head : Block.TagLine) :
    (Coupling.alone (Settled unit)).Couples (G.Passed unit (m.depth + 1) ls)
      (Block.readImage m head ls) (Block.readImage m head ls') := by
  unfold Block.readImage
  cases head.attributes.find? "href".toList with
  | none => exact couples_of_failAt _ _ _ _
  | some source =>
      refine .bind (couples_next_gap h) ?_
      rintro _ _ (_ | _)
      · exact .pure ⟨rfl, .refl h⟩
      · exact .ite (fun _ => couples_of_failAt _ _ _ _) fun _ => .pure ⟨rfl, .refl h⟩

section Children

variable (hr : ∀ depth ls ls', G.Beside ls ls' →
  (Coupling.alone (Settled unit)).Couples (G.Passed unit depth ls) (r depth ls) (r depth ls'))

include he hr

/-- An element is read alike if what is below it is. -/
theorem couples_readElement_gap (h : G.Beside ls ls') (m : Line) (head : Block.TagLine)
    (tag : Text) :
    (Coupling.alone (Settled unit)).Couples (G.Passed unit (m.depth + 1) ls)
      (Block.readElement e r m head tag ls) (Block.readElement e r m head tag ls') := by
  have hformat := (way_steps loader).effect.congruence.format (f := e) he
  unfold Block.readElement
  refine .ite (fun _ => couples_readImage_gap h m head) ?_
  intro _
  refine .ite (fun _ => .bind (.pure (R := Eq) rfl) ?_) fun _ =>
    .bind (couples_of_steps (lasting_settled loader unit) (hformat _ _ _)) ?_
  · rintro _ html rfl
    refine .bind (hr _ _ _ h) ?_
    rintro ⟨_, rest⟩ ⟨es, rest'⟩ ⟨rfl, hleft⟩
    exact .pure ⟨rfl, hleft⟩
  · rintro _ html ⟨rfl, -⟩
    refine .bind (hr _ _ _ h) ?_
    rintro ⟨_, rest⟩ ⟨es, rest'⟩ ⟨rfl, hleft⟩
    exact .pure ⟨rfl, hleft⟩

section Comment

variable (hcomment : ∃ mc, G.comment.scan unit = .ok mc) {l : SourceLine} {m : Line}
  (hscan : l.scan unit = .ok m) (hsolid : l.isBlank = false)

include hcomment hscan hsolid

/-- The items behind the item of a line, when lines below the item have been taken. The
induction carries the line of the last item along. -/
theorem couples_readItems_gap {token : Text} (hitem : l.itemToken? = some token) (inner : Text)
    (most : Nat) {start start' : List SourceLine} (hbehind : G.Behind l start start')
    (htaken : Taken unit (m.depth + 1) start ls) (h : G.Beside ls ls') :
    (Coupling.alone (Settled unit)).Couples (G.Passed unit m.depth ls)
      (Block.readItems e r token inner m.depth most ls)
      (Block.readItems e r token inner m.depth most ls') := by
  have hlasting := lasting_settled loader unit
  have hparts := (way_steps loader).effect.congruence
  induction most generalizing l m ls ls' start start' with
  | zero => exact .pure ⟨rfl, .refl h⟩
  | succ most ih =>
      rw [Block.readItems, Block.readItems]
      -- nothing is left, the next line stands on both sides, or the comment is next
      rcases h.skipBlank with ⟨hnil, hnil'⟩ | ⟨next, rest, rest', hcons, hcons', hnext⟩ |
        ⟨above, habove, heq, hbelow, hcons'⟩
      · rw [hnil, hnil']
        exact .pure ⟨rfl, .refl h⟩
      · have hsolid' := isBlank_of_skipBlank hcons
        rw [hcons, hcons']
        refine .bind (couples_scan_settled next) ?_
        rintro _ m' ⟨rfl, hm'⟩
        refine .ite (fun hcontinues => ?_) fun _ => .pure ⟨rfl, .refl h⟩
        simp only [Block.continues, Bool.and_eq_true, decide_eq_true_eq] at hcontinues
        obtain ⟨⟨hdepth, -⟩, htoken⟩ := hcontinues
        have hitem' : next.itemToken? = some token := by
          refine itemToken?_of_continues hitem ?_
          rwa [(SourceLine.margin_inner_of_scan hm' hsolid').2]
        refine .bind (couples_of_steps hlasting (hparts.readTag m')) ?_
        rintro _ head ⟨rfl, -⟩
        refine .bind (couples_readElement_gap he hr hnext.beside m' head inner) ?_
        rintro ⟨_, last⟩ ⟨item, last'⟩ ⟨rfl, hleft⟩
        rw [← hdepth]
        refine .bind (ih hm' hsolid' hitem' hnext hleft.taken hleft.beside) ?_
        rintro ⟨_, behind⟩ ⟨more, behind'⟩ ⟨rfl, hend⟩
        have hfirst : Taken unit m'.depth ls rest :=
          .of_dropWhile (fun _ => Coupling.isSilent_of_isBlank) hcons hsolid' hm' (Nat.le_refl _)
        have hdeeper := hleft.taken.mono (Nat.le_succ m'.depth)
        exact .pure ⟨rfl, hend.after (Nat.le_refl _) (hfirst.trans hdeeper)⟩
      · -- The second run stops at the comment; so does the first one at the line behind it.
        obtain ⟨mc, hmc⟩ := hcomment
        have hstop : Block.continues token m.depth mc = false := by
          simp [Block.continues, G.isComment.kind_ne_tag hmc]
        rintro _ c ⟨rfl, rfl, hopen⟩
        have hrun : CompileM.scan G.comment c = .ok mc c := by rw [CompileM.scan, hmc]
        rw [hcons', hbelow]
        dsimp only
        rw [CompileM.bind_run_ok hrun, hstop]
        -- behind the comment stands the end, a line that cannot be measured, or one that is no item
        cases hskip : skipBlank G.below with
        | nil => exact .ok ⟨rfl, .refl h⟩ ⟨rfl, rfl, hopen⟩
        | cons next rest =>
            have hfirst : next ∈ firstSolid G.below := by simp [firstSolid, hskip]
            dsimp only
            cases hscan' : next.scan c.indentation with
            | error err =>
                rw [CompileM.bind_run, CompileM.scan, hscan']
                exact .excused trivial
            | ok m' =>
                have hrun' : CompileM.scan next c = .ok m' c := by rw [CompileM.scan, hscan']
                rw [CompileM.bind_run_ok hrun',
                  hbehind.not_continues hscan hsolid hitem htaken habove heq hfirst hscan']
                exact .ok ⟨rfl, .refl h⟩ ⟨rfl, rfl, hopen⟩

/-- A tag is read alike with the items of its run. -/
theorem couples_readTree_gap (hkind : m.kind = .tag ∨ m.kind = .text ∨ m.kind = .escaped)
    (h : G.Behind l ls ls') :
    (Coupling.alone (Settled unit)).Couples (G.Passed unit m.depth ls) (Block.readTree e r m ls)
      (Block.readTree e r m ls') := by
  have hlasting := lasting_settled loader unit
  have hparts := (way_steps loader).effect.congruence
  unfold Block.readTree
  refine .bind (couples_of_steps hlasting (hparts.readTag m)) ?_
  rintro _ head ⟨rfl, c, d, hhead⟩
  cases hrun : Block.runs.find? (·.tag = head.tag) with
  | none =>
      refine .bind (couples_readElement_gap he hr h.beside m head _) ?_
      rintro ⟨_, rest⟩ ⟨es, rest'⟩ ⟨rfl, hleft⟩
      exact .pure ⟨rfl, hleft.after (Nat.le_succ _) .refl⟩
  | some run =>
      have hitem := itemToken?_of_readTag hscan hsolid hkind hhead hrun
      refine .bind (couples_readElement_gap he hr h.beside m head _) ?_
      rintro ⟨_, rest⟩ ⟨first, rest'⟩ ⟨rfl, hleft⟩
      dsimp only
      rw [hleft.beside.length_eq]
      refine .bind (couples_readItems_gap he hr hcomment hscan hsolid hitem run.inner _ h
        hleft.taken hleft.beside) ?_
      rintro ⟨_, last⟩ ⟨more, last'⟩ ⟨rfl, hend⟩
      exact .pure ⟨rfl, hend.after (Nat.le_refl _) (hleft.taken.mono (Nat.le_succ _))⟩

/-- In a section, lines are read alike in front of the blank line and of the comment. -/
theorem couples_readLineWith_gap (h : G.Behind l ls ls') :
    (Coupling.alone (Settled unit)).Couples (G.Passed unit m.depth ls)
      (Block.readLineWith e r m ls) (Block.readLineWith e r m ls') := by
  rintro _ c ⟨rfl, rfl, hopen⟩
  have hlasting := lasting_settled loader c.indentation
  have hsettled : Settled c.indentation c := ⟨rfl, hopen⟩
  refine outcome_readLineWith_gap hlasting hsettled hscan hsolid (fun _ => hcomment) h he ?_
  exact fun hkind => couples_readTree_gap he hr hcomment hscan hsolid hkind h c c ⟨rfl, hsettled⟩

end Comment

end Children

variable (hcomment : ∃ mc, G.comment.scan unit = .ok mc)

include he hcomment

/-- Blocks are read alike in front of the blank line and of the comment. -/
theorem couples_readBlock_gap (depth : Nat) (ls ls' : List SourceLine) (h : G.Beside ls ls') :
    (Coupling.alone (Settled unit)).Couples (G.Passed unit depth ls) (Block.readBlock e depth ls)
      (Block.readBlock e depth ls') := by
  -- on the bound for lines; the depth of the block is at most the depth of each line that it takes
  have within (most : Nat) : ∀ depth ls ls', G.Beside ls ls' →
      (Coupling.alone (Settled unit)).Couples (G.Passed unit depth ls)
        (Block.readWithin e most depth ls) (Block.readWithin e most depth ls') := by
    induction most with
    | zero => exact fun depth ls ls' h => .pure ⟨rfl, .refl h⟩
    | succ most ih =>
        intro depth ls ls' h
        rw [Block.readWithin, Block.readWithin]
        refine .bind (couples_next_gap h) ?_
        rintro _ _ (_ | ⟨hsolid, hscan, htaken, hbehind⟩)
        · exact .pure ⟨rfl, .refl h⟩
        · refine .ite (fun _ => .pure ⟨rfl, .refl h⟩) fun hdepth => ?_
          refine .ite (fun _ => couples_of_failAt _ _ _ _) fun _ => ?_
          have hle := Nat.le_of_not_lt hdepth
          refine .bind (couples_readLineWith_gap he ih hcomment hscan hsolid hbehind) ?_
          rintro ⟨_, rest⟩ ⟨es, rest'⟩ ⟨rfl, hleft⟩
          refine .bind (ih _ _ _ hleft.beside) ?_
          rintro ⟨_, last⟩ ⟨more, last'⟩ ⟨rfl, hend⟩
          have hline := (htaken depth hle).trans (hleft.taken.mono hle)
          exact .pure ⟨rfl, hend.after (Nat.le_refl _) hline⟩
  unfold Block.readBlock
  rw [h.length_eq]
  exact within _ depth ls ls' h

end Readers

end IndentMarkup
