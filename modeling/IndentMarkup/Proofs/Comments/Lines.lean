import IndentMarkup.Proofs.Boundary
import IndentMarkup.Proofs.Spacing.Lines
import IndentMarkup.Proofs.TagLines

/-!
Where a comment is passed over.

Readers of elements pass over comments as they do over blank lines. Two of the ways of looking
ahead do not: the lines that belong to a custom class or a template definition go on up to the
first line that is not deeper, whatever it says, and the items of a run go on over blank lines
only. So a comment is like a blank line if it stands neither in nor between such lines. What
this asks of the comment can be read off the source.

* `SourceLine.margin`, `SourceLine.opensBody`, `SourceLine.itemToken?` — what is read off a line.
* `Undisturbed`, `Apart` — the comment is in the way of no line above it.
* `Gap` — a comment, and the blank line that stands for it.
* `Gap.takeDeeper_behind` — the lines of a body are the same.
-/

namespace IndentMarkup

/-! ### What is read off a line -/

namespace SourceLine

/-- The number of spaces and tabs in front. -/
def margin (l : SourceLine) : Nat := (l.text.takeWhile Text.isIndent).length

/-- The line without them, and without blank characters at its end. -/
def inner (l : SourceLine) : Text := Text.trimEnd (l.text.dropWhile Text.isIndent)

/-- The line is a comment. -/
def IsComment (l : SourceLine) : Prop := (Text.trim l.text).head? = some '>'

instance (l : SourceLine) : Decidable l.IsComment := inferInstanceAs (Decidable (_ = _))

/-- The deeper lines below are taken as they are: a custom class or a template definition. -/
def opensBody (l : SourceLine) : Bool :=
  match l.inner with
  | '$' :: _ => true
  | '~' :: '+' :: _ => true
  | _ => false

/-- The tag that a token names, without its full stop and its tilde. -/
def tagOfToken (token : Text) : Text :=
  match Element.dropDot token with
  | '~' :: tag => tag
  | tag => tag

theorem tagOfToken_of_tilde {token tag : Text} (h : Element.dropDot token = '~' :: tag) :
    tagOfToken token = tag := by
  simp only [tagOfToken, h]

theorem tagOfToken_of_no_tilde {token : Text}
    (h : ∀ tag, Element.dropDot token = '~' :: tag → False) :
    tagOfToken token = Element.dropDot token := by
  unfold tagOfToken
  split
  · next tag htag => exact (h tag htag).elim
  · rfl

/-- The token of an item of a run. -/
def itemToken? (l : SourceLine) : Option Text :=
  let token := Block.itemToken l.inner
  if token.head? = some '.' ∧ (Block.runs.find? (·.tag = tagOfToken token)).isSome then some token
  else none

/-! What a line is measured as, in whatever unit. -/

/-- A measured line that says something has its depth in units in front, and its content behind. -/
theorem margin_inner_of_scan {unit : Indentation} {l : SourceLine} {m : Line}
    (h : l.scan unit = .ok m) (hsolid : l.isBlank = false) :
    l.margin = unit.unitLength * m.depth ∧ l.inner = m.content := by
  obtain ⟨hraw, hwidth, hspace, htab⟩ := Indentation.scan_ok h
  obtain ⟨blanks, hblanks, htext⟩ := Text.exists_eq_trimEnd_append l.text
  have hunit : ∀ c ∈ List.replicate m.width unit.unitChar, Text.isBlank c = true := by
    intro c hc
    rw [List.eq_of_mem_replicate hc]
    exact Indentation.isBlank_unitChar unit
  have hindent : ∀ c ∈ List.replicate m.width unit.unitChar, Text.isIndent c = true := by
    intro c hc
    rw [List.eq_of_mem_replicate hc]
    cases unit <;> rfl
  -- the line is its margin, its content and blank characters at its end
  have hwhole : l.text = List.replicate m.width unit.unitChar ++ (m.content ++ blanks) := by
    rw [← List.append_assoc, ← hraw]
    exact htext
  have hcontent : Text.allBlank m.content = false := by
    rw [Bool.eq_false_iff]
    intro hall
    rw [isBlank, hwhole, Text.allBlank, List.all_append, List.all_append, List.all_eq_true.2 hunit]
      at hsolid
    change (true && (Text.allBlank m.content && Text.allBlank blanks)) = false at hsolid
    rw [hall, hblanks] at hsolid
    cases hsolid
  -- the content has no blank character at its end, since the whole line was trimmed there
  have hends : Text.trimEnd m.content = m.content := by
    have htwice : Text.trimEnd (Text.trimEnd l.text) = Text.trimEnd l.text :=
      calc Text.trimEnd (Text.trimEnd l.text)
          = Text.trimEnd (Text.trimEnd l.text ++ blanks) :=
            (Text.trimEnd_append_of_allBlank _ hblanks).symm
        _ = Text.trimEnd l.text := by rw [← htext]
    rw [hraw, Text.trimEnd_append_of_not_allBlank _ hcontent] at htwice
    exact List.append_cancel_left htwice
  obtain ⟨c, t, ht⟩ : ∃ c t, m.content = c :: t := by
    cases hm : m.content with
    | nil => simp [hm, Text.allBlank] at hcontent
    | cons c t => exact ⟨c, t, rfl⟩
  have hc : Text.isIndent c = false := by
    rw [ht] at hspace htab
    simpa [Text.isIndent] using And.intro htab hspace
  have hbehind : (m.content ++ blanks).takeWhile Text.isIndent = [] ∧
      (m.content ++ blanks).dropWhile Text.isIndent = m.content ++ blanks := by
    simp [ht, hc]
  constructor
  · rw [margin, hwhole, List.takeWhile_append_of_pos hindent, hbehind.1, List.append_nil,
      List.length_replicate, hwidth]
  · rw [inner, hwhole, List.dropWhile_append_of_pos hindent, hbehind.2,
      Text.trimEnd_append_of_allBlank _ hblanks, hends]

/-- Only lines of a unit that is not empty have a depth. -/
theorem unitLength_pos_of_scan {unit : Indentation} {l : SourceLine} {m : Line}
    (h : l.scan unit = .ok m) (hdeep : 0 < m.depth) : 0 < unit.unitLength := by
  cases unit with
  | tabs => exact Nat.one_pos
  | spaces width =>
      rw [Indentation.unitLength, Nat.pos_iff_ne_zero]
      rintro rfl
      unfold scan Indentation.scan at h
      simp only [Indentation.unitLength, Nat.mod_zero, Nat.div_zero] at h
      grind

section Depth

variable {unit : Indentation} {l l' : SourceLine} {m m' : Line} (h : l.scan unit = .ok m)
  (h' : l'.scan unit = .ok m') (hsolid : l.isBlank = false) (hsolid' : l'.isBlank = false)
include h h' hsolid hsolid'

/-- A deeper line has more blank characters in front, in one unit. -/
theorem margin_lt_of_depth (hlt : m.depth < m'.depth) : l.margin < l'.margin := by
  rw [(margin_inner_of_scan h hsolid).1, (margin_inner_of_scan h' hsolid').1]
  exact Nat.mul_lt_mul_of_pos_left hlt (unitLength_pos_of_scan h' (Nat.zero_lt_of_lt hlt))

/-- A line that has no fewer blank characters in front is no less deep, in one unit. -/
theorem depth_le_of_margin (hle : l.margin ≤ l'.margin) : m.depth ≤ m'.depth := by
  rw [← Nat.not_lt]
  exact fun hlt => absurd (margin_lt_of_depth h' h hsolid' hsolid hlt) (Nat.not_lt.2 hle)

/-- Lines of one depth have the same number of blank characters in front, in one unit. -/
theorem margin_eq_of_depth (heq : m'.depth = m.depth) : l'.margin = l.margin := by
  rw [(margin_inner_of_scan h hsolid).1, (margin_inner_of_scan h' hsolid').1, heq]

end Depth

/-- A line without depth starts with its marker. -/
theorem head?_of_scan {unit : Indentation} {l : SourceLine} {m : Line} (h : l.scan unit = .ok m)
    (hdepth : m.depth = 0) {c : Char} (hc : m.content.head? = some c) : l.text.head? = some c := by
  obtain ⟨hraw, hwidth, -⟩ := Indentation.scan_ok h
  obtain ⟨blanks, -, htext⟩ := Text.exists_eq_trimEnd_append l.text
  obtain ⟨t, ht⟩ := List.head?_eq_some_iff.1 hc
  rw [hdepth, Nat.mul_zero] at hwidth
  rw [htext, hraw, hwidth, ht]
  rfl

/-- A line at the margin can be measured in every unit. -/
theorem scan_of_margin_zero {l : SourceLine} (hmargin : l.margin = 0) (hsolid : l.isBlank = false)
    (unit : Indentation) : ∃ m, l.scan unit = .ok m := by
  obtain ⟨blanks, -, htext⟩ := Text.exists_eq_trimEnd_append l.text
  have hne : Text.trimEnd l.text ≠ [] := by
    rw [ne_eq, Text.trimEnd_eq_nil_iff]
    exact Bool.eq_false_iff.1 hsolid
  obtain ⟨c, t, ht⟩ := List.exists_cons_of_ne_nil hne
  have hc : c ≠ '\t' ∧ c ≠ ' ' := by
    rw [margin, htext, ht] at hmargin
    cases hindent : Text.isIndent c with
    | true => simp [hindent] at hmargin
    | false => simpa [Text.isIndent] using hindent
  have hunit : c ≠ unit.unitChar := by
    cases unit
    · exact hc.1
    · exact hc.2
  exact ⟨⟨l.number, 0, 0, c :: t⟩, by simp [scan, Indentation.scan, ht, hc.1, hc.2, hunit]⟩

namespace IsComment

variable {l : SourceLine} (h : l.IsComment)
include h

/-- A comment is not blank. -/
theorem isBlank : l.isBlank = false := by
  rw [SourceLine.isBlank, Bool.eq_false_iff, ne_eq, ← Text.trim_eq_nil_iff]
  intro hnil
  rw [IsComment, hnil] at h
  cases h

/-- Readers of elements pass over a comment. -/
theorem isSilent : l.isSilent = true := by
  obtain ⟨t, ht⟩ := List.head?_eq_some_iff.1 h
  rw [SourceLine.isSilent, ht]
  exact decide_eq_true rfl

/-- A comment does not have a tag. -/
theorem kind_ne_tag {unit : Indentation} {m : Line} (hscan : l.scan unit = .ok m) :
    m.kind ≠ .tag := by
  intro hkind
  obtain ⟨u, hu⟩ := List.head?_eq_some_iff.1 (LineKind.head?_of_ofContent hkind rfl)
  obtain ⟨hraw, -⟩ := Indentation.scan_ok hscan
  obtain ⟨blanks, -, htext⟩ := Text.exists_eq_trimEnd_append l.text
  have hmargin : Text.allBlank (List.replicate m.width unit.unitChar) = true := by
    rw [Text.allBlank, List.all_eq_true]
    intro c hc
    rw [List.eq_of_mem_replicate hc]
    exact Indentation.isBlank_unitChar unit
  obtain ⟨v, hv⟩ := Text.trimEnd_cons_of_not_isBlank (by decide : Text.isBlank '.' = false)
    (u ++ blanks)
  have htrim : Text.trim l.text = '.' :: v :=
    calc Text.trim l.text
        = Text.trim (List.replicate m.width unit.unitChar ++ '.' :: (u ++ blanks)) := by
          rw [htext, hraw, hu]
          simp
      _ = Text.trim ('.' :: (u ++ blanks)) := Text.trim_append_left hmargin _
      _ = '.' :: v := hv
  rw [IsComment, htrim] at h
  cases h

end IsComment

end SourceLine

/-! ### In nobody's way -/

/-- The first line that is not blank. -/
def firstSolid (ls : List SourceLine) : Option SourceLine := (skipBlank ls).head?

/-- A line that the readers stop at, when they pass over blank ones, is not blank. -/
theorem isBlank_of_skipBlank {ls rest : List SourceLine} {l : SourceLine}
    (h : skipBlank ls = l :: rest) : l.isBlank = false := by
  have hhead := List.head?_dropWhile_not (·.isBlank) ls
  rwa [← skipBlank, h] at hhead

/-- A line that the readers stop at, when they pass over blank ones and comments, is neither. -/
theorem loud_of_skipSilent {ls rest : List SourceLine} {l : SourceLine}
    (h : skipSilent ls = l :: rest) : l.isSilent = false := by
  have hhead := List.head?_dropWhile_not (·.isSilent) ls
  rwa [← skipSilent, h] at hhead

theorem isBlank_of_loud {l : SourceLine} (h : l.isSilent = false) : l.isBlank = false := by
  rw [Bool.eq_false_iff] at h ⊢
  exact fun hblank => h (Coupling.isSilent_of_isBlank hblank)

theorem isBlank_of_skipSilent {ls rest : List SourceLine} {l : SourceLine}
    (h : skipSilent ls = l :: rest) : l.isBlank = false :=
  isBlank_of_loud (loud_of_skipSilent h)

theorem isBlank_of_firstSolid {ls : List SourceLine} {l : SourceLine} (h : l ∈ firstSolid ls) :
    l.isBlank = false := by
  obtain ⟨rest, hrest⟩ := List.head?_eq_some_iff.1 h
  exact isBlank_of_skipBlank hrest

/-- The comment is not in the way of a line above it, with the given lines in between: it is
neither in the line's body nor in front of a rest of the body, and it does not stand between
the line and the next item of the line's run. If the line opens a section, the comment is
indented by whole levels. -/
structure Undisturbed (unit : Indentation) (comment : SourceLine) (below : List SourceLine)
    (l : SourceLine) (between : List SourceLine) : Prop where
  body : l.opensBody = true →
    (∀ t ∈ between, t.isBlank = true ∨ l.margin < t.margin) →
    comment.margin ≤ l.margin ∧ ∀ t ∈ firstSolid below, t.margin ≤ l.margin
  run : ∀ token ∈ l.itemToken?,
    (∀ t ∈ between, t.isSilent = true ∨ l.margin < t.margin) →
    ∀ t ∈ firstSolid below, t.margin = l.margin → Block.itemToken t.inner ≠ token
  level : l.text.head? = some '#' → (comment.scan unit).isOk = true

instance (unit : Indentation) (comment : SourceLine) (below : List SourceLine) (l : SourceLine)
    (between : List SourceLine) : Decidable (Undisturbed unit comment below l between) :=
  decidable_of_iff (_ ∧ _ ∧ _) ⟨fun ⟨h₁, h₂, h₃⟩ => ⟨h₁, h₂, h₃⟩, fun h => ⟨h.1, h.2, h.3⟩⟩

/-- The comment is in the way of no line above it. -/
def Apart (unit : Indentation) (comment : SourceLine) (below : List SourceLine) :
    (above : List SourceLine) → Prop
  | [] => True
  | l :: above => Undisturbed unit comment below l above ∧ Apart unit comment below above

instance decidableApart (unit : Indentation) (comment : SourceLine) (below : List SourceLine) :
    ∀ above, Decidable (Apart unit comment below above)
  | [] => .isTrue trivial
  | _ :: above => @instDecidableAnd _ _ _ (decidableApart unit comment below above)

/-- What is asked of the lines above is asked of fewer lines, too. -/
theorem Apart.of_append {unit : Indentation} {comment : SourceLine} {below above : List SourceLine}
    (passed : List SourceLine) (h : Apart unit comment below (passed ++ above)) :
    Apart unit comment below above := by
  induction passed with
  | nil => exact h
  | cons l passed ih => exact ih h.2

/-! ### A blank line in the place of the comment -/

/-- A comment with the lines below it, and the blank line that stands in its place. -/
structure Gap where
  /-- The unit of indentation in sections. -/
  unit : Indentation
  blank : SourceLine
  comment : SourceLine
  below : List SourceLine
  isBlank : blank.isBlank = true
  isComment : comment.IsComment

namespace Gap

variable (G : Gap)

/-- The same lines with the blank line and with the comment, or lines behind both. -/
inductive Beside : List SourceLine → List SourceLine → Prop
  | same {ls : List SourceLine} : ls <:+ G.below → Beside ls ls
  | gap {above : List SourceLine} : Apart G.unit G.comment G.below above →
      Beside (above ++ G.blank :: G.below) (above ++ G.comment :: G.below)

/-- The lines behind a line. -/
inductive Behind (l : SourceLine) : List SourceLine → List SourceLine → Prop
  | same {ls : List SourceLine} : ls <:+ G.below → Behind l ls ls
  | gap {above : List SourceLine} : Apart G.unit G.comment G.below (l :: above) →
      Behind l (above ++ G.blank :: G.below) (above ++ G.comment :: G.below)

variable {G}

/-- The lines behind a line go together as lines do on their own. -/
theorem Behind.beside {l : SourceLine} {ls ls' : List SourceLine} (h : G.Behind l ls ls') :
    G.Beside ls ls' := by
  cases h with
  | same hbelow => exact .same hbelow
  | gap hapart => exact .gap hapart.2

/-- There are as many lines with the blank line as with the comment. -/
theorem Beside.length_eq {ls ls' : List SourceLine} (h : G.Beside ls ls') :
    ls'.length = ls.length := by
  cases h with
  | same => rfl
  | gap => simp

/-- Readers of elements pass over both. -/
theorem Beside.skipSilent {ls ls' : List SourceLine} (h : G.Beside ls ls') :
    (IndentMarkup.skipSilent ls = [] ∧ IndentMarkup.skipSilent ls' = []) ∨
    ∃ l rest rest', IndentMarkup.skipSilent ls = l :: rest ∧
      IndentMarkup.skipSilent ls' = l :: rest' ∧ G.Behind l rest rest' := by
  have hsame {ls : List SourceLine} (hbelow : ls <:+ G.below) :
      (IndentMarkup.skipSilent ls = [] ∧ IndentMarkup.skipSilent ls = []) ∨
      ∃ l rest rest', IndentMarkup.skipSilent ls = l :: rest ∧
        IndentMarkup.skipSilent ls = l :: rest' ∧ G.Behind l rest rest' := by
    cases hskip : IndentMarkup.skipSilent ls with
    | nil => exact .inl ⟨rfl, rfl⟩
    | cons l rest =>
        have hrest : l :: rest <:+ ls := hskip ▸ List.dropWhile_suffix _
        have hbehind := ((List.suffix_cons l rest).trans hrest).trans hbelow
        exact .inr ⟨l, rest, rest, rfl, rfl, .same hbehind⟩
  cases h with
  | same hbelow => exact hsame hbelow
  -- on the lines above: one that says something is found in both, else the search goes on
  | @gap above hapart =>
      induction above with
      | nil =>
          have hblank := Coupling.isSilent_of_isBlank G.isBlank
          simpa [IndentMarkup.skipSilent, hblank, G.isComment.isSilent] using
            hsame List.suffix_rfl
      | cons l above ih =>
          cases hl : l.isSilent with
          | true => simpa [IndentMarkup.skipSilent, hl] using ih hapart.2
          | false => exact .inr ⟨l, _, _, by simp [IndentMarkup.skipSilent, hl],
              by simp [IndentMarkup.skipSilent, hl], .gap hapart⟩

/-- Items of a run do not go on over the comment. -/
theorem Beside.skipBlank {ls ls' : List SourceLine} (h : G.Beside ls ls') :
    (IndentMarkup.skipBlank ls = [] ∧ IndentMarkup.skipBlank ls' = []) ∨
    (∃ l rest rest', IndentMarkup.skipBlank ls = l :: rest ∧
      IndentMarkup.skipBlank ls' = l :: rest' ∧ G.Behind l rest rest') ∨
    ∃ above, (∀ l ∈ above, l.isBlank = true) ∧ ls = above ++ G.blank :: G.below ∧
      IndentMarkup.skipBlank ls = IndentMarkup.skipBlank G.below ∧
      IndentMarkup.skipBlank ls' = G.comment :: G.below := by
  cases h with
  | same hbelow =>
      cases hskip : IndentMarkup.skipBlank ls with
      | nil => exact .inl ⟨rfl, rfl⟩
      | cons l rest =>
          have hrest : l :: rest <:+ ls := hskip ▸ List.dropWhile_suffix _
          have hbehind := ((List.suffix_cons l rest).trans hrest).trans hbelow
          exact .inr (.inl ⟨l, rest, rest, rfl, rfl, .same hbehind⟩)
  -- the search ends above, or it passes the blank line over and stops at the comment
  | @gap above hapart =>
      induction above with
      | nil =>
          refine .inr (.inr ⟨[], by simp, rfl, ?_, ?_⟩)
          · simp [IndentMarkup.skipBlank, G.isBlank]
          · simp [IndentMarkup.skipBlank, G.isComment.isBlank]
      | cons l above ih =>
          cases hl : l.isBlank with
          | false => exact .inr (.inl ⟨l, _, _, by simp [IndentMarkup.skipBlank, hl],
              by simp [IndentMarkup.skipBlank, hl], .gap hapart⟩)
          | true =>
              have hskip (ls : List SourceLine) :
                  IndentMarkup.skipBlank (l :: ls) = IndentMarkup.skipBlank ls := by
                simp [IndentMarkup.skipBlank, hl]
              rw [List.cons_append, List.cons_append, hskip, hskip]
              rcases ih hapart.2 with hend | hline | ⟨above', habove, heq, hbelow⟩
              · exact .inl hend
              · exact .inr (.inl hline)
              · refine .inr (.inr ⟨l :: above', ?_, by rw [heq, List.cons_append], hbelow⟩)
                exact List.forall_mem_cons.2 ⟨hl, habove⟩

end Gap

/-! ### Bodies -/

/-- Nothing is taken in front of a line that is not deeper. -/
theorem takeDeeper_of_firstSolid {unit : Indentation} {depth : Nat} {ls rest : List SourceLine}
    {body : List Text} (h : Block.takeDeeper unit depth ls = .ok (body, rest))
    (hfirst : ∀ l ∈ firstSolid ls, ∀ m, l.scan unit = .ok m → m.depth ≤ depth) : body = [] := by
  induction ls generalizing body rest with
  | nil =>
      cases h
      rfl
  | cons l ls ih =>
      unfold Block.takeDeeper at h
      cases hl : l.isBlank with
      | true =>
          have hskip : firstSolid (l :: ls) = firstSolid ls := by simp [firstSolid, skipBlank, hl]
          rw [if_pos hl] at h
          split at h
          · cases h
          · next more rest' hmore =>
              obtain rfl := ih hmore (hskip ▸ hfirst)
              cases h
              rfl
      | false =>
          have hskip : firstSolid (l :: ls) = some l := by simp [firstSolid, skipBlank, hl]
          rw [if_neg (by simp [hl])] at h
          split at h
          · cases h
          · next m hm =>
              rw [if_pos (hfirst l hskip m hm)] at h
              cases h
              rfl

/-- The lines of a body do not go on over a line that is not deeper. So it may say something
or not. -/
theorem takeDeeper_gap {unit : Indentation} {depth : Nat} {blank comment : SourceLine}
    (hblank : blank.isBlank = true) (hcomment : comment.isBlank = false)
    {above below rest : List SourceLine} {body : List Text}
    (hstop : (∀ l ∈ above, l.DeeperThan unit depth) →
      (∃ m, comment.scan unit = .ok m ∧ m.depth ≤ depth) ∧
      ∀ l ∈ firstSolid below, ∀ m, l.scan unit = .ok m → m.depth ≤ depth)
    (h : Block.takeDeeper unit depth (above ++ blank :: below) = .ok (body, rest)) :
    ∃ taken left, above = taken ++ left ∧ rest = left ++ blank :: below ∧
      (∀ l ∈ taken, l.DeeperThan unit depth) ∧
      Block.takeDeeper unit depth (above ++ comment :: below)
        = .ok (body, left ++ comment :: below) := by
  -- on the lines above: a blank one belongs to the body only if a deeper line is behind it
  induction above generalizing body rest with
  | nil =>
      obtain ⟨⟨m, hm, hdepth⟩, hbelow⟩ := hstop (by simp)
      unfold Block.takeDeeper at h
      rw [List.nil_append] at h
      simp only [if_pos hblank] at h
      split at h
      · cases h
      · next more rest' hrun =>
          obtain rfl := takeDeeper_of_firstSolid hrun hbelow
          cases h
          refine ⟨[], [], rfl, rfl, by simp, ?_⟩
          simp [Block.takeDeeper, hcomment, hm, hdepth]
  | cons l above ih =>
      have hstop' (hl : l.DeeperThan unit depth) := fun habove : ∀ t ∈ above, _ =>
        hstop (List.forall_mem_cons.2 ⟨hl, habove⟩)
      rw [List.cons_append] at h
      unfold Block.takeDeeper at h
      cases hl : l.isBlank with
      | true =>
          rw [if_pos hl] at h
          split at h
          · cases h
          · next more rest' hrun =>
              obtain ⟨taken, left, heq, rfl, htaken, hrun'⟩ := ih (hstop' (.inl hl)) hrun
              split at h <;> cases h
              · next hnone =>
                  refine ⟨[], l :: above, rfl, rfl, by simp, ?_⟩
                  simp [Block.takeDeeper, hl, hrun', hnone]
              · next hsome =>
                  refine ⟨l :: taken, left, congrArg (l :: ·) heq, rfl,
                    List.forall_mem_cons.2 ⟨.inl hl, htaken⟩, ?_⟩
                  simp [Block.takeDeeper, hl, hrun', hsome]
      | false =>
          rw [if_neg (by simp [hl])] at h
          split at h
          · cases h
          · next m hm =>
              split at h
              · next hdepth =>
                  cases h
                  refine ⟨[], l :: above, rfl, rfl, by simp, ?_⟩
                  simp [Block.takeDeeper, hl, hm, hdepth]
              · next hdepth =>
                  have hdeeper : l.DeeperThan unit depth :=
                    .inr ⟨hl, m, hm, Nat.lt_of_not_le hdepth⟩
                  split at h
                  · cases h
                  · next more rest' hrun =>
                      obtain ⟨taken, left, heq, rfl, htaken, hrun'⟩ := ih (hstop' hdeeper) hrun
                      cases h
                      refine ⟨l :: taken, left, congrArg (l :: ·) heq, rfl,
                        List.forall_mem_cons.2 ⟨hdeeper, htaken⟩, ?_⟩
                      simp [Block.takeDeeper, hl, hm, hdepth, hrun']

/-- The body of a line is the same with the blank line and with the comment. -/
theorem Gap.takeDeeper_behind {G : Gap} {unit : Indentation} {l : SourceLine} {m : Line}
    (hscan : l.scan unit = .ok m) (hsolid : l.isBlank = false) (hopens : l.opensBody = true)
    (hcomment : G.comment.margin ≤ l.margin → ∃ mc, G.comment.scan unit = .ok mc)
    {ls ls' rest : List SourceLine} (h : G.Behind l ls ls') {body : List Text}
    (hrun : Block.takeDeeper unit m.depth ls = .ok (body, rest)) :
    ∃ rest', Block.takeDeeper unit m.depth ls' = .ok (body, rest') ∧ G.Beside rest rest' ∧
      ∃ taken, ls = taken ++ rest ∧ ∀ t ∈ taken, t.DeeperThan unit m.depth := by
  cases h with
  | same hbelow =>
      obtain ⟨taken, rfl, -, htaken⟩ := Block.takeDeeper_takes hrun
      have hrest := (List.suffix_append taken rest).trans hbelow
      exact ⟨rest, hrun, .same hrest, taken, rfl, htaken⟩
  | @gap above hapart =>
      have hmargin {t : SourceLine} (ht : t.DeeperThan unit m.depth) :
          t.isBlank = true ∨ l.margin < t.margin := by
        rcases ht with hblank | ⟨hsolid', m', hscan', hdeep⟩
        · exact .inl hblank
        · exact .inr (SourceLine.margin_lt_of_depth hscan hscan' hsolid hsolid' hdeep)
      -- in a body's way the comment would be taken, so it and the lines below are no deeper
      have hstop (habove : ∀ t ∈ above, t.DeeperThan unit m.depth) :
          (∃ mc, G.comment.scan unit = .ok mc ∧ mc.depth ≤ m.depth) ∧
          ∀ t ∈ firstSolid G.below, ∀ m', t.scan unit = .ok m' → m'.depth ≤ m.depth := by
        obtain ⟨hle, hbelow⟩ := hapart.1.body hopens fun t ht => hmargin (habove t ht)
        obtain ⟨mc, hmc⟩ := hcomment hle
        refine ⟨⟨mc, hmc, ?_⟩, fun t ht m' hscan' => ?_⟩
        · exact SourceLine.depth_le_of_margin hmc hscan G.isComment.isBlank hsolid hle
        · exact SourceLine.depth_le_of_margin hscan' hscan (isBlank_of_firstSolid ht) hsolid
            (hbelow t ht)
      obtain ⟨taken, left, rfl, rfl, htaken, hrun'⟩ :=
        takeDeeper_gap G.isBlank G.isComment.isBlank hstop hrun
      exact ⟨_, hrun', .gap (hapart.2.of_append taken), taken, by simp, htaken⟩

end IndentMarkup
