import IndentMarkup.Proofs.Bodies
import IndentMarkup.Proofs.Characters

/-!
Lines with spaces for tabs.

A line that is indented by tabs and the line with a number of spaces for each of them have the
same depth and the same content, each measured in its own unit. What is done to the lines of a
body leaves their indentation alone, so it does not matter whether spaces are written for tabs
before or after.

* `Text.spaced`, `Text.TabsLead` — the change, and the lines that it does not spoil.
* `KeepsMargin` — what leaves the indentation of lines alone.
* `scan_spaced` — a line is measured alike in both units.
* `follows_dropBytes` — the lines below a definition are dedented alike.
-/

namespace IndentMarkup

/-! ### Tabs as spaces -/

namespace Text

/-- The text with `n` spaces for every tab. -/
def spaced (n : Nat) (t : Text) : Text :=
  t.flatMap fun c => if c = '\t' then List.replicate n ' ' else [c]

/-- The character can indent a line. -/
def isIndent (c : Char) : Bool := c = '\t' || c = ' '

/-- The tabs of the line stand in its indentation. -/
def TabsLead (t : Text) : Prop := '\t' ∉ t.dropWhile isIndent

instance (t : Text) : Decidable (TabsLead t) := inferInstanceAs (Decidable (_ ∉ _))

/-- Tabs and spaces are blank. -/
theorem isBlank_of_isIndent {c : Char} (h : isIndent c = true) : isBlank c = true := by
  have hc : c = '\t' ∨ c = ' ' := by simpa [isIndent] using h
  rcases hc with rfl | rfl <;> decide

/-- Such a line is a margin and a text without tabs. -/
theorem tabsLead_iff {t : Text} :
    TabsLead t ↔ ∃ margin rest, t = margin ++ rest ∧ (∀ c ∈ margin, isIndent c = true) ∧
      '\t' ∉ rest := by
  constructor
  · intro h
    exact ⟨t.takeWhile isIndent, t.dropWhile isIndent, List.takeWhile_append_dropWhile.symm,
      List.all_eq_true.1 List.all_takeWhile, h⟩
  · rintro ⟨margin, rest, rfl, hmargin, hrest⟩
    rw [TabsLead, List.dropWhile_append_of_pos hmargin]
    exact fun hmem => hrest (List.dropWhile_subset _ hmem)

/-- Tabs in front do not matter. -/
theorem tabsLead_replicate_append {k : Nat} {t : Text} :
    TabsLead (List.replicate k '\t' ++ t) ↔ TabsLead t := by
  have htabs : ∀ c ∈ List.replicate k '\t', isIndent c = true := by
    intro c hc
    rw [List.eq_of_mem_replicate hc]
    rfl
  rw [TabsLead, TabsLead, List.dropWhile_append_of_pos htabs]

section Spaced

variable (n : Nat)

/-- Texts one behind the other are changed one by one. -/
theorem spaced_append (s t : Text) : spaced n (s ++ t) = spaced n s ++ spaced n t :=
  List.flatMap_append

/-- A tab becomes spaces, another character stays. -/
theorem spaced_cons (c : Char) (t : Text) :
    spaced n (c :: t) = (if c = '\t' then List.replicate n ' ' else [c]) ++ spaced n t :=
  List.flatMap_cons

variable {n}

/-- Without tabs nothing changes. -/
theorem spaced_of_notMem {t : Text} (h : '\t' ∉ t) : spaced n t = t := by
  induction t with
  | nil => rfl
  | cons c t ih =>
      obtain ⟨hc, ht⟩ := not_or.1 (mt List.mem_cons.2 h)
      rw [spaced_cons, if_neg (Ne.symm hc), ih ht]
      rfl

/-- Tabs become as many times as many spaces. -/
theorem spaced_replicate (k : Nat) :
    spaced n (List.replicate k '\t') = List.replicate (n * k) ' ' := by
  induction k with
  | zero => rfl
  | succ k ih =>
      rw [List.replicate_succ, spaced_cons, if_pos rfl, ih, List.replicate_append_replicate,
        Nat.mul_succ, Nat.add_comm]

/-- No character but the space comes in. -/
theorem mem_spaced {c : Char} {t : Text} (h : c ∈ spaced n t) : c ∈ t ∨ c = ' ' := by
  obtain ⟨d, hd, hc⟩ := List.mem_flatMap.1 h
  split at hc
  · exact .inr (List.eq_of_mem_replicate hc)
  · exact .inl (List.mem_singleton.1 hc ▸ hd)

/-- A text is blank before and after. -/
theorem allBlank_spaced (t : Text) : allBlank (spaced n t) = allBlank t := by
  induction t with
  | nil => rfl
  | cons c t ih =>
      rw [allBlank] at ih ⊢
      rw [spaced_cons, List.all_append, ih]
      split
      · next htab =>
          have hspaces : (List.replicate n ' ').all isBlank = true :=
            List.all_eq_true.2 fun d hd => by rw [List.eq_of_mem_replicate hd]; decide
          rw [hspaces, htab]
          rfl
      · simp [allBlank]

/-- Spaces are trimmed where tabs are. -/
theorem trim_spaced {t : Text} (h : TabsLead t) : trim (spaced n t) = trim t := by
  obtain ⟨margin, rest, rfl, hmargin, hrest⟩ := tabsLead_iff.1 h
  have hspaced : ∀ c ∈ spaced n margin, isBlank c = true := by
    intro c hc
    rcases mem_spaced hc with hc | rfl
    · exact isBlank_of_isIndent (hmargin c hc)
    · decide
  rw [trim, trim, trimStart, trimStart, spaced_append, spaced_of_notMem hrest,
    List.dropWhile_append_of_pos hspaced,
    List.dropWhile_append_of_pos fun c hc => isBlank_of_isIndent (hmargin c hc)]

/-- The end of a line is trimmed before or after. -/
theorem trimEnd_spaced {t : Text} (h : TabsLead t) :
    trimEnd (spaced n t) = spaced n (trimEnd t) := by
  cases hblank : allBlank t with
  | true =>
      rw [trimEnd_eq_nil_iff.2 hblank, trimEnd_eq_nil_iff.2 ((allBlank_spaced t).trans hblank)]
      rfl
  | false =>
      -- the margin has characters of its own behind it, and those are trimmed alike
      obtain ⟨margin, rest, rfl, hmargin, hrest⟩ := tabsLead_iff.1 h
      have hsolid : allBlank rest = false := by
        have hmargin : allBlank margin = true :=
          List.all_eq_true.2 fun c hc => isBlank_of_isIndent (hmargin c hc)
        rw [allBlank, List.all_append] at hblank
        rw [allBlank] at hmargin
        rwa [hmargin, Bool.true_and] at hblank
      have hend : '\t' ∉ trimEnd rest := by
        obtain ⟨blanks, -, heq⟩ := exists_eq_trimEnd_append rest
        exact fun hmem => hrest (heq ▸ List.mem_append_left blanks hmem)
      rw [spaced_append, spaced_of_notMem hrest, trimEnd_append_of_not_allBlank _ hsolid,
        trimEnd_append_of_not_allBlank _ hsolid, spaced_append, spaced_of_notMem hend]

/-- Carriage returns are dropped before or after. -/
theorem filter_spaced (t : Text) :
    (spaced n t).filter (· ≠ '\r') = spaced n (t.filter (· ≠ '\r')) := by
  induction t with
  | nil => rfl
  | cons c t ih =>
      rw [spaced_cons, List.filter_append, ih]
      by_cases htab : c = '\t'
      · subst htab
        simp [spaced_cons]
      · by_cases hreturn : c = '\r'
        · simp [hreturn]
        · simp [htab, hreturn, spaced_cons]

/-- Spaces are written line by line. -/
theorem linewise_spaced (n : Nat) : Linewise (spaced n) where
  newline s t := by
    rw [spaced_append, spaced_cons]
    rfl
  blank ht := by rwa [allBlank_spaced]

end Spaced

end Text

/-- The lines of the source that is changed are the lines, changed. -/
theorem SourceLine.textsOf_spaced (n : Nat) (source : Text) :
    textsOf (source.spaced n) = (textsOf source).map (Text.spaced n) := by
  have hline : ∀ l ∈ (Text.splitLines source).map (Text.spaced n), '\n' ∉ l := by
    intro l hl hmem
    obtain ⟨raw, hraw, rfl⟩ := List.mem_map.1 hl
    rcases Text.mem_spaced hmem with hmem | hspace
    · exact Text.notMem_of_mem_splitLines hraw hmem
    · exact absurd hspace (by decide)
  have hfilter : List.filter (· ≠ '\r') ∘ Text.spaced n
      = Text.spaced n ∘ List.filter (· ≠ '\r') :=
    funext Text.filter_spaced
  rw [textsOf_eq, textsOf_eq, (Text.linewise_spaced n).splitLines, Text.flatMap_splitLines hline,
    List.map_append, List.map_map, List.map_map, hfilter]
  rfl

/-! ### Lines of bodies -/

/-- A line whose tabs stand in its indentation. -/
structure TabbedLine (t : Text) : Prop where
  newline : '\n' ∉ t
  tabs : t.TabsLead

/-- The lines of `t'` are those of `t` with spaces for tabs, but for blank ones. -/
abbrev SpacedLines (n : Nat) (t t' : Text) : Prop := Text.Follows TabbedLine (Text.spaced n) t t'

/-- One such line goes together with itself as it is changed. -/
theorem TabbedLine.follows {t : Text} (h : TabbedLine t) (n : Nat) :
    SpacedLines n t (t.spaced n) := by
  have hline : '\n' ∉ t.spaced n := by
    intro hmem
    rcases Text.mem_spaced hmem with hmem | hspace
    · exact h.newline hmem
    · exact absurd hspace (by decide)
  cases hblank : t.allBlank with
  | true => exact .of_allBlank hblank ((Text.allBlank_spaced t).trans hblank)
  | false =>
      constructor
      · simp [Text.solidLines, Text.splitLines_of_notMem h.newline,
          Text.splitLines_of_notMem hline, Text.allBlank_spaced, hblank]
      · intro l hl
        rw [Text.solidLines, Text.splitLines_of_notMem h.newline] at hl
        rw [List.mem_singleton.1 (List.mem_filter.1 hl).1]
        exact h

/-- The function leaves the indentation of lines alone and writes no tabs. -/
structure KeepsMargin (g : Text → Text) : Prop where
  margin {margin : Text} (rest : Text) : (∀ c ∈ margin, Text.isIndent c = true) →
    g (margin ++ rest) = margin ++ g rest
  plain {t : Text} : '\t' ∉ t → '\n' ∉ t → '\t' ∉ g t ∧ '\n' ∉ g t

namespace KeepsMargin

variable {g : Text → Text} (hg : KeepsMargin g) {l : Text} (hl : TabbedLine l)
include hg hl

/-- Writing spaces for tabs and what is done to the line come to the same in any order. -/
theorem spaced (n : Nat) : TabbedLine (g l) ∧ g (l.spaced n) = (g l).spaced n := by
  obtain ⟨margin, rest, rfl, hmargin, hrest⟩ := Text.tabsLead_iff.1 hl.tabs
  have hspaced : ∀ c ∈ margin.spaced n, Text.isIndent c = true := by
    intro c hc
    rcases Text.mem_spaced hc with hc | rfl
    · exact hmargin c hc
    · rfl
  obtain ⟨htab, hnewline⟩ :=
    hg.plain hrest fun hmem => hl.newline (List.mem_append_right margin hmem)
  rw [Text.spaced_append, Text.spaced_of_notMem hrest, hg.margin rest hmargin,
    hg.margin rest hspaced, Text.spaced_append, Text.spaced_of_notMem htab]
  refine ⟨⟨?_, Text.tabsLead_iff.2 ⟨margin, g rest, rfl, hmargin, htab⟩⟩, rfl⟩
  intro hmem
  rcases List.mem_append.1 hmem with hmem | hmem
  · exact hl.newline (List.mem_append_left rest hmem)
  · exact hnewline hmem

/-- So what is done to a line goes together with what is done to the changed line. -/
theorem follows (n : Nat) : SpacedLines n (g l) (g (l.spaced n)) := by
  obtain ⟨hline, hspaced⟩ := hg.spaced hl n
  rw [hspaced]
  exact hline.follows n

end KeepsMargin

/-- Dropping carriage returns leaves the indentation alone. -/
theorem keepsMargin_filter : KeepsMargin (List.filter (· ≠ '\r')) where
  margin {margin} rest hmargin := by
    rw [List.filter_append, List.filter_eq_self.2]
    intro c hc
    have hne : c ≠ '\r' := by
      rintro rfl
      exact absurd (hmargin _ hc) (by decide)
    simpa using hne
  plain htab hnewline :=
    ⟨fun hmem => htab (List.mem_filter.1 hmem).1,
      fun hmem => hnewline (List.mem_filter.1 hmem).1⟩

/-- So does a value without tabs and line feeds that comes for a reference. -/
theorem keepsMargin_reference {value : Text} (htab : '\t' ∉ value) (hnewline : '\n' ∉ value)
    (parameter : Text) : KeepsMargin (Text.replace (Template.reference parameter) value) where
  margin {margin} rest hmargin := by
    -- on the margin, in which no reference starts
    induction margin with
    | nil => rfl
    | cons c margin ih =>
        have hc : c ≠ '>' := by
          rintro rfl
          exact absurd (hmargin _ List.mem_cons_self) (by decide)
        have hmatch : (Template.reference parameter).isPrefixOf (c :: (margin ++ rest))
            = false := by
          simp [Template.reference, List.isPrefixOf, Ne.symm hc]
        rw [List.cons_append, Text.replace_cons_of_not_match hmatch,
          ih fun d hd => hmargin d (List.mem_cons_of_mem c hd)]
        rfl
  plain ht hn := by
    constructor
    · exact fun hmem => (Text.mem_replace hmem).elim ht htab
    · exact fun hmem => (Text.mem_replace hmem).elim hn hnewline

/-- So does the protection of closing brackets. -/
theorem keepsMargin_protectClosers : KeepsMargin Template.protectClosers where
  margin {margin} rest hmargin := by
    -- on the margin, which has no backslash
    induction margin with
    | nil => rfl
    | cons c margin ih =>
        have hc : c ≠ '\\' := by
          rintro rfl
          exact absurd (hmargin _ List.mem_cons_self) (by decide)
        have hrest := ih fun d hd => hmargin d (List.mem_cons_of_mem c hd)
        rw [List.cons_append, List.cons_append, ← hrest]
        cases margin ++ rest with
        | nil => rfl
        | cons d t => simp [Template.protectClosers, hc]
  plain ht hn := by
    constructor
    · exact fun hmem => (Template.mem_protectClosers hmem).elim ht (by decide)
    · exact fun hmem => (Template.mem_protectClosers hmem).elim hn (by decide)

/-! ### Measured lines -/

/-- A line that is measured in tabs is its depth in tabs, its content and blank characters. -/
theorem exists_of_scan_tabs {n : Nat} {raw : Text} {m : Line}
    (h : Indentation.tabs.scan n raw = .ok m) :
    ∃ blanks, Text.allBlank blanks = true ∧
      raw = List.replicate m.depth '\t' ++ (m.content ++ blanks) := by
  obtain ⟨hraw, hwidth, -⟩ := Indentation.scan_ok h
  obtain ⟨blanks, hblanks, hwhole⟩ := Text.exists_eq_trimEnd_append raw
  have hdepth : m.width = m.depth := hwidth.trans (Nat.one_mul _)
  refine ⟨blanks, hblanks, ?_⟩
  rw [← List.append_assoc, ← hdepth]
  exact hraw ▸ hwhole

/-- A line has the same depth and content when it is indented by spaces. -/
theorem scan_spaced {n : Nat} (hn : 0 < n) {raw : Text} (hraw : raw.TabsLead)
    (hsolid : raw.allBlank = false) {k : Nat} {m : Line}
    (h : Indentation.tabs.scan k raw = .ok m) (k' : Nat) :
    '\t' ∉ m.content ∧
      (Indentation.spaces n).scan k' (raw.spaced n)
        = .ok ⟨k', m.depth, n * m.depth, m.content⟩ := by
  obtain ⟨htrim, hwidth, hspace, htab⟩ := Indentation.scan_ok h
  have hdepth : m.width = m.depth := hwidth.trans (Nat.one_mul _)
  rw [hdepth] at htrim
  obtain ⟨blanks, hblanks, heq⟩ := exists_of_scan_tabs h
  have hne : m.content ≠ [] := by
    intro hnil
    have hblank : raw.allBlank = true := by
      rw [heq, hnil, List.nil_append, Text.allBlank, List.all_append, Bool.and_eq_true]
      refine ⟨List.all_eq_true.2 fun c hc => ?_, hblanks⟩
      rw [List.eq_of_mem_replicate hc]
      decide
    rw [hblank] at hsolid
    cases hsolid
  have hplain : '\t' ∉ m.content := by
    -- the content starts with a character that indents nothing, so its tabs would not be in front
    obtain ⟨c, t, hcontent⟩ := List.exists_cons_of_ne_nil hne
    have hc : Text.isIndent c = false := by
      rw [hcontent] at hspace htab
      have hspace : c ≠ ' ' := fun h => hspace (congrArg some h)
      have htab : c ≠ '\t' := fun h => htab (congrArg some h)
      simp [Text.isIndent, hspace, htab]
    rw [heq, Text.tabsLead_replicate_append, hcontent, List.cons_append, Text.TabsLead,
      List.dropWhile_cons_of_neg (by simp [hc]), ← List.cons_append, ← hcontent] at hraw
    exact fun hmem => hraw (List.mem_append_left blanks hmem)
  have hspaced : Text.trimEnd (raw.spaced n)
      = List.replicate (n * m.depth) ' ' ++ m.content := by
    rw [Text.trimEnd_spaced hraw, htrim, Text.spaced_append, Text.spaced_of_notMem hplain]
    exact congrArg (· ++ m.content) (Text.spaced_replicate m.depth)
  exact ⟨hplain, Indentation.scan_of_trimEnd (.spaces n) hn hspaced hne hspace htab k'⟩

/-- A line below a definition is dedented alike. -/
theorem follows_dropBytes {n : Nat} {t : Text} (ht : TabbedLine t) {k : Nat} {m : Line}
    (h : Indentation.tabs.scan k t = .ok m) {levels : Nat} (hlevels : levels ≤ m.depth) :
    SpacedLines n (Text.dropBytes (Indentation.tabs.unitLength * levels) t)
      (Text.dropBytes ((Indentation.spaces n).unitLength * levels) (t.spaced n)) := by
  obtain ⟨blanks, -, heq⟩ := exists_of_scan_tabs h
  -- the levels that are taken away are tabs here and spaces there
  obtain ⟨rest, hrest⟩ : ∃ rest, t = List.replicate levels '\t' ++ rest := by
    refine ⟨List.replicate (m.depth - levels) '\t' ++ (m.content ++ blanks), ?_⟩
    rw [← List.append_assoc, List.replicate_append_replicate, Nat.add_sub_cancel' hlevels]
    exact heq
  have hline : TabbedLine rest := by
    refine ⟨fun hmem => ht.newline (hrest ▸ List.mem_append_right _ hmem), ?_⟩
    exact Text.tabsLead_replicate_append.1 (hrest ▸ ht.tabs)
  have hfirst : Text.dropBytes (Indentation.tabs.unitLength * levels) t = rest := by
    rw [hrest, Indentation.unitLength, Nat.one_mul]
    exact Text.dropBytes_replicate rfl _ _
  have hsecond : Text.dropBytes ((Indentation.spaces n).unitLength * levels) (t.spaced n)
      = rest.spaced n := by
    rw [hrest, Text.spaced_append, Text.spaced_replicate]
    exact Text.dropBytes_replicate rfl _ _
  rw [hfirst, hsecond]
  exact hline.follows n

end IndentMarkup
