import IndentMarkup.Proofs.Columns.Readers

/-!
The columns of errors.

The column of an error is one of its line or the one behind it, except for two surpluses: inside
of spans a reference counts with all its characters, not with the two of the escape that it stands
for, and behind the marker of a heading a blank character counts with its bytes.

* `Indentation.column_le`, `points_expander` — a faulty indentation is shown inside of the line, and
  the body of a template at no column.
* `Document.within_ofSource` — the lines of a source bound what is reported on them.
* `Document.compileText_column` — the column of an error of a source without inclusions.
* `Document.compileText_column_behind` — both surpluses lead behind the line.
-/

namespace IndentMarkup

open SourceLine (textsOf ofSource)

/-! ### Lines and expansions -/

namespace Indentation

variable {unit : Indentation} {n : Nat} {raw : Text}

theorem column_le {err : IndentError} (h : unit.scan n raw = .error err) :
    err.column ≤ raw.length := by
  have hmargin : ((Text.trimEnd raw).takeWhile (· = unit.unitChar)).length ≤ raw.length :=
    (List.takeWhile_prefix _).length_le.trans (Text.length_trimEnd_le raw)
  unfold scan at h
  dsimp only at h
  split at h
  · cases h
  · split at h
    · cases unit <;> cases h <;> exact hmargin
    · split at h <;> cases h
      exact hmargin

/-- The content of a line ends with the line. -/
theorem width_add_length_le {l : Line} (h : unit.scan n raw = .ok l) :
    l.width + l.content.length ≤ raw.length := by
  have hlength := congrArg List.length (scan_ok h).1
  rw [List.length_append, List.length_replicate] at hlength
  exact hlength ▸ Text.length_trimEnd_le raw

theorem surplus_content_le {l : Line} (h : unit.scan n raw = .ok l) :
    Inline.surplus l.content ≤ Inline.surplus raw := by
  have hmargin : (List.replicate l.width unit.unitChar).getLast? ≠ some '\\' := by
    intro hlast
    have hunit := isBlank_unitChar unit
    rw [← List.eq_of_mem_replicate (List.mem_of_getLast? hlast)] at hunit
    exact absurd hunit (by decide)
  obtain ⟨blanks, -, hraw⟩ := Text.exists_eq_trimEnd_append raw
  have hwhole := Inline.surplusAfter_append_le (Text.trimEnd raw) blanks 0
  have hcontent := Inline.surplus_le_append (u := l.content) (fun hlast => absurd hlast hmargin) 0
  rw [← (scan_ok h).1] at hcontent
  rw [← hraw] at hwhole
  exact hcontent.trans hwhole

end Indentation

/-- What goes wrong in the body of a template has no column. -/
theorem points_expander {place : Nat → Nat → Prop} (depth : Nat) (name : Text)
    (values : List Text) (n : Nat) :
    Points place (fun _ => True) (expander depth name values n) := by
  intro c
  cases hrun : expander depth name values n c with
  | ok es after => trivial
  | error s after =>
      cases s with
      | exhausted => trivial
      | error e =>
          intro column hcolumn
          rw [(expander_error hrun).2.1] at hcolumn
          cases hcolumn

namespace Document

/-! ### Errors of a source -/

/-- The column is one of the line, the one behind it, or as far behind it as the surpluses of the
line lead. -/
def ColumnOf (source : Text) (n column : Nat) : Prop :=
  ∃ t, (textsOf source)[n]? = some t ∧
    column ≤ t.length + Heading.surplus t + Inline.surplus t

/-- The lines of a source bound what is reported on them. -/
theorem within_ofSource {source : Text} (hincludes : ∀ t ∈ textsOf source, t.head? ≠ some '!') :
    AllWithin (ColumnOf source) (ofSource source) := by
  intro l hl
  have htext := SourceLine.getElem?_of_mem_ofSource hl
  refine ⟨fun {unit m} hscan => ?_, fun {unit err} hscan => ?_⟩
  · have hnumber : m.number = l.number := Indentation.number_of_scan hscan
    have hlength := Indentation.width_add_length_le hscan
    have hsurplus := Indentation.surplus_content_le hscan
    refine ⟨fun column hcolumn => ⟨l.text, hnumber ▸ htext, by omega⟩, ?_, ?_⟩
    · intro hmargin column hcolumn
      obtain ⟨blanks, -, hraw⟩ := Text.exists_eq_trimEnd_append l.text
      have hheading := Heading.surplus_append_le (Text.trimEnd l.text) blanks
      rw [← hraw, ← content_of_scan_margin hscan hmargin] at hheading
      exact ⟨l.text, hnumber ▸ htext, by omega⟩
    · intro hmargin hkind
      obtain ⟨target, htarget, -⟩ := exists_target_of_isInclusion hscan ⟨hmargin, hkind⟩
      refine hincludes l.text (List.mem_of_getElem? htext) ?_
      rw [htarget]
      rfl
  · have hline : err.line = l.number := Indentation.line_of_scan hscan
    exact ⟨l.text, hline ▸ htext, by have := Indentation.column_le hscan; omega⟩

/-- The column of an error of a source without inclusions is one of its line, the one behind it, or
as far behind it as the references in spans and the blank characters behind the marker of a heading
lead. A line without escapes is not left, unless it is a heading with a blank character of more
than one byte. -/
theorem compileText_column (loader : Loader) (depth : Nat) {source : Text} {e : CompileError}
    {column : Nat} (hincludes : ∀ t ∈ textsOf source, t.head? ≠ some '!')
    (h : compileText loader depth source = .error (.error e)) (hcolumn : e.column = some column) :
    ∃ t, (textsOf source)[e.line]? = some t ∧
      column ≤ t.length + Heading.surplus t + Inline.surplus t ∧
      (Inline.EscapeFree t → (t.head? = some '#' ∨ t.head? = some '@' →
        ∀ c ∈ t, Text.isBlank c = true → c.utf8Size = 1) → column ≤ t.length) := by
  have hsource (readFile : Line → CompileM (List Tab)) :
      Points (ColumnOf source) (fun _ => True) (readSource (expander depth) readFile source) :=
    points_readSource (points_expander depth) (within_ofSource hincludes)
  unfold compileText compileTextWith ofRun readAll readNested at h
  split at h
  · cases h
  · next hread =>
      cases h
      have hplace := hsource (readInclusion loader
        (readNested loader (expander depth) loader.locations.length) ['.']) .start
      rw [hread] at hplace
      obtain ⟨t, ht, hle⟩ := hplace column hcolumn
      refine ⟨t, ht, hle, fun hescapes hbytes => ?_⟩
      rw [Heading.surplus_eq_zero hbytes, Inline.surplus,
        Inline.surplusAfter_of_escapeFree hescapes] at hle
      exact hle

/-- A heading with a blank character of three bytes, and then a bracket that closes nothing. -/
def wideHeading : Text := "#\u3000>".toList

/-- Two escapes inside of a span, and then a bracket that does not match. -/
def escapedSpan : Text := "# s\n<b(\\<\\<]>".toList

/-- A bracket that does not match, in a span in a span, on a line below a line. -/
def nestedSpan : Text := "# s\n.p\n\t.q <b <i(x]>>".toList

theorem compileText_wideHeading : compileText (∅ : Library).loader 0 wideHeading
    = .error (.error ⟨.format .unexpectedClose, none, 0, some 4, []⟩) := by
  obtain ⟨s, hs, rfl⟩ : ∃ s, compileText (∅ : Library).loader 0 wideHeading = .error s ∧
      s = .error ⟨.format .unexpectedClose, none, 0, some 4, []⟩ := by decide +kernel
  exact hs

theorem compileText_escapedSpan : compileText (∅ : Library).loader 0 escapedSpan
    = .error (.error ⟨.shorthand (.unexpectedCloser ']'), none, 1, some 11, []⟩) := by
  obtain ⟨s, hs, rfl⟩ : ∃ s, compileText (∅ : Library).loader 0 escapedSpan = .error s ∧
      s = .error ⟨.shorthand (.unexpectedCloser ']'), none, 1, some 11, []⟩ := by decide +kernel
  exact hs

theorem compileText_nestedSpan : compileText (∅ : Library).loader 0 nestedSpan
    = .error (.error ⟨.shorthand (.unexpectedCloser ']'), none, 2, some 11, []⟩) := by
  obtain ⟨s, hs, rfl⟩ : ∃ s, compileText (∅ : Library).loader 0 nestedSpan = .error s ∧
      s = .error ⟨.shorthand (.unexpectedCloser ']'), none, 2, some 11, []⟩ := by decide +kernel
  exact hs

theorem compileText_column_of_spans :
    (∀ t ∈ textsOf nestedSpan, t.head? ≠ some '!') ∧
      (∃ t, (textsOf nestedSpan)[2]? = some t ∧ Inline.EscapeFree t ∧ 11 ≤ t.length) ∧
    (∀ t ∈ textsOf escapedSpan, t.head? ≠ some '!') ∧
      ∃ t, (textsOf escapedSpan)[1]? = some t ∧
        11 ≤ t.length + Heading.surplus t + Inline.surplus t := by
  have hnested : ∀ t ∈ textsOf nestedSpan, t.head? ≠ some '!' := by decide
  have hescaped : ∀ t ∈ textsOf escapedSpan, t.head? ≠ some '!' := by decide
  obtain ⟨t, ht, -, hplain⟩ :=
    compileText_column (∅ : Library).loader 0 hnested compileText_nestedSpan rfl
  obtain ⟨u, hu, hle, -⟩ :=
    compileText_column (∅ : Library).loader 0 hescaped compileText_escapedSpan rfl
  have hline : t = "\t.q <b <i(x]>>".toList := Option.some.inj (ht.symm.trans rfl)
  have hfree : Inline.EscapeFree t := by
    rw [hline]
    decide
  exact ⟨hnested, ⟨t, ht, hfree, hplain hfree (by simp [hline])⟩, hescaped, u, hu, hle⟩

/-- Blank characters behind the marker of a heading, and references inside of a span, lead behind
the line. -/
theorem compileText_column_behind :
    (compileText (∅ : Library).loader 0 wideHeading
        = .error (.error ⟨.format .unexpectedClose, none, 0, some 4, []⟩) ∧
      ∃ t, (textsOf wideHeading)[0]? = some t ∧ t.length = 3) ∧
    compileText (∅ : Library).loader 0 escapedSpan
        = .error (.error ⟨.shorthand (.unexpectedCloser ']'), none, 1, some 11, []⟩) ∧
      ∃ t, (textsOf escapedSpan)[1]? = some t ∧ t.length = 9 :=
  ⟨⟨compileText_wideHeading, "#\u3000>".toList, rfl, rfl⟩, compileText_escapedSpan,
    "<b(\\<\\<]>".toList, rfl, rfl⟩

end Document

end IndentMarkup
