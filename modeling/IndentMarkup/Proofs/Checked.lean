import IndentMarkup.Proofs.Checked.Headings
import IndentMarkup.Proofs.Coherence

/-!
No arithmetic and no slice fails.

The width of a level of indentation is a number of up to 64 bits that the author chooses, and
what stands behind it is any text at all. All the same a level is never without a width, the
width of a template's body fits into 64 bits, no difference is negative and no text is cut inside
of a character: the unit has been checked when it was set, the depth of a line has been measured
in the unit that its body is measured in, and markers and brackets have one byte.

* `Context.Reachable` — a context that a compile can come to.
* `Context.Reachable.sized` — the unit of indentation in it.
* `Checked.Faultless` — what stands on a line, and below it, is taken apart without a failure.
* `compile_faultless` — so are all lines in all reachable contexts.
-/

namespace IndentMarkup

/-! ### Reachable contexts -/

/-- The number of spaces has at most 64 bits. -/
theorem Metadata.spaces_lt_of_set {m after : Metadata} {value : Text}
    (h : m.set .spaces value = .ok after) : after.spaces.getD 0 < UInt64.size := by
  unfold set at h
  dsimp only at h
  split at h
  · cases h
  · next n hn =>
      split at h
      · cases h
      · cases h
        have hmost : mostSpaces < UInt64.size := by simp [mostSpaces, UInt64.size]
        exact Nat.lt_of_le_of_lt (Text.le_of_toNat? hn) hmost

namespace Context

/-- Something can happen after which the context is there. -/
def Reachable (c : Context) : Prop := ∃ ids, Trace start ids c

namespace Reachable

variable {c d : Context}

theorem trace {ids : List Nat} (hc : c.Reachable) (h : Trace c ids d) : d.Reachable := by
  obtain ⟨before, hbefore⟩ := hc
  exact ⟨before ++ ids, hbefore.trans h⟩

theorem of_starts {loader : Loader} {base source : Text}
    (h : Document.Starts loader base source c) : c.Reachable := by
  cases h with
  | text => exact ⟨[], .refl _⟩
  | file => exact ⟨[], .single (.openFile _ _)⟩

theorem of_moment {loader : Loader} {depth : Nat} {base source : Text}
    (hstarts : Document.Starts loader base source c)
    (h : Document.Moment loader depth base source c d) : d.Reachable := by
  obtain ⟨ids, -, hbefore, -, -⟩ := trace_of_moment hstarts h
  exact (of_starts hstarts).trace hbefore

theorem sized_of_change (h : Change c d) (hc : c.indentation.Sized) : d.indentation.Sized := by
  cases h with
  | directive h =>
      obtain ⟨k, metadata, -, hset, rfl⟩ := applyDirective_eq_ok.1 h
      by_cases hk : k = .spaces
      · subst hk
        simpa using Indentation.sized_ofWidth (Metadata.spaces_lt_of_set hset)
      · simpa [hk] using hc
  | addClass h =>
      obtain ⟨metadata, -, rfl⟩ := addClass_ok h
      exact hc
  | define h =>
      obtain ⟨m, -, -, rfl⟩ := defineBody_ok h
      exact hc
  | undefine h =>
      obtain ⟨-, rfl⟩ := undefine_ok h
      exact hc
  | _ => exact hc

theorem sized_of_trace {ids : List Nat} (h : Trace c ids d) (hc : c.indentation.Sized) :
    d.indentation.Sized := by
  induction h with
  | refl => exact hc
  | change _ hchange ih => exact sized_of_change hchange ih
  | number _ hnumber ih =>
      cases hnumber
      exact ih

/-- A level of indentation has a width, of at most 64 bits. -/
theorem sized (h : c.Reachable) : c.indentation.Sized := by
  obtain ⟨ids, htrace⟩ := h
  exact sized_of_trace htrace Indentation.sized_tabs

end Reachable

end Context

/-! ### Lines -/

namespace Checked

/-- What stands on a line that has been measured in a unit, and what belongs to it below, is
taken apart without a failure. -/
structure Faultless (unit : Indentation) (m : Line) : Prop where
  /-- The marker is cut off, of inclusions and custom classes for instance. -/
  marker : m.kind.marker?.isSome = true → behindMarker m = some (m.content.drop 1)
  directive : m.kind = .directive → directiveParts m = some (Context.directiveParts m)
  margin : m.kind = .margin → margin m = some (Block.margin (Text.trim (m.content.drop 1)))
  tag : readTag m = some (Block.readTag m)
  call : m.kind = .template → callParts m = some (m.token.drop 1, m.afterToken)
  /-- The width of what is forced on the body of a template fits. -/
  width : unit.unitLength * (m.depth + 1) < UInt64.size
  /-- All lines of a template's body are so wide, but for blank ones. -/
  body (ls rest : List SourceLine) (ts : List Text) :
    Block.takeDeeper unit m.depth ls = .ok (ts, rest) →
      (∀ t ∈ ts, Text.allBlank t = false →
        (t.splitBytes? (unit.unitLength * (m.depth + 1))).isSome = true) ∧
      dedent unit m.depth ts = some (Block.dedent unit m.depth ts)
  sectionLine (e : Expander) : m.kind = .sectionStart →
    heading e m (Document.sectionMarker m.content) =
      lift (Heading.read e m (Document.sectionMarker m.content))
  tabLine (e : Expander) : m.kind = .tabStart → heading e m 1 = lift (Heading.read e m 1)

/-- A line that is not longer than a text can be is taken apart without a failure. -/
theorem faultless_of_scan {unit : Indentation} (hunit : unit.Sized) {l : SourceLine} {m : Line}
    (hshort : Text.byteLength l.text < Text.byteLimit) (h : l.scan unit = .ok m) :
    Faultless unit m where
  marker := behindMarker_eq
  directive := directiveParts_eq
  margin := margin_eq
  tag := readTag_eq m
  call := callParts_eq
  width := Indentation.deeper_lt hunit hshort h
  body ls rest ts hbody := by
    have hcut := Block.isSome_splitBytes?_of_takeDeeper hbody
    exact ⟨hcut, dedent_eq (Indentation.deeper_lt hunit hshort h) hcut⟩
  sectionLine e hkind := heading_eq e (splitBytes?_sectionMarker hkind)
  tabLine e hkind := heading_eq e (splitBytes?_marker (by rw [hkind]; rfl))

end Checked

/-! ### Compiles -/

open Context in
/-- A compile comes to reachable contexts only: where it begins to read a piece, asks for a call
or is through with a piece, and behind every text, line and block in between. In a reachable
context lines of less than 2⁶³ bytes are measured and taken apart without a failure, whatever the
width of a level is, and texts are formatted without one. -/
theorem compile_faultless (loader : Loader) (depth : Nat) :
    (∀ base source start c, Document.Starts loader base source start →
      Document.Moment loader depth base source start c → c.Reachable) ∧
    (∀ c : Context, c.Reachable →
      (∀ t line column, ((Inline.format (expander depth) t line column).after c).Reachable) ∧
      (∀ level ls, ((Block.readBlock (expander depth) level ls).after c).Reachable) ∧
      (∀ l ls, ((Block.readLine (expander depth) l ls).after c).Reachable) ∧
      ∀ nesting base o l ls, ((Document.readLine (expander depth) (Document.readInclusion loader
        (Document.readNested loader (expander depth) nesting) base) o l ls).after c).Reachable) ∧
    (∀ c : Context, c.Reachable → c.indentation.Sized ∧
      ∀ l : SourceLine, Text.byteLength l.text < Text.byteLimit →
        Checked.scan c.indentation l.number l.text = some (l.scan c.indentation) ∧
        ∀ m, l.scan c.indentation = .ok m → Checked.Faultless c.indentation m) ∧
    ∀ (e : Expander) t line column,
      Checked.format e t line column = Checked.lift (Inline.format e t line column) := by
  refine ⟨fun _ _ _ _ hstarts => Reachable.of_moment hstarts, fun c hc => ?_, fun c hc => ?_,
    Checked.format_eq⟩
  · have hparts := elementEffect_trace.congruence
    have hexpand := hparts.expander depth
    refine ⟨fun t line column => ?_, fun level ls => ?_, fun l ls => ?_, ?_⟩
    · exact hc.trace (hparts.format (f := expander depth) hexpand t line column c)
    · exact hc.trace (hparts.readBlock (f := expander depth) hexpand level ls c)
    · exact hc.trace (hparts.readLine (f := expander depth) hexpand l ls c)
    · intro nesting base o l ls
      obtain ⟨ids, htrace⟩ := (way_trace loader).effect.readTopLine depth nesting base o l ls c
      exact hc.trace htrace
  · refine ⟨hc.sized, fun l hshort => ?_⟩
    exact ⟨Checked.scan_eq hc.sized.ne_zero l.number l.text,
      fun m hm => Checked.faultless_of_scan hc.sized hshort hm⟩

/-- The context that the compile of a source leaves. -/
def contextBehind (source : Text) : Context :=
  (Document.readPiece (∅ : Library).loader 1 0 (.source ['.'] source)).after .start

/-- The widest levels that can be asked for. -/
def widestSource : Text := ":spaces 18446744073709551615\n~+t é".toList

/-- A template with a line that has a character of two bytes behind its indentation. -/
def narrowSource : Text := ":spaces 2\n~+t\n  é x".toList

theorem compile_faultless_widest :
    ((contextBehind widestSource).indentation = .spaces Metadata.mostSpaces ∧
      (contextBehind widestSource).Reachable ∧ Text.byteLength "~+t é".toList < Text.byteLimit ∧
      Checked.Faultless (.spaces Metadata.mostSpaces) ⟨1, 0, 0, "~+t é".toList⟩) ∧
    (contextBehind narrowSource).indentation = .spaces 2 ∧
    (contextBehind narrowSource).Reachable ∧
    Checked.Faultless (.spaces 2) ⟨1, 0, 0, "~+t".toList⟩ ∧
    Block.takeDeeper (.spaces 2) 0 [⟨2, "  é x".toList⟩] = .ok (["  é x".toList], []) ∧
    Checked.dedent (.spaces 2) 0 ["  é x".toList] = some "é x".toList := by
  obtain ⟨hmoments, -, hlines, -⟩ := compile_faultless (∅ : Library).loader 1
  have hwidest : (contextBehind widestSource).indentation = .spaces Metadata.mostSpaces := by
    decide +kernel
  have hnarrow : (contextBehind narrowSource).indentation = .spaces 2 := by decide +kernel
  have hreached (source : Text) : (contextBehind source).Reachable :=
    hmoments _ _ _ _ (.text source) (.ends .first)
  have hshort : Text.byteLength "~+t é".toList < Text.byteLimit := by decide
  have hwide := ((hlines _ (hreached widestSource)).2 ⟨1, "~+t é".toList⟩ hshort).2
  have hline := ((hlines _ (hreached narrowSource)).2 ⟨1, "~+t".toList⟩ (by decide)).2
  rw [hwidest] at hwide
  rw [hnarrow] at hline
  have hfaultless := hline _ rfl
  have hbody : Block.takeDeeper (.spaces 2) 0 [⟨2, "  é x".toList⟩] =
      .ok (["  é x".toList], []) := by
    rfl
  exact ⟨⟨hwidest, hreached _, hshort, hwide _ rfl⟩, hnarrow, hreached _, hfaultless, hbody,
    (hfaultless.body _ _ _ hbody).2⟩

end IndentMarkup
