import IndentMarkup.Line
import Mathlib.Logic.Function.Iterate

/-!
Lines as they are written, and as they are measured.

A line is written as its levels of indentation, its content, and blank characters at the end that
nobody sees. Measuring takes this apart again. A character can be blank and yet neither a space
nor a tab; in front of the content it is the first character of the content, and behind the
content it is nothing. So every raw line is of one kind only: it is blank, it is written in one
way, or it is indented wrongly.

* `Indentation.Written` — how a line is written.
* `Indentation.Written.scan` — a written line is measured as what it was written from.
* `Indentation.exists_written_of_scan` — a line that is measured was written, or is blank.
* `Indentation.column_of_scan` — a fault is found behind the characters that indent.
* `Indentation.scan_exact` — blank, written and faulty lines are all lines, and do not overlap.
-/

namespace IndentMarkup

/-! ### Blank characters -/

/-- Blank characters in front of a text are not touched at its end, unless it has no other ones. -/
theorem Text.takeWhile_trimEnd {p : Char → Bool} (hp : ∀ c, p c = true → isBlank c = true)
    {t : Text} (ht : allBlank t = false) : (trimEnd t).takeWhile p = t.takeWhile p := by
  obtain ⟨blanks, hblanks, heq⟩ := exists_eq_trimEnd_append t
  have hsolid : allBlank (trimEnd t) = false := by
    rw [heq, allBlank, List.all_append, Bool.and_eq_false_iff] at ht
    exact ht.resolve_right (by rw [← allBlank, hblanks]; exact Bool.noConfusion)
  have hstops : ((trimEnd t).takeWhile p).length ≠ (trimEnd t).length := by
    intro hlength
    have hwhole := (List.takeWhile_prefix p).eq_of_length hlength
    rw [← hwhole, allBlank, List.all_eq_false] at hsolid
    obtain ⟨c, hc, hnot⟩ := hsolid
    exact hnot (hp c (List.all_eq_true.1 List.all_takeWhile c hc))
  calc (trimEnd t).takeWhile p
      = (trimEnd t ++ blanks).takeWhile p := by rw [List.takeWhile_append, if_neg hstops]
    _ = t.takeWhile p := by rw [← heq]

theorem Text.trimEnd_trimEnd (t : Text) : trimEnd (trimEnd t) = trimEnd t := by
  obtain ⟨blanks, hblanks, heq⟩ := exists_eq_trimEnd_append t
  calc trimEnd (trimEnd t)
      = trimEnd (trimEnd t ++ blanks) := (trimEnd_append_of_allBlank _ hblanks).symm
    _ = trimEnd t := by rw [← heq]

/-- Only a line without content has no character that says what it is. -/
theorem LineKind.eq_nil_of_ofContent {t : Text} (h : ofContent t = .blank) : t = [] := by
  unfold ofContent at h
  split at h <;> first | rfl | cases h

namespace Indentation

variable {unit : Indentation} {number depth : Nat} {content blanks raw : Text}

/-! ### Written lines -/

/-- The raw line has so many levels of indentation, a content that shows where it starts and where
it ends, and blank characters behind it. -/
structure Written (unit : Indentation) (depth : Nat) (content blanks raw : Text) : Prop where
  raw_eq : raw = unit.indent^[depth] (content ++ blanks)
  nonempty : content ≠ []
  space : content.head? ≠ some ' '
  tab : content.head? ≠ some '\t'
  trimmed : Text.trimEnd content = content
  blanks : Text.allBlank blanks = true

theorem iterate_indent (unit : Indentation) (depth : Nat) (t : Text) :
    unit.indent^[depth] t = List.replicate (unit.unitLength * depth) unit.unitChar ++ t := by
  induction depth with
  | zero => rfl
  | succ depth ih =>
      rw [Function.iterate_succ_apply', ih, indent, ← List.append_assoc,
        List.replicate_append_replicate, Nat.mul_succ, Nat.add_comm]

theorem unitLength_ofWidth_pos (width : Nat) : 0 < (ofWidth width).unitLength := by
  unfold ofWidth
  split
  · exact Nat.one_pos
  · next hwidth => exact Nat.pos_of_ne_zero hwidth

/-- A written line is measured as what it was written from. -/
theorem Written.scan (h : unit.Written depth content blanks raw) (hunit : 0 < unit.unitLength)
    (number : Nat) :
    unit.scan number raw = .ok ⟨number, depth, unit.unitLength * depth, content⟩ := by
  refine scan_of_trimEnd unit hunit ?_ h.nonempty h.space h.tab number
  have hsolid : Text.allBlank content = false := by
    rw [← Bool.not_eq_true, ← Text.trimEnd_eq_nil_iff, h.trimmed]
    exact h.nonempty
  rw [h.raw_eq, iterate_indent, ← List.append_assoc, Text.trimEnd_append_of_allBlank _ h.blanks,
    Text.trimEnd_append_of_not_allBlank _ hsolid, h.trimmed]

theorem Written.allBlank (h : unit.Written depth content blanks raw) (hunit : 0 < unit.unitLength) :
    Text.allBlank raw = false := by
  rw [← Bool.not_eq_true]
  intro hblank
  have hscan := h.scan hunit 0
  rw [Indentation.scan, if_pos (Text.trimEnd_eq_nil_iff.2 hblank)] at hscan
  cases hscan
  exact h.nonempty rfl

/-- A line is written in one way. -/
theorem Written.unique {depth' : Nat} {content' blanks' : Text}
    (h : unit.Written depth content blanks raw) (h' : unit.Written depth' content' blanks' raw)
    (hunit : 0 < unit.unitLength) : depth' = depth ∧ content' = content ∧ blanks' = blanks := by
  have hline := (h'.scan hunit 0).symm.trans (h.scan hunit 0)
  simp only [Except.ok.injEq, Line.mk.injEq] at hline
  obtain ⟨-, rfl, -, rfl⟩ := hline
  have hraw := h'.raw_eq.symm.trans h.raw_eq
  rw [iterate_indent, iterate_indent, List.append_cancel_left_eq,
    List.append_cancel_left_eq] at hraw
  exact ⟨rfl, rfl, hraw⟩

/-! ### Measured lines -/

theorem scan_of_allBlank (h : Text.allBlank raw = true) (unit : Indentation) (number : Nat) :
    unit.scan number raw = .ok ⟨number, 0, 0, []⟩ := by
  rw [scan, if_pos (Text.trimEnd_eq_nil_iff.2 h)]

/-- A line that is measured and has something to show was written with its content. -/
theorem exists_written_of_scan {l : Line} (h : unit.scan number raw = .ok l)
    (hraw : Text.allBlank raw = false) : ∃ blanks, unit.Written l.depth l.content blanks raw := by
  obtain ⟨htrim, hwidth, hspace, htab⟩ := scan_ok h
  obtain ⟨blanks, hblanks, heq⟩ := Text.exists_eq_trimEnd_append raw
  have hlevels : Text.allBlank (List.replicate l.width unit.unitChar) = true := by
    simp [Text.allBlank, isBlank_unitChar]
  -- the levels are blank, so what is not blank is in the content
  have hsolid : Text.allBlank l.content = false := by
    have hwhole : Text.allBlank (Text.trimEnd raw ++ blanks) = false := heq ▸ hraw
    rw [htrim, Text.allBlank, List.all_append, List.all_append, ← Text.allBlank, hlevels,
      ← Text.allBlank, ← Text.allBlank, hblanks, Bool.true_and, Bool.and_true] at hwhole
    exact hwhole
  refine ⟨blanks, ?_, ?_, hspace, htab, ?_, hblanks⟩
  · rw [iterate_indent, ← hwidth, ← List.append_assoc, ← htrim]
    exact heq
  · rintro hnil
    rw [hnil] at hsolid
    cases hsolid
  · have htwice := Text.trimEnd_append_of_not_allBlank
      (List.replicate l.width unit.unitChar) hsolid
    rw [← htrim, Text.trimEnd_trimEnd, htrim, List.append_cancel_left_eq] at htwice
    exact htwice.symm

/-- A fault is found behind the characters that indent, on a line that is not blank. -/
theorem column_of_scan {e : IndentError} (h : unit.scan number raw = .error e) :
    Text.allBlank raw = false ∧ e.column = (raw.takeWhile (· = unit.unitChar)).length := by
  have hraw : Text.allBlank raw = false := by
    rw [← Bool.not_eq_true]
    intro hblank
    rw [scan_of_allBlank hblank] at h
    cases h
  have hfront := Text.takeWhile_trimEnd (p := (decide <| · = unit.unitChar))
    (fun c hc => of_decide_eq_true hc ▸ isBlank_unitChar unit) hraw
  refine ⟨hraw, ?_⟩
  rw [← hfront]
  unfold scan at h
  grind

/-- Every raw line is blank, or written in one way, or faulty, and only one of these: a blank line
is measured as one without content, a written one as what it was written from, and the fault of
any other line stands behind the characters that indent. -/
theorem scan_exact (width number : Nat) (raw : Text) :
    (∀ depth content blanks, (ofWidth width).Written depth content blanks raw →
      ∃ l, (ofWidth width).scan number raw = .ok l ∧ l.number = number ∧ l.depth = depth ∧
        l.width = depth * (ofWidth width).unitLength ∧ l.content = content ∧
        l.kind = .ofContent content) ∧
    ((∃ l, (ofWidth width).scan number raw = .ok l ∧ l.kind = .blank) ↔
      Text.allBlank raw = true) ∧
    (Text.allBlank raw = true ∨
      (∃! w : Nat × Text × Text, (ofWidth width).Written w.1 w.2.1 w.2.2 raw) ∨
      ∃ e, (ofWidth width).scan number raw = .error e ∧ e.line = number ∧
        e.column = (raw.takeWhile (· = (ofWidth width).unitChar)).length) ∧
    (∀ depth content blanks, (ofWidth width).Written depth content blanks raw →
      Text.allBlank raw = false) ∧
    ∀ e, (ofWidth width).scan number raw = .error e → Text.allBlank raw = false ∧
      ∀ depth content blanks, ¬ (ofWidth width).Written depth content blanks raw := by
  have hunit := unitLength_ofWidth_pos width
  refine ⟨fun depth content blanks h => ?_, ⟨?_, fun hblank => ?_⟩, ?_, fun _ _ _ h => ?_,
    fun e he => ⟨(column_of_scan he).1, fun depth content blanks h => ?_⟩⟩
  · exact ⟨_, h.scan hunit number, rfl, rfl, Nat.mul_comm _ _, rfl, rfl⟩
  · rintro ⟨l, hscan, hkind⟩
    rw [← Bool.not_eq_false]
    intro hraw
    obtain ⟨blanks, hwritten⟩ := exists_written_of_scan hscan hraw
    exact hwritten.nonempty (LineKind.eq_nil_of_ofContent hkind)
  · exact ⟨_, scan_of_allBlank hblank _ number, rfl⟩
  -- a line that is not blank is measured or faulty, and what is measured was written in one way
  · cases hblank : Text.allBlank raw with
    | true => exact .inl rfl
    | false =>
        refine .inr ?_
        cases hscan : (ofWidth width).scan number raw with
        | error e => exact .inr ⟨e, rfl, line_of_scan hscan, (column_of_scan hscan).2⟩
        | ok l =>
            obtain ⟨blanks, hwritten⟩ := exists_written_of_scan hscan hblank
            refine .inl ⟨(l.depth, l.content, blanks), hwritten, ?_⟩
            rintro ⟨depth, content', blanks'⟩ h
            obtain ⟨rfl, rfl, rfl⟩ := hwritten.unique h hunit
            rfl
  · exact h.allBlank hunit
  · rw [h.scan hunit number] at he
    cases he

/-- Two levels of two spaces, a content that starts with a wide space, and blank characters. -/
def wideSpaceLine : Text := "    \u3000a \u00a0".toList

theorem scan_exact_wideSpace :
    (ofWidth 2).Written 2 ['\u3000', 'a'] [' ', '\u00a0'] wideSpaceLine ∧
      ∃ l, (ofWidth 2).scan 7 wideSpaceLine = .ok l ∧ l.number = 7 ∧ l.depth = 2 ∧ l.width = 4 ∧
        l.content = ['\u3000', 'a'] ∧ l.kind = .text := by
  have hwritten : (ofWidth 2).Written 2 ['\u3000', 'a'] [' ', '\u00a0'] wideSpaceLine :=
    ⟨rfl, by decide, by decide, by decide, by decide, by decide⟩
  obtain ⟨hscan, -⟩ := scan_exact 2 7 wideSpaceLine
  exact ⟨hwritten, hscan _ _ _ hwritten⟩

end Indentation

end IndentMarkup
