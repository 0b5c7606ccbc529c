import IndentMarkup.Document
import IndentMarkup.Proofs.Checked.Lines

/-!
The lines of sections and tabs, checked.

The groups at the end of such a line are found by the bytes in front of their brackets, and the
line is cut there. Brackets have one byte, whatever the characters around them have; so it makes
no difference whether bytes are counted or characters.

* `Checked.bracketsFrom_eq` — the brackets by bytes and by characters.
* `Checked.split_eq` — the groups are cut off at the bracket that opens the first one.
* `Checked.heading_eq` — a line is read without a failure.
-/

namespace IndentMarkup

namespace Text

/-- A longer beginning of a text has more bytes. -/
theorem byteLength_take_lt {t : Text} {m n : Nat} (h : m < n) (hn : n ≤ t.length) :
    byteLength (t.take m) < byteLength (t.take n) := by
  have hfront : t.take n = t.take m ++ (t.drop m).take (n - m) := by
    rw [← List.take_add, Nat.add_sub_cancel' (Nat.le_of_lt h)]
  have hmore := length_le_byteLength ((t.drop m).take (n - m))
  rw [List.length_take, List.length_drop] at hmore
  rw [hfront, byteLength_append]
  omega

/-- The place behind a character of one byte is the next one in bytes if it is in
characters. -/
theorem byteLength_take_succ_eq_iff {t : Text} {m n : Nat} {c : Char} (hc : t[m]? = some c)
    (hsize : c.utf8Size = 1) (hn : n ≤ t.length) :
    byteLength (t.take m) + 1 = byteLength (t.take n) ↔ m + 1 = n := by
  obtain ⟨hm, rfl⟩ := List.getElem?_eq_some_iff.1 hc
  have hnext : byteLength (t.take (m + 1)) = byteLength (t.take m) + 1 := by
    rw [← List.take_append_getElem hm, byteLength_append, byteLength_cons, hsize, byteLength_nil]
  rw [← hnext]
  constructor
  · intro h
    rcases Nat.lt_trichotomy (m + 1) n with hlt | heq | hlt
    · have := byteLength_take_lt hlt hn
      omega
    · exact heq
    · have := byteLength_take_lt hlt hm
      omega
  · rintro rfl
    rfl

end Text

namespace Checked

/-! ### The groups at the end -/

/-- The brackets outside spans, with the number of bytes in front of each of them. -/
def bracketsFrom : (skip depth offset : Nat) → Text → List (Nat × Char)
  | _, _, _, [] => []
  | skip + 1, depth, offset, c :: t => bracketsFrom skip depth (offset + c.utf8Size) t
  | 0, depth, offset, c :: t =>
      let behind := offset + c.utf8Size
      if c = '\\' then bracketsFrom 1 depth behind t
      else if c = '<' then bracketsFrom 0 (depth + 1) behind t
      else if c = '>' then bracketsFrom 0 (depth - 1) behind t
      else if depth = 0 ∧ ((Bracket.opening? c).isSome ∨ (Bracket.closing? c).isSome) then
        (offset, c) :: bracketsFrom 0 depth behind t
      else bracketsFrom 0 depth behind t

/-- The text in front of the groups at its end, and these groups; they start where the bracket
of the first one does, in bytes. -/
def split (t : Text) : Option (Text × Text) :=
  t.splitBytes? (Heading.groupsStart (Text.byteLength t) none (bracketsFrom 0 0 0 t).reverse)

theorem bracketsFrom_eq (skip depth : Nat) (front t : Text) :
    bracketsFrom skip depth (Text.byteLength front) t =
      (Heading.bracketsFrom skip depth front.length t).map
        fun b => (Text.byteLength ((front ++ t).take b.1), b.2) := by
  induction t generalizing skip depth front with
  | nil => simp [bracketsFrom, Heading.bracketsFrom]
  | cons c t ih =>
      have hstep (skip depth : Nat) := ih skip depth (front ++ [c])
      simp only [Text.byteLength_append, Text.byteLength_cons, Text.byteLength_nil, Nat.add_zero,
        List.length_append, List.length_singleton, List.append_assoc, List.singleton_append]
        at hstep
      cases skip with
      | succ skip => exact hstep skip depth
      | zero =>
          simp only [bracketsFrom, Heading.bracketsFrom, hstep]
          repeat' split
          all_goals simp

/-- A bracket stands where it is found. -/
theorem getElem?_of_mem_bracketsFrom {skip depth : Nat} (front : Text) {t : Text}
    {b : Nat × Char} (h : b ∈ Heading.bracketsFrom skip depth front.length t) :
    (front ++ t)[b.1]? = some b.2 ∧
      ((Bracket.opening? b.2).isSome ∨ (Bracket.closing? b.2).isSome) := by
  induction t generalizing skip depth front with
  | nil => cases skip <;> cases h
  | cons c t ih =>
      have hstep {skip depth : Nat}
          (h : b ∈ Heading.bracketsFrom skip depth (front.length + 1) t) :
          (front ++ c :: t)[b.1]? = some b.2 ∧
            ((Bracket.opening? b.2).isSome ∨ (Bracket.closing? b.2).isSome) := by
        have hnext := ih (front ++ [c]) (by simpa using h)
        simpa using hnext
      cases skip with
      | succ skip => exact hstep h
      | zero =>
          rw [Heading.bracketsFrom] at h
          split at h
          · exact hstep h
          · split at h
            · exact hstep h
            · split at h
              · exact hstep h
              · split at h
                · next hbracket =>
                    rcases List.mem_cons.1 h with rfl | h
                    · exact ⟨by simp, hbracket.2⟩
                    · exact hstep h
                · exact hstep h

/-- Brackets have one byte. -/
theorem utf8Size_of_bracket {c : Char}
    (h : (Bracket.opening? c).isSome ∨ (Bracket.closing? c).isSome) : c.utf8Size = 1 := by
  simp only [Bracket.opening?, Bracket.closing?, List.find?_isSome, decide_eq_true_eq] at h
  obtain ⟨b, -, rfl⟩ | ⟨b, -, rfl⟩ := h <;> cases b <;> rfl

/-- Where the groups start does not depend on how places up to `last` are counted, as long as it
can be told which of them touch a bracket. -/
theorem groupsStart_map {f : Nat → Nat} {last start : Nat} {brackets : List (Nat × Char)}
    (hbrackets : ∀ b ∈ brackets, b.1 ≤ last ∧
      ∀ place ≤ last, f b.1 + 1 = f place ↔ b.1 + 1 = place)
    (hstart : start ≤ last) (open' : Option Bracket) :
    Heading.groupsStart (f start) open' (brackets.map fun b => (f b.1, b.2)) =
      f (Heading.groupsStart start open' brackets) := by
  induction brackets generalizing start open' with
  | nil => cases open' <;> rfl
  | cons b bs ih =>
      obtain ⟨⟨hplace, htouch⟩, hbehind⟩ := List.forall_mem_cons.1 hbrackets
      cases open' with
      | none =>
          simp only [List.map_cons, Heading.groupsStart, htouch start hstart]
          cases Bracket.closing? b.2 with
          | none => rfl
          | some bracket =>
              dsimp only
              split
              · exact ih hbehind hstart _
              · rfl
      | some bracket =>
          simp only [List.map_cons, Heading.groupsStart]
          split
          · exact ih hbehind hplace none
          · exact ih hbehind hstart _

theorem split_eq (t : Text) : split t = some (Heading.split t) := by
  have hbytes := bracketsFrom_eq 0 0 [] t
  simp only [Text.byteLength_nil, List.length_nil, List.nil_append] at hbytes
  have hbrackets : ∀ b ∈ (Heading.bracketsFrom 0 0 0 t).reverse, b.1 ≤ t.length ∧
      ∀ place ≤ t.length, Text.byteLength (t.take b.1) + 1 = Text.byteLength (t.take place) ↔
        b.1 + 1 = place := by
    intro b hb
    obtain ⟨hchar, hbracket⟩ := getElem?_of_mem_bracketsFrom [] (List.mem_reverse.1 hb)
    have hsize := utf8Size_of_bracket hbracket
    refine ⟨?_, fun place hplace => Text.byteLength_take_succ_eq_iff hchar hsize hplace⟩
    exact Nat.le_of_lt (List.getElem?_eq_some_iff.1 hchar).1
  have hstart := groupsStart_map (f := fun n => Text.byteLength (t.take n)) hbrackets
    (Nat.le_refl t.length) none
  rw [List.take_length] at hstart
  rw [split, hbytes, ← List.map_reverse, hstart, Heading.split, List.splitAt_eq]
  rw [Text.splitBytes?_eq_some, List.take_append_drop]
  exact ⟨rfl, rfl⟩

/-! ### The line -/

/-- Name and description of a line whose marker has the given length. -/
def heading (expand : Expander) (l : Line) (marker : Nat) : CheckedM Heading := do
  let (_, raw) ← ofOption (l.content.splitBytes? marker)
  let blanks ← ofOption (sub (Text.byteLength raw) (Text.byteLength (Text.trimStart raw)))
  let column := l.width + marker + blanks
  let (front, groups) ← ofOption (split (Text.trim raw))
  let description ← lift (Heading.readDescription groups l.number (column + front.length))
  let name := Text.trim front
  if name = [] then return ⟨none, description⟩
  else return ⟨some (← format expand name l.number column), description⟩

theorem heading_eq (e : Expander) {l : Line} {marker : Nat}
    (h : l.content.splitBytes? marker = some (l.content.take marker, l.content.drop marker)) :
    heading e l marker = lift (Heading.read e l marker) := by
  have hblanks : sub (Text.byteLength (l.content.drop marker))
      (Text.byteLength (Text.trimStart (l.content.drop marker))) = some _ :=
    sub_of_le (Text.byteLength_le_of_suffix (Text.trimStart_suffix _))
  unfold heading Heading.read
  simp only [h, ofOption_some, pure_bind, hblanks, split_eq, lift_bind, lift_ite, format_eq]
  rfl

/-- The marker of a section can be cut off. -/
theorem splitBytes?_sectionMarker {l : Line} (h : l.kind = .sectionStart) :
    l.content.splitBytes? (Document.sectionMarker l.content) =
      some (l.content.take (Document.sectionMarker l.content),
        l.content.drop (Document.sectionMarker l.content)) := by
  unfold Document.sectionMarker
  split
  · next t ht =>
      rw [Text.splitBytes?_eq_some, List.take_append_drop, ht]
      exact ⟨rfl, rfl⟩
  · exact splitBytes?_marker (by rw [h]; rfl)

end Checked

end IndentMarkup
