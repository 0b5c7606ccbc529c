import IndentMarkup.Text.Basic

/-!
Blank characters and trimming.

A character is blank if it has the Unicode property `White_Space`. Wherever a
document's text is trimmed or cut into words, this is the class that counts.

* `isBlank_of_isDigit` — no digit is blank.
* `trim_eq_nil_iff` — trimming leaves nothing of a text exactly when all its
  characters are blank.
-/

namespace IndentMarkup.Text

/-- The ranges of code points with the property `White_Space`, in ascending
order, both ends included. -/
def blankRanges : List (Nat × Nat) :=
  [(0x9, 0xD), (0x20, 0x20), (0x85, 0x85), (0xA0, 0xA0), (0x1680, 0x1680), (0x2000, 0x200A),
    (0x2028, 0x2029), (0x202F, 0x202F), (0x205F, 0x205F), (0x3000, 0x3000)]

/-- The character has the property `White_Space`. -/
def isBlank (c : Char) : Bool :=
  blankRanges.any fun range => range.1 ≤ c.toNat && c.toNat ≤ range.2

theorem isBlank_of_isDigit {c : Char} (h : c.isDigit = true) : isBlank c = false := by
  have hrange : 48 ≤ c.toNat ∧ c.toNat ≤ 57 := by
    simp only [Char.isDigit, Bool.and_eq_true, decide_eq_true_eq] at h
    exact ⟨UInt32.le_iff_toNat_le.1 h.1, UInt32.le_iff_toNat_le.1 h.2⟩
  simp only [isBlank, blankRanges, List.any_cons, List.any_nil, Bool.or_false,
    Bool.or_eq_false_iff, Bool.and_eq_false_iff, decide_eq_false_iff_not]
  omega

/-- Drop the blank characters at the start. -/
def trimStart (t : Text) : Text := t.dropWhile isBlank

/-- Drop the blank characters at the end. -/
def trimEnd (t : Text) : Text := (t.reverse.dropWhile isBlank).reverse

/-- Drop the blank characters at both ends. -/
def trim (t : Text) : Text := trimEnd (trimStart t)

/-- The maximal runs of characters that are not blank. -/
def words (t : Text) : List Text := (pieces isBlank t).filter (· ≠ [])

/-- Every character is blank. -/
def allBlank (t : Text) : Bool := t.all isBlank

theorem trimStart_eq_nil_iff {t : Text} : trimStart t = [] ↔ allBlank t = true := by
  induction t with
  | nil => simp [trimStart, allBlank]
  | cons c t ih =>
      simp only [trimStart, allBlank] at ih
      cases hc : isBlank c <;> simp [trimStart, allBlank, hc, ih]

theorem trimEnd_eq_nil_iff {t : Text} : trimEnd t = [] ↔ allBlank t = true := by
  have h := trimStart_eq_nil_iff (t := t.reverse)
  simp only [trimStart, allBlank, List.all_reverse] at h
  simp [trimEnd, h, allBlank]

theorem trim_eq_nil_iff {t : Text} : trim t = [] ↔ allBlank t = true := by
  rw [trim, trimEnd_eq_nil_iff]
  constructor
  · intro h
    have hdrop : (trimStart t).all isBlank = true := h
    rw [allBlank, ← List.takeWhile_append_dropWhile (p := isBlank) (l := t), List.all_append,
      List.all_takeWhile, Bool.true_and]
    exact hdrop
  · intro h
    rw [trimStart_eq_nil_iff.2 h]
    rfl

/-! ### Trimming what is put together -/

theorem trimEnd_append_of_allBlank (s : Text) {t : Text} (h : allBlank t = true) :
    trimEnd (s ++ t) = trimEnd s := by
  have hreverse : t.reverse.dropWhile isBlank = [] := by
    simpa [trimEnd] using trimEnd_eq_nil_iff.2 h
  rw [trimEnd, List.reverse_append, List.dropWhile_append, hreverse]
  rfl

theorem trimEnd_append_of_not_allBlank (s : Text) {t : Text} (h : allBlank t = false) :
    trimEnd (s ++ t) = s ++ trimEnd t := by
  have hne : t.reverse.dropWhile isBlank ≠ [] := by
    intro hnil
    rw [← Bool.not_eq_true, ← trimEnd_eq_nil_iff, trimEnd, hnil] at h
    exact h rfl
  rw [trimEnd, List.reverse_append, List.dropWhile_append, if_neg (by simpa using hne),
    List.reverse_append, List.reverse_reverse, trimEnd]

theorem trim_append_of_allBlank (s : Text) {t : Text} (h : allBlank t = true) :
    trim (s ++ t) = trim s := by
  cases hs : allBlank s with
  | true =>
      have hall : allBlank (s ++ t) = true := by
        rw [allBlank, List.all_append, Bool.and_eq_true]
        exact ⟨hs, h⟩
      rw [trim_eq_nil_iff.2 hs, trim_eq_nil_iff.2 hall]
  | false =>
      have hne : s.dropWhile isBlank ≠ [] := by
        rw [← Bool.not_eq_true, ← trimStart_eq_nil_iff] at hs
        exact hs
      rw [trim, trimStart, List.dropWhile_append, if_neg (by simpa using hne),
        trimEnd_append_of_allBlank _ h]
      rfl

/-- What trimming drops at the end is blank. -/
theorem exists_eq_trimEnd_append (t : Text) :
    ∃ blanks, allBlank blanks = true ∧ t = trimEnd t ++ blanks := by
  refine ⟨(t.reverse.takeWhile isBlank).reverse, ?_, ?_⟩
  · rw [allBlank, List.all_reverse]
    exact List.all_takeWhile
  · rw [trimEnd, ← List.reverse_append, List.takeWhile_append_dropWhile, List.reverse_reverse]

theorem trimEnd_cons_of_not_isBlank {c : Char} (h : isBlank c = false) (t : Text) :
    ∃ u, trimEnd (c :: t) = c :: u := by
  cases ht : allBlank t with
  | true =>
      refine ⟨[], ?_⟩
      rw [← List.singleton_append, trimEnd_append_of_allBlank _ ht]
      simp [trimEnd, h]
  | false =>
      exact ⟨trimEnd t, by rw [← List.singleton_append, trimEnd_append_of_not_allBlank _ ht]; rfl⟩

theorem trimStart_of_no_blank {t : Text} (h : ∀ c ∈ t, isBlank c = false) : trimStart t = t := by
  cases t with
  | nil => rfl
  | cons c t =>
      have hc := h c List.mem_cons_self
      rw [trimStart, List.dropWhile_cons_of_neg (by simp [hc])]

theorem trimEnd_of_no_blank {t : Text} (h : ∀ c ∈ t, isBlank c = false) : trimEnd t = t := by
  have hreverse := trimStart_of_no_blank (t := t.reverse) fun c hc => h c (List.mem_reverse.1 hc)
  rw [trimStart] at hreverse
  rw [trimEnd, hreverse, List.reverse_reverse]

theorem trim_of_no_blank {t : Text} (h : ∀ c ∈ t, isBlank c = false) : trim t = t := by
  rw [trim, trimStart_of_no_blank h, trimEnd_of_no_blank h]

theorem words_of_no_blank {t : Text} (hne : t ≠ []) (h : ∀ c ∈ t, isBlank c = false) :
    words t = [t] := by
  rw [words, pieces_of_no_cut h]
  simp [hne]

/-- No blank character stands in a word. -/
theorem isBlank_of_mem_words {w t : Text} (hw : w ∈ words t) {c : Char} (hc : c ∈ w) :
    isBlank c = false :=
  not_cut_of_mem_pieces (List.mem_filter.1 hw).1 hc

end IndentMarkup.Text
