/-!
Text and the operations on it that the rest of the library is written in.

A text is the list of its characters, so every operation is a recursion on a
list and its laws are laws of lists. Texts are ordered by code point, first
difference first; that is the order of every table and of every listing.

* `pieces_ne_nil` — cutting a text never yields an empty list.
* `replace_cons_of_match`, `replace_cons_of_not_match` — replacing proceeds
  from left to right and never reads what it wrote.
-/

namespace IndentMarkup

/-- A text is a list of characters. -/
abbrev Text := List Char

namespace Text

/-! ### Cutting and joining -/

/-- Cut a text at every character that satisfies `p`; the characters cut at
are dropped. There is one piece more than there are cuts. -/
def pieces (p : Char → Bool) : Text → List Text
  | [] => [[]]
  | c :: t => if p c then [] :: pieces p t else (pieces p t).modifyHead (c :: ·)

theorem pieces_ne_nil (p : Char → Bool) : ∀ t : Text, pieces p t ≠ []
  | [] => by simp [pieces]
  | c :: t => by
      have ih := pieces_ne_nil p t
      unfold pieces
      split
      · simp
      · cases h : pieces p t with
        | nil => exact absurd h ih
        | cons q qs => simp

theorem pieces_of_no_cut {p : Char → Bool} {t : Text} (h : ∀ c ∈ t, p c = false) :
    pieces p t = [t] := by
  induction t with
  | nil => rfl
  | cons c t ih =>
      have hc := h c List.mem_cons_self
      have ht := ih fun d hd => h d (List.mem_cons_of_mem c hd)
      simp [pieces, hc, ht]

/-- No character cut at stands in a piece. -/
theorem not_cut_of_mem_pieces {p : Char → Bool} {q t : Text} (hq : q ∈ pieces p t) {c : Char}
    (hc : c ∈ q) : p c = false := by
  induction t generalizing q with
  | nil =>
      rw [List.mem_singleton.1 hq] at hc
      cases hc
  | cons d t ih =>
      obtain ⟨r, rs, hr⟩ := List.exists_cons_of_ne_nil (pieces_ne_nil p t)
      have hpieces : ∀ q ∈ r :: rs, c ∈ q → p c = false := fun q hq hc => ih (hr ▸ hq) hc
      rw [pieces, hr] at hq
      split at hq
      · rcases List.mem_cons.1 hq with rfl | hq
        · cases hc
        · exact hpieces q hq hc
      · next hd =>
          rcases List.mem_cons.1 hq with rfl | hq
          · rcases List.mem_cons.1 hc with rfl | hc
            · simpa using hd
            · exact hpieces r List.mem_cons_self hc
          · exact hpieces q (List.mem_cons_of_mem r hq) hc

/-- Write the pieces one after the other with `separator` between neighbours. -/
def join (separator : Text) : List Text → Text
  | [] => []
  | [t] => t
  | t :: u :: ts => t ++ separator ++ join separator (u :: ts)

/-- The pieces of a text between line feeds. -/
def splitLines (t : Text) : List Text := pieces (· == '\n') t

/-- The characters in front that are all the same. -/
theorem takeWhile_eq_replicate (c : Char) (t : Text) :
    t.takeWhile (· = c) = List.replicate (t.takeWhile (· = c)).length c :=
  List.eq_replicate_of_mem fun d hd =>
    of_decide_eq_true (List.all_eq_true.1 List.all_takeWhile d hd)

/-! ### Replacing -/

/-- Replace `old` by `new` from left to right, after `skip` characters that are
passed over in silence because they belong to the last match. -/
def replaceAfter (old new : Text) : Nat → Text → Text
  | _, [] => []
  | skip + 1, _ :: t => replaceAfter old new skip t
  | 0, c :: t =>
      if old.isPrefixOf (c :: t) then new ++ replaceAfter old new (old.length - 1) t
      else c :: replaceAfter old new 0 t

/-- Replace every occurrence of `old` by `new`, from left to right, occurrences
not overlapping. Meant for a non-empty `old`. -/
def replace (old new t : Text) : Text := replaceAfter old new 0 t

theorem replaceAfter_eq_drop (old new : Text) :
    ∀ (skip : Nat) (t : Text), replaceAfter old new skip t = replace old new (t.drop skip)
  | 0, t => by simp [replace]
  | skip + 1, [] => by simp [replace, replaceAfter]
  | skip + 1, c :: t => by
      rw [replaceAfter, replaceAfter_eq_drop old new skip t, List.drop_succ_cons]

@[simp] theorem replace_nil (old new : Text) : replace old new [] = [] := by
  simp [replace, replaceAfter]

theorem replace_cons_of_match {old new : Text} {c : Char} {t : Text}
    (h : old.isPrefixOf (c :: t) = true) :
    replace old new (c :: t) = new ++ replace old new (t.drop (old.length - 1)) := by
  rw [replace, replaceAfter, if_pos h, replaceAfter_eq_drop]

theorem replace_cons_of_not_match {old new : Text} {c : Char} {t : Text}
    (h : old.isPrefixOf (c :: t) = false) :
    replace old new (c :: t) = c :: replace old new t := by
  rw [replace, replaceAfter, if_neg (by simp [h])]
  rfl

/-! ### Lengths in bytes -/

/-- The number of bytes of the text in UTF-8. -/
def byteLength : Text → Nat
  | [] => 0
  | c :: t => c.utf8Size + byteLength t

/-- What follows the first `n` bytes; nothing if the text is shorter or if the
`n`-th byte is not the last of a character. -/
def dropBytes : Nat → Text → Text
  | _, [] => []
  | n, c :: t =>
      if n = 0 then c :: t
      else if c.utf8Size ≤ n then dropBytes (n - c.utf8Size) t
      else []

theorem dropBytes_replicate {c : Char} (hc : c.utf8Size = 1) (n : Nat) (t : Text) :
    dropBytes n (List.replicate n c ++ t) = t := by
  induction n with
  | zero => cases t <;> simp [dropBytes]
  | succ n ih => simp [List.replicate_succ, dropBytes, hc, ih]

/-! ### Numbers -/

/-- The decimal digits of a number. -/
def ofNat (n : Nat) : Text := Nat.toDigits 10 n

/-- The value of a decimal digit. -/
def digitValue? (c : Char) : Option Nat :=
  if '0' ≤ c ∧ c ≤ '9' then some (c.toNat - '0'.toNat) else none

/-- The number that the digits spell after the digits whose value is `before`. -/
def digitsValue? (before : Nat) : Text → Option Nat
  | [] => some before
  | c :: t => (digitValue? c).bind fun d => digitsValue? (10 * before + d) t

/-- The number spelled by a text of ASCII digits, at least one, after an
optional plus sign, if it is at most `most`. -/
def toNat? (most : Nat) (t : Text) : Option Nat :=
  let digits := match t with
    | '+' :: rest => rest
    | _ => t
  if digits = [] then none
  else (digitsValue? 0 digits).filter (· ≤ most)

theorem isDigit_of_mem_ofNat {n : Nat} {c : Char} (h : c ∈ ofNat n) : c.isDigit = true :=
  Nat.isDigit_of_mem_toDigits (by decide) (by decide) h

theorem digitsValue?_of_isDigit {t : Text} (h : ∀ c ∈ t, c.isDigit = true) (before : Nat) :
    digitsValue? before t = some (Nat.ofDigitChars 10 t before) := by
  induction t generalizing before with
  | nil => simp [digitsValue?]
  | cons c t ih =>
      obtain ⟨hc, ht⟩ := List.forall_mem_cons.1 h
      have hvalue : digitValue? c = some (c.toNat - '0'.toNat) := by
        simp only [Char.isDigit, Bool.and_eq_true, decide_eq_true_eq] at hc
        exact if_pos hc
      rw [digitsValue?, hvalue, Option.bind_some, ih ht, Nat.ofDigitChars_cons]

/-- The digits of a number spell it. -/
theorem toNat?_ofNat {most n : Nat} (h : n ≤ most) : toNat? most (ofNat n) = some n := by
  have hvalue : digitsValue? 0 (ofNat n) = some n := by
    rw [digitsValue?_of_isDigit (fun _ => isDigit_of_mem_ofNat), ofNat,
      Nat.ofDigitChars_toDigits (by decide) (by decide)]
  have hsome : ofNat n ≠ [] := Nat.toDigits_ne_nil
  have hsign : (match ofNat n with | '+' :: rest => rest | _ => ofNat n) = ofNat n := by
    split
    · next rest hplus =>
        exact absurd (isDigit_of_mem_ofNat (hplus ▸ List.mem_cons_self)) (by decide)
    · rfl
  dsimp only [toNat?]
  rw [hsign, if_neg hsome, hvalue, Option.filter_some, if_pos (by simpa using h)]

theorem le_of_toNat? {most n : Nat} {t : Text} (h : toNat? most t = some n) : n ≤ most := by
  unfold toNat? at h
  extract_lets digits at h
  split at h
  · cases h
  · simpa using (Option.filter_eq_some_iff.1 h).2

end Text

end IndentMarkup
