import IndentMarkup.Text.Blank

/-!
Arithmetic and slices that can fail.

On a machine a difference may not be negative, a product has to fit into a word, nothing is
divided by zero, and a text is cut between two of its bytes only if a character ends there.
Here each of these comes out with nothing if it fails.

* `Checked.sub`, `Checked.mul`, `Checked.div`, `Checked.mod` — arithmetic.
* `Text.splitBytes?` — cut a text between two bytes.
* `Text.splitBytes?_eq_some` — where a text can be cut.
-/

namespace IndentMarkup

/-! ### Arithmetic -/

namespace Checked

/-- A difference that is not negative. -/
def sub (a b : Nat) : Option Nat := if b ≤ a then some (a - b) else none

/-- A product that fits into a word of 64 bits. -/
def mul (a b : Nat) : Option Nat := if a * b < UInt64.size then some (a * b) else none

/-- A quotient by a number that is not zero. -/
def div (a b : Nat) : Option Nat := if b = 0 then none else some (a / b)

/-- What is left behind the division by a number that is not zero. -/
def mod (a b : Nat) : Option Nat := if b = 0 then none else some (a % b)

theorem sub_of_le {a b : Nat} (h : b ≤ a) : sub a b = some (a - b) := if_pos h

theorem mul_of_lt {a b : Nat} (h : a * b < UInt64.size) : mul a b = some (a * b) := if_pos h

theorem div_of_ne_zero {b : Nat} (h : b ≠ 0) (a : Nat) : div a b = some (a / b) := if_neg h

theorem mod_of_ne_zero {b : Nat} (h : b ≠ 0) (a : Nat) : mod a b = some (a % b) := if_neg h

end Checked

namespace Text

/-! ### Lengths in bytes -/

/-- Half as many bytes as a word of 64 bits can count; a text in memory has fewer. -/
def byteLimit : Nat := UInt64.size / 2

@[simp] theorem byteLength_nil : byteLength [] = 0 := rfl

@[simp] theorem byteLength_cons (c : Char) (t : Text) :
    byteLength (c :: t) = c.utf8Size + byteLength t := rfl

@[simp] theorem byteLength_append (s t : Text) :
    byteLength (s ++ t) = byteLength s + byteLength t := by
  induction s with
  | nil => simp
  | cons c s ih => simp [ih, Nat.add_assoc]

theorem byteLength_replicate {c : Char} (hc : c.utf8Size = 1) (n : Nat) :
    byteLength (List.replicate n c) = n := by
  induction n with
  | zero => rfl
  | succ n ih => simp [List.replicate_succ, hc, ih, Nat.add_comm]

theorem byteLength_le_of_suffix {s t : Text} (h : s <:+ t) : byteLength s ≤ byteLength t := by
  obtain ⟨front, rfl⟩ := h
  simp

theorem trimStart_suffix (t : Text) : trimStart t <:+ t := List.dropWhile_suffix _

/-- What is left of a text without the blanks at its end is blank only if nothing is left. -/
theorem trimStart_trimEnd_eq_nil_iff {t : Text} :
    trimStart (trimEnd t) = [] ↔ trimEnd t = [] := by
  rw [trimStart_eq_nil_iff]
  constructor
  · intro h
    obtain ⟨blanks, hblanks, ht⟩ := exists_eq_trimEnd_append t
    rw [trimEnd_eq_nil_iff, ht, allBlank, List.all_append, Bool.and_eq_true]
    exact ⟨h, hblanks⟩
  · intro h
    rw [h]
    rfl

/-- Every character has a byte. -/
theorem length_le_byteLength (t : Text) : t.length ≤ byteLength t := by
  induction t with
  | nil => simp
  | cons c t ih =>
      have hc := c.utf8Size_pos
      simp only [List.length_cons, byteLength_cons]
      omega

/-! ### Slices -/

/-- The text in front of the `n`-th byte and the text from there on. There is nothing if the
text is shorter or if the place is inside of a character. -/
def splitBytes? : Nat → Text → Option (Text × Text)
  | 0, t => some ([], t)
  | _ + 1, [] => none
  | n + 1, c :: t =>
      if c.utf8Size ≤ n + 1 then
        (splitBytes? (n + 1 - c.utf8Size) t).map fun parts => (c :: parts.1, parts.2)
      else none

/-- A text can be cut behind each of its beginnings. -/
@[simp] theorem splitBytes?_append (s t : Text) :
    splitBytes? (byteLength s) (s ++ t) = some (s, t) := by
  induction s with
  | nil =>
      cases t <;> rfl
  | cons c s ih =>
      obtain ⟨n, hn⟩ : ∃ n, c.utf8Size + byteLength s = n + 1 :=
        ⟨c.utf8Size + byteLength s - 1, by have hc := c.utf8Size_pos; omega⟩
      have hrest : n + 1 - c.utf8Size = byteLength s := by omega
      rw [byteLength_cons, List.cons_append, hn, splitBytes?, if_pos (by omega), hrest, ih]
      rfl

/-- It can be cut nowhere else. -/
theorem splitBytes?_eq_some {n : Nat} {t front back : Text} :
    splitBytes? n t = some (front, back) ↔ t = front ++ back ∧ n = byteLength front := by
  constructor
  · intro h
    induction t generalizing n front with
    | nil =>
        cases n with
        | zero =>
            cases h
            exact ⟨rfl, rfl⟩
        | succ n => cases h
    | cons c t ih =>
        cases n with
        | zero =>
            cases h
            exact ⟨rfl, rfl⟩
        | succ n =>
            rw [splitBytes?] at h
            split at h
            · next hfits =>
                obtain ⟨⟨front', back'⟩, hparts, heq⟩ := Option.map_eq_some_iff.1 h
                cases heq
                obtain ⟨rfl, hbytes⟩ := ih hparts
                refine ⟨rfl, ?_⟩
                change n + 1 = c.utf8Size + byteLength front'
                omega
            · cases h
  · rintro ⟨rfl, rfl⟩
    exact splitBytes?_append front back

/-- Behind a character of one byte. -/
theorem splitBytes?_one {c : Char} (hc : c.utf8Size = 1) (t : Text) :
    splitBytes? 1 (c :: t) = some ([c], t) := by
  have h := splitBytes?_append [c] t
  rwa [byteLength_cons, hc, byteLength_nil, Nat.add_zero] at h

/-- To drop bytes is to cut the text there and take what is behind. -/
theorem dropBytes_eq (n : Nat) (t : Text) :
    dropBytes n t = ((splitBytes? n t).map Prod.snd).getD [] := by
  induction t generalizing n with
  | nil => cases n <;> rfl
  | cons c t ih =>
      cases n with
      | zero => rfl
      | succ n =>
          rw [dropBytes, if_neg (Nat.succ_ne_zero n), splitBytes?]
          by_cases hfits : c.utf8Size ≤ n + 1
          · rw [if_pos hfits, if_pos hfits, ih, Option.map_map]
            rfl
          · rw [if_neg hfits, if_neg hfits]
            rfl

end Text

end IndentMarkup
