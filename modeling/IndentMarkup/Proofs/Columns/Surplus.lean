import IndentMarkup.Proofs.Escapes
import IndentMarkup.Proofs.Places

/-!
How far columns are off.

A column is counted in what the reader has in hand, and that can be longer than the line. A span is
cut out with its escapes written as references, which take more characters than the escapes, and
the columns inside the span count those. The blank characters behind the marker of a heading are
counted with their bytes. Here both differences are measured on the text as it was written.

* `Inline.surplus` — the characters that references add inside spans.
* `Inline.Cut.length_add` — what a span and the text behind it are longer than they were written.
* `Inline.surplusAfter_append_le`, `Inline.surplus_le_append` — the beginning and the end of a text
  have no more of them than the text.
* `Heading.surplus` — the bytes that blank characters add in front of a name.
-/

namespace IndentMarkup

namespace Inline

/-! ### References inside spans -/

/-- The characters that the references for the escapes inside spans have more than the escapes, in a
text that starts in `depth` spans. The first `skip` characters have been counted. -/
def surplusAfter : (skip depth : Nat) → Text → Nat
  | _, _, [] => 0
  | skip + 1, depth, _ :: t => surplusAfter skip depth t
  | 0, depth, c :: t =>
      match escapeAt? (c :: t) with
      | some entity => (if depth = 0 then 0 else entity.length - 2) + surplusAfter 1 depth t
      | none =>
          surplusAfter 0 (if c = '<' then depth + 1 else if c = '>' then depth - 1 else depth) t

/-- The characters that references add inside the spans of a text. -/
def surplus (t : Text) : Nat := surplusAfter 0 0 t

section Surplus

variable {c : Char} {t u entity : Text} {depth : Nat}

theorem surplusAfter_escape (h : Text.escapable? c = some entity) (depth : Nat) (t : Text) :
    surplusAfter 0 depth ('\\' :: c :: t)
      = (if depth = 0 then 0 else entity.length - 2) + surplusAfter 0 depth t := by
  rw [surplusAfter, escapeAt?_of_escapable h]
  rfl

theorem surplusAfter_char (h : escapeAt? (c :: t) = none) (depth : Nat) :
    surplusAfter 0 depth (c :: t)
      = surplusAfter 0 (if c = '<' then depth + 1 else if c = '>' then depth - 1 else depth) t := by
  rw [surplusAfter, h]

/-- In more spans more escapes are inside of one. -/
theorem surplusAfter_mono {more : Nat} (h : depth ≤ more) (t : Text) :
    surplusAfter 0 depth t ≤ surplusAfter 0 more t := by
  induction t using unit_induction generalizing depth more with
  | nil => exact Nat.le_refl 0
  | escape t hentity ih =>
      rw [surplusAfter_escape hentity, surplusAfter_escape hentity]
      have hrest := ih h
      split <;> split <;> omega
  | char t hescape ih =>
      rw [surplusAfter_char hescape, surplusAfter_char hescape]
      refine ih ?_
      split
      · omega
      · split <;> omega

/-- Outside of spans an escape adds nothing. -/
theorem surplus_escape (h : Text.escapable? c = some entity) (t : Text) :
    surplus ('\\' :: c :: t) = surplus t := by
  rw [surplus, surplusAfter_escape h, if_pos rfl, Nat.zero_add, surplus]

theorem surplus_opener (t : Text) : surplus ('<' :: t) = surplusAfter 0 1 t := by
  rw [surplus, surplusAfter_char (escapeAt?_of_ne (by decide) t), if_pos rfl]

theorem surplus_char (h : escapeAt? (c :: t) = none) (hopen : c ≠ '<') (hclose : c ≠ '>') :
    surplus (c :: t) = surplus t := by
  rw [surplus, surplusAfter_char h, if_neg hopen, if_neg hclose, surplus]

theorem surplusAfter_of_escapeFree (h : EscapeFree t) (depth : Nat) :
    surplusAfter 0 depth t = 0 := by
  induction t generalizing depth with
  | nil => rfl
  | cons c t ih =>
      obtain ⟨hescape, ht⟩ := escapeFree_cons.1 h
      rw [surplusAfter_char hescape, ih ht]

/-- The beginning of a text has no more than the text. -/
theorem surplusAfter_append_le (t u : Text) (depth : Nat) :
    surplusAfter 0 depth t ≤ surplusAfter 0 depth (t ++ u) := by
  induction t using unit_induction generalizing depth with
  | nil => exact Nat.zero_le _
  | escape t hentity ih =>
      rw [List.cons_append, List.cons_append, surplusAfter_escape hentity,
        surplusAfter_escape hentity]
      exact Nat.add_le_add_left (ih depth) _
  | @char c t hescape ih =>
      rw [surplusAfter_char hescape]
      cases happend : escapeAt? (c :: t ++ u) with
      | none =>
          rw [List.cons_append] at happend ⊢
          rw [surplusAfter_char happend]
          exact ih _
      | some entity =>
          -- only the end of the first text can have been cut through an escape
          have hnil : t = [] := by
            by_contra hsome
            have hsame := escapeAt?_congr (c := c) (head?_append_of_ne_nil hsome u)
            rw [List.cons_append, hsame, hescape] at happend
            cases happend
          subst hnil
          exact Nat.zero_le _

/-- The end of a text has no more than the text, unless it starts inside of an escape. -/
theorem surplus_le_append {t u : Text}
    (h : t.getLast? = some '\\' → ∀ d ∈ u.head?, Text.escapable? d = none) (depth : Nat) :
    surplus u ≤ surplusAfter 0 depth (t ++ u) := by
  induction t using unit_induction generalizing depth with
  | nil => exact surplusAfter_mono (Nat.zero_le depth) u
  | escape t hentity ih =>
      rw [List.cons_append, List.cons_append, surplusAfter_escape hentity]
      cases t with
      | nil => exact Nat.le_add_left_of_le (surplusAfter_mono (Nat.zero_le depth) u)
      | cons d t => exact Nat.le_add_left_of_le (ih (by simpa using h) depth)
  | @char c t hescape ih =>
      rw [List.cons_append]
      cases t with
      | nil =>
          have hnone : escapeAt? (c :: u) = none := by
            by_cases hc : c = '\\'
            · subst hc
              cases u with
              | nil => rfl
              | cons d u => exact h rfl d rfl
            · exact escapeAt?_of_ne hc u
          rw [List.nil_append, surplusAfter_char hnone]
          exact surplusAfter_mono (Nat.zero_le _) u
      | cons d t =>
          have hsame : escapeAt? (c :: (d :: t ++ u)) = none :=
            (escapeAt?_congr (t := d :: t ++ u) (u := d :: t) rfl).trans hescape
          rw [surplusAfter_char hsame]
          exact ih (by simpa using h) _

/-- The body of a span and the text behind it have together as many characters more than were
written as there are references. -/
theorem Cut.length_add {body rest : Text} (h : Cut depth t body rest) :
    body.length + 1 + rest.length + surplus rest = t.length + surplusAfter 0 (depth + 1) t := by
  induction h with
  | close t =>
      rw [surplusAfter_char (escapeAt?_of_ne (by decide) t), List.length_cons]
      simp only [List.length_nil, surplus]
      simp
      omega
  | @escape depth c entity t body rest hentity _ ih =>
      have hlength : 2 ≤ entity.length := by
        unfold Text.escapable? at hentity
        split at hentity <;> cases hentity <;> decide
      rw [surplusAfter_escape hentity, if_neg (Nat.succ_ne_zero _), List.length_append,
        List.length_cons, List.length_cons]
      omega
  | @inner depth t body rest _ ih =>
      rw [surplusAfter_char (escapeAt?_of_ne (by decide) t), if_neg (by decide), if_pos rfl,
        List.length_cons, List.length_cons]
      simp only [Nat.add_sub_cancel]
      omega
  | @opener depth t body rest _ ih =>
      rw [surplusAfter_char (escapeAt?_of_ne (by decide) t), if_pos rfl, List.length_cons,
        List.length_cons]
      omega
  | @char depth c t body rest hescape hopen hclose _ ih =>
      rw [surplusAfter_char hescape, if_neg hopen, if_neg hclose, List.length_cons,
        List.length_cons]
      omega

/-- What is cut out has no escapes, so no references are added to it. -/
theorem Cut.surplus_body {body rest : Text} (h : Cut depth t body rest) : surplus body = 0 := by
  have hagain := (h.again []).length_add
  have hwhole := surplusAfter_append_le body ['>'] (depth + 1)
  have hbody := surplusAfter_mono (Nat.zero_le (depth + 1)) body
  simp only [List.length_append, List.length_cons, List.length_nil] at hagain
  simp only [surplus, surplusAfter] at hagain ⊢
  omega

theorem Cut.surplus_rest_le {body rest : Text} (h : Cut depth t body rest) (depth' : Nat) :
    surplus rest ≤ surplusAfter 0 depth' t := by
  obtain ⟨front, rfl⟩ := h.exists_eq_append
  rw [List.append_cons]
  exact surplus_le_append (by simp) depth'

end Surplus

theorem surplus_trimStart_le (t : Text) : surplus (Text.trimStart t) ≤ surplus t := by
  have hblank : (t.takeWhile Text.isBlank).getLast? ≠ some '\\' := by
    intro hlast
    have hmem := List.mem_of_getLast? hlast
    exact absurd (List.mem_takeWhile_imp hmem) (by decide)
  have hle := surplus_le_append (t := t.takeWhile Text.isBlank) (u := Text.trimStart t)
    (fun hlast => absurd hlast hblank) 0
  rwa [Text.trimStart, List.takeWhile_append_dropWhile] at hle

theorem surplus_trim_le (t : Text) : surplus (Text.trim t) ≤ surplus t := by
  obtain ⟨blanks, -, hstart⟩ := Text.exists_eq_trimEnd_append (Text.trimStart t)
  have hle := surplusAfter_append_le (Text.trim t) blanks 0
  rw [Text.trim, ← hstart] at hle
  exact hle.trans (surplus_trimStart_le t)

/-- The text behind a tag has no more than the text with the tag. -/
theorem surplus_rest_le {t : Text} {s : Shorthand} (h : Shorthand.readToken t = .ok s) :
    surplus s.rest ≤ surplus t := by
  obtain ⟨front, hfront⟩ := Shorthand.rest_suffix h
  rw [← hfront]
  refine surplus_le_append (fun _ d hd => ?_) 0
  rcases (Shorthand.read_eq_ok_iff.1 h).ends with hnil | ⟨-, hspace⟩
  · rw [hnil] at hd
    cases hd
  · rw [hspace] at hd
    cases hd
    rfl

end Inline

namespace Text

/-! ### Blank characters counted with their bytes -/

/-- The bytes that the blank characters at the start of a text have more than characters. -/
def blankSurplus (t : Text) : Nat :=
  byteLength (t.takeWhile isBlank) - (t.takeWhile isBlank).length

theorem byteLength_sub_trimStart (t : Text) :
    byteLength t - byteLength (trimStart t) + (trimStart t).length = t.length + blankSurplus t := by
  have hbytes := congrArg byteLength (List.takeWhile_append_dropWhile (p := isBlank) (l := t))
  have hlength := congrArg List.length (List.takeWhile_append_dropWhile (p := isBlank) (l := t))
  have hle := length_le_byteLength (t.takeWhile isBlank)
  rw [byteLength_append] at hbytes
  rw [List.length_append] at hlength
  simp only [blankSurplus, trimStart]
  omega

theorem blankSurplus_append_le (t u : Text) : blankSurplus t ≤ blankSurplus (t ++ u) := by
  obtain ⟨more, hmore⟩ : ∃ more, (t ++ u).takeWhile isBlank = t.takeWhile isBlank ++ more := by
    rw [List.takeWhile_append]
    split
    · next hall =>
        rw [(List.takeWhile_prefix isBlank).eq_of_length hall]
        exact ⟨_, rfl⟩
    · exact ⟨[], (List.append_nil _).symm⟩
  have hle := length_le_byteLength more
  have hblanks := length_le_byteLength (t.takeWhile isBlank)
  simp only [blankSurplus, hmore, byteLength_append, List.length_append]
  omega

theorem blankSurplus_of_bytes {t : Text} (h : ∀ c ∈ t, isBlank c = true → c.utf8Size = 1) :
    blankSurplus t = 0 := by
  have hbytes {u : Text} (hu : ∀ c ∈ u, c.utf8Size = 1) : byteLength u = u.length := by
    induction u with
    | nil => rfl
    | cons c u ih =>
        rw [byteLength_cons, hu c List.mem_cons_self, List.length_cons,
          ih fun d hd => hu d (List.mem_cons_of_mem _ hd), Nat.add_comm]
  rw [blankSurplus, hbytes fun c hc => h c ((List.takeWhile_sublist _).subset hc)
    (List.mem_takeWhile_imp hc), Nat.sub_self]

end Text

namespace Heading

/-- The bytes that blank characters add in front of the name on the line of a heading. -/
def surplus : Text → Nat
  | '#' :: '#' :: t => Text.blankSurplus t
  | '#' :: t => Text.blankSurplus t
  | '@' :: t => Text.blankSurplus t
  | _ => 0

theorem surplus_single {c : Char} (h : c ≠ '#') (t : Text) :
    surplus ('#' :: c :: t) = Text.blankSurplus (c :: t) := by
  rw [surplus.eq_def]
  simp [h]

theorem surplus_append_le (t u : Text) : surplus t ≤ surplus (t ++ u) := by
  rcases t with - | ⟨c, t⟩
  · exact Nat.zero_le _
  · by_cases hsection : c = '#'
    · subst hsection
      rcases t with - | ⟨d, t⟩
      · exact Nat.zero_le _
      · by_cases hdouble : d = '#'
        · subst hdouble
          exact Text.blankSurplus_append_le t u
        · rw [List.cons_append, List.cons_append, surplus_single hdouble, surplus_single hdouble]
          exact Text.blankSurplus_append_le (d :: t) u
    · by_cases htab : c = '@'
      · subst htab
        exact Text.blankSurplus_append_le t u
      · simp [surplus, hsection, htab]

/-- A line that is no heading has none, and neither has a heading whose blank characters have one
byte. -/
theorem surplus_eq_zero {t : Text} (h : t.head? = some '#' ∨ t.head? = some '@' →
    ∀ c ∈ t, Text.isBlank c = true → c.utf8Size = 1) : surplus t = 0 := by
  have behind (front u : Text) (hbytes : ∀ c ∈ front ++ u, Text.isBlank c = true →
      c.utf8Size = 1) : Text.blankSurplus u = 0 :=
    Text.blankSurplus_of_bytes fun c hc => hbytes c (List.mem_append_right front hc)
  unfold surplus
  split
  · exact behind ['#', '#'] _ (h (.inl rfl))
  · exact behind ['#'] _ (h (.inl rfl))
  · exact behind ['@'] _ (h (.inr rfl))
  · rfl

end Heading

end IndentMarkup
