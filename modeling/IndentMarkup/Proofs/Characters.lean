import IndentMarkup.Heading

/-!
Where the characters of a text come from.

Names, values and texts are cut out of lines, trimmed and cut again; nothing is written
there that the line does not have, but for the references that stand for escapes. So a
property of all characters of a line, and of those references, goes over to whatever is read
from the line.

* `trim_subset`, `subset_of_mem_pieces`, `mem_replace` — trimming, cutting and replacing.
* `forall_takeSpan` — a span that is cut out.
* `forall_read`, `forall_valuesOf` — the values of calls.
* `rest_suffix` — what a shorthand leaves.
-/

namespace IndentMarkup

/-! ### Trimming and cutting -/

namespace Text

/-- References are written with few characters. -/
theorem notMem_of_escapable {c d : Char} {reference : Text} (hd : d ∉ "&#92;&lt;&gt;".toList)
    (h : escapable? c = some reference) : d ∉ reference := by
  have hsubset : reference ⊆ "&#92;&lt;&gt;".toList := by
    unfold escapable? at h
    split at h <;> cases h <;> decide
  exact fun hmem => hd (hsubset hmem)

/-- Only characters at the start are trimmed off. -/
theorem trimStart_subset (t : Text) : trimStart t ⊆ t := List.dropWhile_subset _

/-- Trimming adds nothing. -/
theorem trim_subset (t : Text) : trim t ⊆ t := by
  intro c hc
  rw [trim, trimEnd, List.mem_reverse] at hc
  exact trimStart_subset t (List.mem_reverse.1 (List.dropWhile_subset _ hc))

/-- Nothing stands in a piece but what stands in the text. -/
theorem subset_of_mem_pieces {p : Char → Bool} {q t : Text} (hq : q ∈ pieces p t) : q ⊆ t := by
  induction t generalizing q with
  | nil =>
      rw [List.mem_singleton.1 hq]
      exact List.nil_subset _
  | cons c t ih =>
      obtain ⟨r, rs, hr⟩ := List.exists_cons_of_ne_nil (pieces_ne_nil p t)
      have hpieces : ∀ q ∈ r :: rs, q ⊆ t := fun q hq => ih (hr ▸ hq)
      rw [pieces, hr] at hq
      split at hq
      · rcases List.mem_cons.1 hq with rfl | hq
        · exact List.nil_subset _
        · exact List.subset_cons_of_subset c (hpieces q hq)
      · rcases List.mem_cons.1 hq with rfl | hq
        · exact List.cons_subset_cons c (hpieces r List.mem_cons_self)
        · exact List.subset_cons_of_subset c (hpieces q (List.mem_cons_of_mem r hq))

/-- What stands in a text with replacements stands in the text or in what is put in. -/
theorem mem_replace {old new t : Text} {c : Char} (h : c ∈ replace old new t) :
    c ∈ t ∨ c ∈ new := by
  -- on the length, because a match goes on behind all that was matched
  induction hlength : t.length using Nat.strongRecOn generalizing t with
  | ind k ih =>
      cases t with
      | nil => simp at h
      | cons d t =>
          have hshorter : t.length < k := hlength ▸ Nat.lt_succ_self t.length
          cases hmatch : old.isPrefixOf (d :: t) with
          | false =>
              rw [replace_cons_of_not_match hmatch] at h
              rcases List.mem_cons.1 h with rfl | h
              · exact .inl List.mem_cons_self
              · exact (ih _ hshorter h rfl).imp_left (List.mem_cons_of_mem d)
          | true =>
              rw [replace_cons_of_match hmatch] at h
              rcases List.mem_append.1 h with h | h
              · exact .inr h
              · have hle : (t.drop (old.length - 1)).length < k := by
                  rw [List.length_drop]
                  omega
                refine (ih _ hle h rfl).imp_left fun hmem => ?_
                exact List.mem_cons_of_mem d (List.drop_subset _ t hmem)

end Text

/-! ### Shorthands and spans -/

/-- A shorthand leaves the end of its text, wherever its reader stands in it. -/
theorem Shorthand.rest_suffix_readFrom {p : Progress} {column : Nat} {t : Text} {s : Shorthand}
    (h : readFrom .token p column t = .ok s) : s.rest <:+ t := by
  induction t generalizing p column with
  | nil =>
      rw [readFrom] at h
      cases hplace : p.place <;> simp only [Progress.finish, hplace] at h <;> cases h <;>
        exact List.suffix_rfl
  | cons c t ih =>
      rw [readFrom] at h
      split at h
      · cases h
        exact List.suffix_rfl
      · split at h
        · exact (ih h).trans (List.suffix_cons c t)
        · cases h

/-- What a shorthand leaves is the end of its text. -/
theorem Shorthand.rest_suffix {t : Text} {s : Shorthand} (h : readToken t = .ok s) :
    s.rest <:+ t :=
  rest_suffix_readFrom h

/-- The text in front of the groups at the end of a heading is a part of the heading. -/
theorem Heading.split_subset (t : Text) : (split t).1 ⊆ t := by
  rw [split, List.splitAt_eq]
  exact List.take_subset _ t

variable {p : Char → Prop}

/-- A span has characters of its text and of references, wherever its reader stands in it. -/
theorem Inline.forall_takeSpanAfter
    (hescape : ∀ {c reference}, Text.escapable? c = some reference → ∀ d ∈ reference, p d)
    {t : Text} (ht : ∀ c ∈ t, p c) {skip depth : Nat} {r : Text × Nat}
    (h : takeSpanAfter skip depth t = some r) : ∀ c ∈ r.1, p c := by
  induction t generalizing skip depth r with
  | nil => cases skip <;> cases h
  -- a reader within an escape passes the character over; any other one takes it apart
  | cons c t ih =>
      obtain ⟨hc, ht⟩ := List.forall_mem_cons.1 ht
      cases skip with
      | succ skip =>
          rw [takeSpanAfter] at h
          obtain ⟨r', hr', rfl⟩ := Option.map_eq_some_iff.1 h
          exact ih ht (r := r') hr'
      | zero =>
          rw [takeSpanAfter] at h
          split at h
          · next reference hreference =>
              obtain ⟨r', hr', rfl⟩ := Option.map_eq_some_iff.1 h
              have hwritten : ∀ d ∈ reference, p d := by
                unfold escapeAt? at hreference
                split at hreference
                · exact hescape hreference
                · cases hreference
              exact List.forall_mem_append.2 ⟨hwritten, ih ht hr'⟩
          · split at h
            · split at h
              · cases h
                exact nofun
              · obtain ⟨r', hr', rfl⟩ := Option.map_eq_some_iff.1 h
                exact List.forall_mem_cons.2 ⟨hc, ih ht hr'⟩
            · obtain ⟨r', hr', rfl⟩ := Option.map_eq_some_iff.1 h
              exact List.forall_mem_cons.2 ⟨hc, ih ht hr'⟩

/-- A span has characters of its text and of references. -/
theorem Inline.forall_takeSpan
    (hescape : ∀ {c reference}, Text.escapable? c = some reference → ∀ d ∈ reference, p d)
    {t body : Text} {used : Nat} (ht : ∀ c ∈ t, p c) (h : takeSpan t = some (body, used)) :
    ∀ c ∈ body, p c :=
  forall_takeSpanAfter hescape ht h

/-! ### Values -/

/-- The values that are taken one by one have characters of the text. -/
theorem Inline.Call.forall_takeValues {n : Nat} {t : Text} (ht : ∀ c ∈ t, p c)
    {r : List Text × Text} (h : takeValues n t = some r) : ∀ v ∈ r.1, ∀ c ∈ v, p c := by
  induction n generalizing t r with
  | zero =>
      cases h
      exact nofun
  | succ n ih =>
      rw [takeValues] at h
      split at h
      · cases h
      · next c rest hrest =>
          obtain ⟨r', hr', rfl⟩ := Option.map_eq_some_iff.1 h
          have hbehind : ∀ d ∈ rest, p d := by
            intro d hd
            exact ht d (List.dropWhile_subset _ (hrest ▸ List.mem_cons_of_mem c hd))
          refine List.forall_mem_cons.2 ⟨?_, ih hbehind hr'⟩
          intro d hd
          exact ht d ((List.takeWhile_prefix _).subset (Text.trim_subset _ hd))

/-- The values of a call in a text have characters of the text. -/
theorem Inline.Call.forall_read {arity : Nat} {t : Text} {call : Call} (ht : ∀ c ∈ t, p c)
    (h : read? arity t = some call) : ∀ v ∈ call.values, ∀ c ∈ v, p c := by
  unfold read? at h
  split at h
  · cases h
  · next c rest hrest =>
      split at h
      · obtain ⟨r, hr, rfl⟩ := Option.map_eq_some_iff.1 h
        have hbehind : ∀ d ∈ rest, p d := by
          intro d hd
          exact ht d (List.dropWhile_subset _ (hrest ▸ List.mem_cons_of_mem c hd))
        dsimp only
        split
        · exact nofun
        · exact forall_takeValues hbehind hr
      · cases h
        exact nofun

/-- The values of a call on a line have characters of the line. -/
theorem Template.forall_valuesOf {t : Text} (ht : ∀ c ∈ t, p c) :
    ∀ v ∈ valuesOf t, ∀ c ∈ v, p c := by
  intro v hv c hc
  unfold valuesOf at hv
  dsimp only at hv
  split at hv
  · cases hv
  · obtain ⟨q, hq, rfl⟩ := List.mem_map.1 hv
    exact ht c (Text.trim_subset t (Text.subset_of_mem_pieces hq (Text.trim_subset q hc)))

/-! ### Bodies -/

/-- Protecting closing brackets writes references only. -/
theorem Template.mem_protectClosers {t : Text} {c : Char} (h : c ∈ protectClosers t) :
    c ∈ t ∨ c ∈ "&gt;".toList := by
  -- on the cases of the function: an escaped closing bracket is two characters of the text
  induction t using protectClosers.induct with
  | case1 => cases h
  | case2 d => exact .inl h
  | case3 d e u hmatch ih =>
      simp only [protectClosers, hmatch, and_self, if_true] at h
      rcases List.mem_append.1 h with h | h
      · exact .inr h
      · exact (ih h).imp_left fun hmem => List.mem_cons_of_mem d (List.mem_cons_of_mem e hmem)
  | case4 d e u hne ih =>
      simp only [protectClosers, hne, if_false] at h
      rcases List.mem_cons.1 h with rfl | h
      · exact .inl List.mem_cons_self
      · exact (ih h).imp_left (List.mem_cons_of_mem d)

end IndentMarkup
