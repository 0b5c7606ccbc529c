import IndentMarkup.Proofs.Characters

/-!
How spans are cut out of a text.

A text is a sequence of units, escapes and single characters. A span is cut out unit by unit, with
a count of the spans that are open in it, and its escapes are written as references on the way. A
cut stays what it is when text is put behind it, and what has been cut out can be cut out again,
because it has no escapes any more.

* `Inline.unit_induction` — induction over the units of a text.
* `Inline.referenced` — a text with its escapes written as references.
* `Inline.EscapeFree` — a text in which there is nothing to write so.
* `Inline.Cut` — a body that is cut out of a text, and the text behind it.
* `Inline.takeSpanAfter_of_cut`, `Inline.cut_of_takeSpanAfter` — the cuts that `takeSpan` makes.
* `Inline.Cut.append`, `Inline.Cut.deeper`, `Inline.Cut.again` — cuts in larger texts, and of
  bodies.
* `Inline.Cut.count_closers`, `Inline.EscapeFree.exists_cut` — cuts and the number of brackets.
-/

namespace IndentMarkup.Inline

/-! ### Units -/

section Units

variable {c : Char} {t u entity : Text}

theorem escapeAt?_of_escapable (h : Text.escapable? c = some entity) (t : Text) :
    escapeAt? ('\\' :: c :: t) = some entity := h

theorem escapeAt?_ne_none (h : Text.escapable? c = some entity) (t : Text) :
    escapeAt? ('\\' :: c :: t) ≠ none := by
  rw [escapeAt?_of_escapable h]
  exact Option.some_ne_none entity

theorem exists_of_escapeAt? (h : escapeAt? (c :: t) = some entity) :
    c = '\\' ∧ ∃ d u, t = d :: u ∧ Text.escapable? d = some entity := by
  unfold escapeAt? at h
  split at h
  · next d u heq =>
    obtain ⟨rfl, rfl⟩ := List.cons.inj heq
    exact ⟨rfl, d, u, rfl, h⟩
  · cases h

theorem escapeAt?_of_ne (h : c ≠ '\\') (t : Text) : escapeAt? (c :: t) = none := by
  cases hescape : escapeAt? (c :: t) with
  | none => rfl
  | some entity => exact absurd (exists_of_escapeAt? hescape).1 h

/-- Whether an escape starts is seen from two characters. -/
theorem escapeAt?_congr (h : t.head? = u.head?) : escapeAt? (c :: t) = escapeAt? (c :: u) := by
  by_cases hc : c = '\\'
  · subst hc
    cases t <;> cases u <;> simp_all [escapeAt?]
  · rw [escapeAt?_of_ne hc, escapeAt?_of_ne hc]

theorem head?_append_of_ne_nil (h : t ≠ []) (u : Text) : (t ++ u).head? = t.head? := by
  cases t with
  | nil => exact absurd rfl h
  | cons c t => rfl

/-- A reference has none of the characters that are escaped. -/
theorem not_markup_of_escapable (h : Text.escapable? c = some entity) :
    ∀ d ∈ entity, d ∉ ['\\', '<', '>'] := by
  intro d hd hmarkup
  simp only [List.mem_cons, List.not_mem_nil, or_false] at hmarkup
  rcases hmarkup with rfl | rfl | rfl
  · exact Text.notMem_of_escapable (by decide) h hd
  · exact Text.notMem_of_escapable (by decide) h hd
  · exact Text.notMem_of_escapable (by decide) h hd

theorem forall_not_markup_cons : (∀ d ∈ c :: t, d ∉ ['\\', '<', '>']) ↔
    (c ≠ '\\' ∧ c ≠ '<' ∧ c ≠ '>') ∧ ∀ d ∈ t, d ∉ ['\\', '<', '>'] := by
  simp

theorem exists_of_escapable (h : Text.escapable? c = some entity) : ∃ u, entity = '&' :: u := by
  unfold Text.escapable? at h
  split at h <;> cases h <;> exact ⟨_, rfl⟩

/-- No marker of a line can be escaped, but for the one of comments. -/
theorem escapable?_of_marker (h : c ∈ markers) (hcomment : c ≠ '>') :
    Text.escapable? c = none := by
  unfold Text.escapable?
  split
  · exact absurd h (by decide)
  · exact absurd h (by decide)
  · exact absurd rfl hcomment
  · rfl

/-- A text is read unit by unit: an escape, or one character. -/
@[elab_as_elim]
theorem unit_induction {motive : Text → Prop} (nil : motive [])
    (escape : ∀ {c : Char} {entity : Text} (t : Text), Text.escapable? c = some entity →
      motive t → motive ('\\' :: c :: t))
    (char : ∀ {c : Char} (t : Text), escapeAt? (c :: t) = none → motive t → motive (c :: t))
    (t : Text) : motive t := by
  induction hlength : t.length using Nat.strongRecOn generalizing t with
  | ind n ih =>
      cases t with
      | nil => exact nil
      | cons c t =>
          rw [List.length_cons] at hlength
          cases hescape : escapeAt? (c :: t) with
          | none => exact char t hescape (ih _ (by omega) t rfl)
          | some entity =>
              obtain ⟨rfl, d, u, rfl, hentity⟩ := exists_of_escapeAt? hescape
              rw [List.length_cons] at hlength
              exact escape u hentity (ih _ (by omega) u rfl)

end Units

/-! ### References -/

/-- A text with its escapes written as references, after `skip` characters of an escape. -/
def referencedAfter : (skip : Nat) → Text → Text
  | _, [] => []
  | skip + 1, _ :: t => referencedAfter skip t
  | 0, c :: t =>
      match escapeAt? (c :: t) with
      | some entity => entity ++ referencedAfter 1 t
      | none => c :: referencedAfter 0 t

/-- A text with its escapes written as references. -/
def referenced (t : Text) : Text := referencedAfter 0 t

section References

variable {c : Char} {t entity : Text}

@[simp] theorem referenced_nil : referenced [] = [] := rfl

theorem referenced_escape (h : Text.escapable? c = some entity) (t : Text) :
    referenced ('\\' :: c :: t) = entity ++ referenced t := by
  rw [referenced, referencedAfter, escapeAt?_of_escapable h]
  rfl

theorem referenced_char (h : escapeAt? (c :: t) = none) :
    referenced (c :: t) = c :: referenced t := by
  rw [referenced, referencedAfter, h]
  rfl

theorem referenced_of_ne (h : c ≠ '\\') (t : Text) :
    referenced (c :: t) = c :: referenced t := referenced_char (escapeAt?_of_ne h t)

/-- Text without markup has no escapes, and starts none. -/
theorem referenced_plain_append {u : Text} (hu : ∀ d ∈ u, d ∉ ['\\', '<', '>']) (t : Text) :
    referenced (u ++ t) = u ++ referenced t := by
  induction u with
  | nil => rfl
  | cons d u ih =>
      obtain ⟨hd, hu⟩ := forall_not_markup_cons.1 hu
      rw [List.cons_append, referenced_of_ne hd.1 _, ih hu]
      rfl

/-- Behind a character that starts no escape none is started by writing references. -/
theorem escapeAt?_referenced (h : escapeAt? (c :: t) = none) :
    escapeAt? (c :: referenced t) = none := by
  by_cases hc : c = '\\'
  · subst hc
    cases t with
    | nil => rfl
    | cons d t =>
        have hd : d ≠ '\\' := by
          rintro rfl
          cases h
        rw [referenced_of_ne hd t, ← h]
        exact escapeAt?_congr rfl
  · exact escapeAt?_of_ne hc _

/-- A text with references starts with the character that the text starts with, unless that is an
escape. -/
theorem head?_referenced (t : Text) : (referenced t).head? = t.head? ∨
    t.head? = some '\\' ∧ (referenced t).head? = some '&' := by
  induction t using unit_induction with
  | nil => exact .inl rfl
  | escape t hentity _ =>
      obtain ⟨u, rfl⟩ := exists_of_escapable hentity
      rw [referenced_escape hentity]
      exact .inr ⟨rfl, rfl⟩
  | char t hescape _ =>
      rw [referenced_char hescape]
      exact .inl rfl

end References

/-! ### Texts without escapes -/

/-- No escape stands in the text, so there is nothing to write as a reference. -/
def EscapeFree (t : Text) : Prop := referenced t = t

instance (t : Text) : Decidable (EscapeFree t) := inferInstanceAs (Decidable (referenced t = t))

section EscapeFree

variable {c : Char} {t : Text}

theorem escapeFree_cons : EscapeFree (c :: t) ↔ escapeAt? (c :: t) = none ∧ EscapeFree t := by
  cases hescape : escapeAt? (c :: t) with
  | none => simp [EscapeFree, referenced_char hescape]
  | some entity =>
      obtain ⟨rfl, d, u, rfl, hentity⟩ := exists_of_escapeAt? hescape
      obtain ⟨v, rfl⟩ := exists_of_escapable hentity
      simp [EscapeFree, referenced_escape hentity]

theorem EscapeFree.of_append {u : Text} (h : EscapeFree (t ++ u)) :
    EscapeFree t ∧ EscapeFree u := by
  induction t with
  | nil => exact ⟨rfl, h⟩
  | cons c t ih =>
      obtain ⟨hescape, hbehind⟩ := escapeFree_cons.1 h
      obtain ⟨ht, hu⟩ := ih hbehind
      refine ⟨escapeFree_cons.2 ⟨?_, ht⟩, hu⟩
      cases t with
      | nil =>
          by_cases hc : c = '\\'
          · subst hc
            rfl
          · exact escapeAt?_of_ne hc []
      | cons d t => exact (escapeAt?_congr (t := d :: t) (u := d :: t ++ u) rfl).trans hescape

/-- References are written in what stands behind a text without escapes, unless its last backslash
starts one. -/
theorem EscapeFree.referenced_append (h : EscapeFree t) (hlast : t.getLast? ≠ some '\\')
    (u : Text) : referenced (t ++ u) = t ++ referenced u := by
  induction t with
  | nil => rfl
  | cons c t ih =>
      obtain ⟨hescape, ht⟩ := escapeFree_cons.1 h
      cases t with
      | nil => exact referenced_of_ne (fun hc => hlast (by rw [hc]; rfl)) u
      | cons d t =>
          rw [List.getLast?_cons_cons] at hlast
          have hsame : escapeAt? (c :: (d :: t ++ u)) = none :=
            (escapeAt?_congr (t := d :: t ++ u) (u := d :: t) rfl).trans hescape
          rw [List.cons_append, referenced_char hsame, ih ht hlast]
          rfl

end EscapeFree

/-! ### Cuts -/

/-- A span with `depth` spans open in it is cut out of a text: its body, with the escapes written
as references, and the text behind the bracket that closes it. -/
inductive Cut : (depth : Nat) → Text → (body rest : Text) → Prop
  | close (t : Text) : Cut 0 ('>' :: t) [] t
  | escape {depth : Nat} {c : Char} {entity t body rest : Text}
      (hentity : Text.escapable? c = some entity) (h : Cut depth t body rest) :
      Cut depth ('\\' :: c :: t) (entity ++ body) rest
  | inner {depth : Nat} {t body rest : Text} (h : Cut depth t body rest) :
      Cut (depth + 1) ('>' :: t) ('>' :: body) rest
  | opener {depth : Nat} {t body rest : Text} (h : Cut (depth + 1) t body rest) :
      Cut depth ('<' :: t) ('<' :: body) rest
  | char {depth : Nat} {c : Char} {t body rest : Text} (hescape : escapeAt? (c :: t) = none)
      (hopen : c ≠ '<') (hclose : c ≠ '>') (h : Cut depth t body rest) :
      Cut depth (c :: t) (c :: body) rest

section TakeSpan

variable {depth : Nat} {c : Char} {t body rest entity : Text}

theorem takeSpanAfter_escape (h : Text.escapable? c = some entity) (depth : Nat) (t : Text) :
    takeSpanAfter 0 depth ('\\' :: c :: t)
      = (takeSpanAfter 0 depth t).map fun r => (entity ++ r.1, r.2 + 2) := by
  rw [takeSpanAfter, escapeAt?_of_escapable h]
  simp only [takeSpanAfter, Option.map_map]
  rfl

theorem takeSpanAfter_closer (depth : Nat) (t : Text) :
    takeSpanAfter 0 (depth + 1) ('>' :: t)
      = (takeSpanAfter 0 depth t).map fun r => ('>' :: r.1, r.2 + 1) := rfl

theorem takeSpanAfter_opener (depth : Nat) (t : Text) :
    takeSpanAfter 0 depth ('<' :: t)
      = (takeSpanAfter 0 (depth + 1) t).map fun r => ('<' :: r.1, r.2 + 1) := rfl

theorem takeSpanAfter_char (hescape : escapeAt? (c :: t) = none) (hopen : c ≠ '<')
    (hclose : c ≠ '>') (depth : Nat) :
    takeSpanAfter 0 depth (c :: t)
      = (takeSpanAfter 0 depth t).map fun r => (c :: r.1, r.2 + 1) := by
  rw [takeSpanAfter, hescape]
  dsimp only
  rw [if_neg hclose, if_neg hopen]

theorem takeSpanAfter_of_cut (h : Cut depth t body rest) :
    ∃ used, takeSpanAfter 0 depth t = some (body, used) ∧ t.drop used = rest := by
  induction h with
  | close t => exact ⟨1, rfl, rfl⟩
  | escape hentity _ ih =>
      obtain ⟨used, htake, hdrop⟩ := ih
      exact ⟨used + 2, by rw [takeSpanAfter_escape hentity, htake]; rfl, hdrop⟩
  | inner _ ih =>
      obtain ⟨used, htake, hdrop⟩ := ih
      exact ⟨used + 1, by rw [takeSpanAfter_closer, htake]; rfl, hdrop⟩
  | opener _ ih =>
      obtain ⟨used, htake, hdrop⟩ := ih
      exact ⟨used + 1, by rw [takeSpanAfter_opener, htake]; rfl, hdrop⟩
  | char hescape hopen hclose _ ih =>
      obtain ⟨used, htake, hdrop⟩ := ih
      exact ⟨used + 1, by rw [takeSpanAfter_char hescape hopen hclose, htake]; rfl, hdrop⟩

theorem cut_of_takeSpanAfter {used : Nat} (h : takeSpanAfter 0 depth t = some (body, used)) :
    Cut depth t body (t.drop used) := by
  induction t using unit_induction generalizing depth body used with
  | nil => cases h
  | escape t hentity ih =>
      rw [takeSpanAfter_escape hentity] at h
      obtain ⟨r, hr, heq⟩ := Option.map_eq_some_iff.1 h
      cases heq
      exact .escape hentity (ih hr)
  | @char c t hescape ih =>
      by_cases hclose : c = '>'
      · subst hclose
        cases depth with
        | zero =>
            cases h
            exact .close t
        | succ depth =>
            obtain ⟨r, hr, heq⟩ := Option.map_eq_some_iff.1 h
            cases heq
            exact .inner (ih hr)
      · by_cases hopen : c = '<'
        · subst hopen
          obtain ⟨r, hr, heq⟩ := Option.map_eq_some_iff.1 h
          cases heq
          exact .opener (ih hr)
        · rw [takeSpanAfter_char hescape hopen hclose] at h
          obtain ⟨r, hr, heq⟩ := Option.map_eq_some_iff.1 h
          cases heq
          exact .char hescape hopen hclose (ih hr)

end TakeSpan

namespace Cut

variable {depth : Nat} {t u body rest : Text}

theorem unique (h : Cut depth t body rest) {body' rest' : Text} (h' : Cut depth t body' rest') :
    body = body' ∧ rest = rest' := by
  obtain ⟨used, htake, rfl⟩ := takeSpanAfter_of_cut h
  obtain ⟨used', htake', rfl⟩ := takeSpanAfter_of_cut h'
  cases htake.symm.trans htake'
  exact ⟨rfl, rfl⟩

/-- Text behind a cut is left. -/
theorem append (h : Cut depth t body rest) (u : Text) : Cut depth (t ++ u) body (rest ++ u) := by
  induction h with
  | close t => exact .close (t ++ u)
  | escape hentity _ ih => exact .escape hentity ih
  | inner _ ih => exact .inner ih
  | opener _ ih => exact .opener ih
  | @char depth c t body rest hescape hopen hclose h ih =>
      have hsome : t ≠ [] := by
        rintro rfl
        cases h
      exact .char ((escapeAt?_congr (head?_append_of_ne_nil hsome u)).trans hescape) hopen hclose ih

/-- A span that is closed inside of another one belongs to what is cut out. -/
theorem deeper (h : Cut depth t body rest) {k : Nat} {body' rest' : Text}
    (h' : Cut k rest body' rest') : Cut (depth + k + 1) t (body ++ '>' :: body') rest' := by
  induction h with
  | close t => exact .inner (by rwa [Nat.zero_add])
  | escape hentity _ ih =>
      rw [List.append_assoc]
      exact .escape hentity (ih h')
  | @inner depth t body rest _ ih =>
      rw [Nat.add_right_comm depth 1 k]
      exact .inner (ih h')
  | @opener depth t body rest _ ih =>
      refine .opener ?_
      rw [← Nat.add_right_comm depth 1 k]
      exact ih h'
  | char hescape hopen hclose _ ih => exact .char hescape hopen hclose (ih h')

/-- A deeper cut goes on in the text that is left. -/
theorem behind (h : Cut depth t body rest) {k : Nat} {body' rest' : Text}
    (h' : Cut (depth + k + 1) t body' rest') : ∃ more, Cut k rest more rest' := by
  generalize hdeep : depth + k + 1 = deep at h'
  induction h generalizing deep body' with
  | close t =>
      cases h' with
      | close => omega
      | @inner depth t body rest h' =>
          obtain rfl : k = depth := by omega
          exact ⟨body, h'⟩
      | char _ _ hclose _ => exact absurd rfl hclose
  | escape hentity _ ih =>
      cases h' with
      | escape _ h' => exact ih deep hdeep h'
      | char hescape _ _ _ => exact absurd hescape (escapeAt?_ne_none hentity _)
  | @inner depth t body rest _ ih =>
      cases h' with
      | close => omega
      | inner h' => exact ih _ (by omega) h'
      | char _ _ hclose _ => exact absurd rfl hclose
  | opener _ ih =>
      cases h' with
      | opener h' => exact ih _ (by omega) h'
      | char _ hopen _ _ => exact absurd rfl hopen
  | char hescape hopen hclose _ ih =>
      cases h' with
      | close => exact absurd rfl hclose
      | inner => exact absurd rfl hclose
      | opener => exact absurd rfl hopen
      | escape hentity _ => exact absurd hescape (escapeAt?_ne_none hentity _)
      | char _ _ _ h' => exact ih deep hdeep h'

/-- What is cut out are the units up to the closing bracket. -/
theorem referenced (h : Cut depth t body rest) :
    Inline.referenced t = body ++ '>' :: Inline.referenced rest := by
  induction h with
  | close t => exact referenced_of_ne (by decide) t
  | escape hentity _ ih => rw [referenced_escape hentity, ih, List.append_assoc]
  | @inner depth t body rest _ ih =>
      rw [referenced_of_ne (by decide) t, ih, List.cons_append]
  | @opener depth t body rest _ ih =>
      rw [referenced_of_ne (by decide) t, ih, List.cons_append]
  | char hescape _ _ _ ih => rw [referenced_char hescape, ih, List.cons_append]

/-- Text without escapes and brackets belongs to what is cut out. -/
theorem plain_append (hu : ∀ c ∈ u, c ∉ ['\\', '<', '>']) (h : Cut depth t body rest) :
    Cut depth (u ++ t) (u ++ body) rest := by
  induction u with
  | nil => exact h
  | cons c u ih =>
      obtain ⟨hc, hu⟩ := forall_not_markup_cons.1 hu
      exact .char (escapeAt?_of_ne hc.1 _) hc.2.1 hc.2.2 (ih hu)

theorem of_plain_append (hu : ∀ c ∈ u, c ∉ ['\\', '<', '>']) (h : Cut depth (u ++ t) body rest) :
    ∃ more, body = u ++ more ∧ Cut depth t more rest := by
  induction u generalizing body with
  | nil => exact ⟨body, rfl, h⟩
  | cons c u ih =>
      obtain ⟨hc, hu⟩ := forall_not_markup_cons.1 hu
      rw [List.cons_append] at h
      generalize hall : u ++ t = v at h
      cases h with
      | close | inner => exact absurd rfl hc.2.2
      | opener => exact absurd rfl hc.2.1
      | escape => exact absurd rfl hc.1
      | char _ _ _ h =>
          obtain ⟨more, rfl, hmore⟩ := ih hu (hall ▸ h)
          exact ⟨more, rfl, hmore⟩

/-- What is cut out of a text with references for its escapes can be cut out of the text. -/
theorem of_referenced (h : Cut depth (Inline.referenced t) body rest) :
    ∃ behind, rest = Inline.referenced behind ∧ Cut depth t body behind := by
  induction t using unit_induction generalizing depth body with
  | nil => cases h
  | escape t hentity ih =>
      rw [referenced_escape hentity] at h
      obtain ⟨more, rfl, hmore⟩ := h.of_plain_append (not_markup_of_escapable hentity)
      obtain ⟨behind, rfl, hcut⟩ := ih hmore
      exact ⟨behind, rfl, .escape hentity hcut⟩
  | @char c t hescape ih =>
      rw [referenced_char hescape] at h
      generalize hu : Inline.referenced t = u at h
      cases h with
      | close => exact ⟨t, hu.symm, .close t⟩
      | inner h =>
          obtain ⟨behind, rfl, hcut⟩ := ih (hu ▸ h)
          exact ⟨behind, rfl, .inner hcut⟩
      | opener h =>
          obtain ⟨behind, rfl, hcut⟩ := ih (hu ▸ h)
          exact ⟨behind, rfl, .opener hcut⟩
      | escape hentity _ =>
          have hnone := escapeAt?_referenced hescape
          rw [hu] at hnone
          exact absurd hnone (escapeAt?_ne_none hentity _)
      | char _ hopen hclose h =>
          obtain ⟨behind, rfl, hcut⟩ := ih (hu ▸ h)
          exact ⟨behind, rfl, .char hescape hopen hclose hcut⟩

/-- What is cut out and the bracket behind it start with the character that the text starts
with, unless that is an escape. -/
theorem head? (h : Cut depth t body rest) (u : Text) :
    (body ++ '>' :: u).head? = t.head? ∨
      t.head? = some '\\' ∧ (body ++ '>' :: u).head? = some '&' := by
  cases h with
  | escape hentity _ =>
      obtain ⟨v, rfl⟩ := exists_of_escapable hentity
      exact .inr ⟨rfl, rfl⟩
  | close => exact .inl rfl
  | inner => exact .inl rfl
  | opener => exact .inl rfl
  | char => exact .inl rfl

/-- What has been cut out can be cut out again. -/
theorem again (h : Cut depth t body rest) (u : Text) : Cut depth (body ++ '>' :: u) body u := by
  induction h with
  | close t => exact .close u
  | escape hentity _ ih =>
      rw [List.append_assoc]
      exact ih.plain_append (not_markup_of_escapable hentity)
  | inner _ ih => exact .inner ih
  | opener _ ih => exact .opener ih
  | @char depth c t body rest hescape hopen hclose h ih =>
      refine .char ?_ hopen hclose ih
      rcases h.head? u with hhead | ⟨hslash, -⟩
      · exact (escapeAt?_congr hhead).trans hescape
      · by_cases hc : c = '\\'
        · subst hc
          rw [escapeAt?_congr (u := ['\\']) hslash] at hescape
          cases hescape
        · exact escapeAt?_of_ne hc _

/-- The bracket that ends a cut stands in front of what is left. -/
theorem exists_eq_append (h : Cut depth t body rest) : ∃ front, t = front ++ '>' :: rest := by
  induction h with
  | close t => exact ⟨[], rfl⟩
  | @escape depth c entity t body rest _ _ ih =>
      obtain ⟨front, rfl⟩ := ih
      exact ⟨'\\' :: c :: front, rfl⟩
  | inner _ ih =>
      obtain ⟨front, rfl⟩ := ih
      exact ⟨'>' :: front, rfl⟩
  | opener _ ih =>
      obtain ⟨front, rfl⟩ := ih
      exact ⟨'<' :: front, rfl⟩
  | @char depth c t body rest _ _ _ _ ih =>
      obtain ⟨front, rfl⟩ := ih
      exact ⟨c :: front, rfl⟩

theorem rest_suffix (h : Cut depth t body rest) : rest <:+ t := by
  obtain ⟨front, rfl⟩ := h.exists_eq_append
  exact (List.suffix_cons '>' rest).trans (List.suffix_append front _)

/-- A cut makes no opening brackets. -/
theorem count_add_count_le (h : Cut depth t body rest) :
    body.count '<' + rest.count '<' ≤ t.count '<' := by
  induction h with
  | close t => simp
  | @escape depth c entity t body rest hentity _ ih =>
      have hnone : entity.count '<' = 0 :=
        List.count_eq_zero.2 (Text.notMem_of_escapable (by decide) hentity)
      have hmore : t.count '<' ≤ ('\\' :: c :: t).count '<' :=
        List.Sublist.count_le _ (by simp)
      rw [List.count_append, hnone]
      omega
  | inner _ ih => simpa using ih
  | opener _ ih =>
      rw [List.count_cons_self, List.count_cons_self]
      omega
  | char _ hopen _ _ ih => simpa [List.count_cons, hopen] using ih

/-- What is cut out closes what it opens, and what was open before. -/
theorem count_closers (h : Cut depth t body rest) : body.count '>' = body.count '<' + depth := by
  induction h with
  | close t => rfl
  | @escape depth c entity t body rest hentity _ ih =>
      have hopeners : entity.count '<' = 0 :=
        List.count_eq_zero.2 (Text.notMem_of_escapable (by decide) hentity)
      have hclosers : entity.count '>' = 0 :=
        List.count_eq_zero.2 (Text.notMem_of_escapable (by decide) hentity)
      rw [List.count_append, List.count_append, hopeners, hclosers, Nat.zero_add, Nat.zero_add, ih]
  | inner _ ih => simp [ih, Nat.add_assoc]
  | opener _ ih =>
      simp only [List.count_cons_self, List.count_cons_of_ne (by decide : '<' ≠ '>'), ih]
      omega
  | char _ hopen hclose _ ih => rwa [List.count_cons_of_ne hopen, List.count_cons_of_ne hclose]

end Cut

/-- A text without escapes that closes more than is open has a cut. -/
theorem EscapeFree.exists_cut {depth : Nat} {t : Text} (h : EscapeFree t)
    (hmore : t.count '<' + depth < t.count '>') : ∃ body rest, Cut depth t body rest := by
  induction t generalizing depth with
  | nil => exact absurd hmore (Nat.not_lt_zero _)
  | cons c t ih =>
      obtain ⟨hescape, ht⟩ := escapeFree_cons.1 h
      by_cases hclose : c = '>'
      · subst hclose
        cases depth with
        | zero => exact ⟨[], t, .close t⟩
        | succ depth =>
            simp only [List.count_cons_self, List.count_cons_of_ne (by decide : '>' ≠ '<')] at hmore
            obtain ⟨body, rest, hcut⟩ := ih ht (by omega : t.count '<' + depth < t.count '>')
            exact ⟨_, _, .inner hcut⟩
      · rw [List.count_cons_of_ne hclose] at hmore
        by_cases hopen : c = '<'
        · subst hopen
          rw [List.count_cons_self] at hmore
          obtain ⟨body, rest, hcut⟩ := ih ht (by omega : t.count '<' + (depth + 1) < t.count '>')
          exact ⟨_, _, .opener hcut⟩
        · rw [List.count_cons_of_ne hopen] at hmore
          obtain ⟨body, rest, hcut⟩ := ih ht hmore
          exact ⟨_, _, .char hescape hopen hclose hcut⟩

end IndentMarkup.Inline
