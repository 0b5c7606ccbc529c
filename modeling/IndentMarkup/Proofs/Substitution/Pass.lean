import IndentMarkup.Template
import Mathlib.Data.List.Infix

/-!
References replaced in one pass.

A pass over a text puts a value in the place of every closing bracket with a name behind it, and
reads no text twice. To replace the references of one parameter is such a pass, and to replace
those of all parameters one after the other comes to one pass too, as long as no value comes to
stand where it makes a reference of a closing bracket in front of it.

* `Template.fill` — one pass over a text.
* `Template.pass_induction`, `Template.replace_eq_fill` — the references of one parameter.
* `Template.Undisturbed` — no replacement brings a reference about.
* `Template.foldl_replace_eq_fill` — then all replacements come to one pass.
-/

namespace IndentMarkup.Template

/-! ### One pass -/

/-- A text with values in the place of references, read from left to right after `skip`
characters that belong to a reference: a closing bracket and the name that is chosen for the
text behind it become the value of that name. -/
def fillAfter (choose : Text → Option (Text × Text)) : (skip : Nat) → Text → Text
  | _, [] => []
  | skip + 1, _ :: t => fillAfter choose skip t
  | 0, c :: t =>
      if c = '>' then
        match choose t with
        | some b => b.2 ++ fillAfter choose b.1.length t
        | none => c :: fillAfter choose 0 t
      else c :: fillAfter choose 0 t

/-- One pass over a text. -/
def fill (choose : Text → Option (Text × Text)) (t : Text) : Text := fillAfter choose 0 t

/-- The first binding whose name a text starts with. -/
def first? (bs : List (Text × Text)) (t : Text) : Option (Text × Text) :=
  bs.find? (·.1.isPrefixOf t)

section Pass

variable {choose : Text → Option (Text × Text)}

theorem fillAfter_eq_drop (skip : Nat) (t : Text) :
    fillAfter choose skip t = fill choose (t.drop skip) := by
  induction t generalizing skip with
  | nil => cases skip <;> rfl
  | cons c t ih =>
      cases skip with
      | zero => rfl
      | succ skip => rw [fillAfter, ih, List.drop_succ_cons]

@[simp] theorem fill_nil : fill choose [] = [] := rfl

theorem fill_cons_of_ne {c : Char} (hc : c ≠ '>') (t : Text) :
    fill choose (c :: t) = c :: fill choose t := by
  rw [fill, fillAfter, if_neg hc]
  rfl

theorem fill_closer_of_some {t : Text} {b : Text × Text} (h : choose t = some b) :
    fill choose ('>' :: t) = b.2 ++ fill choose (t.drop b.1.length) := by
  rw [fill, fillAfter, if_pos rfl, h]
  dsimp only
  rw [fillAfter_eq_drop]

theorem fill_closer_of_none {t : Text} (h : choose t = none) :
    fill choose ('>' :: t) = '>' :: fill choose t := by
  rw [fill, fillAfter, if_pos rfl, h]
  rfl

/-- Text without closing brackets is copied. -/
theorem fill_append {s : Text} (hs : '>' ∉ s) (t : Text) :
    fill choose (s ++ t) = s ++ fill choose t := by
  induction s with
  | nil => rfl
  | cons c s ih =>
      rw [List.mem_cons, not_or] at hs
      rw [List.cons_append, fill_cons_of_ne (Ne.symm hs.1), ih hs.2, List.cons_append]

/-- A name that the text starts with stays where it is. -/
theorem prefix_fill {n t : Text} (hn : '>' ∉ n) (h : n <+: t) : n <+: fill choose t := by
  obtain ⟨u, rfl⟩ := h
  rw [fill_append hn]
  exact List.prefix_append _ _

end Pass

theorem first?_cons_of_starts {b : Text × Text} {t : Text} (h : b.1 <+: t)
    (bs : List (Text × Text)) : first? (b :: bs) t = some b :=
  List.find?_cons_of_pos (by simpa using h)

theorem first?_cons_of_not_starts {b : Text × Text} {t : Text} (h : ¬ b.1 <+: t)
    (bs : List (Text × Text)) : first? (b :: bs) t = first? bs t :=
  List.find?_cons_of_neg (by simpa using h)

theorem prefix_of_first?_eq_some {bs : List (Text × Text)} {t : Text} {b : Text × Text}
    (h : first? bs t = some b) : b ∈ bs ∧ b.1 <+: t := by
  unfold first? at h
  exact ⟨List.mem_of_find?_eq_some h, by simpa using List.find?_some h⟩

theorem first?_congr {bs : List (Text × Text)} {t u : Text}
    (h : ∀ b ∈ bs, b.1 <+: t ↔ b.1 <+: u) : first? bs t = first? bs u := by
  induction bs with
  | nil => rfl
  | cons b bs ih =>
      obtain ⟨hb, hbs⟩ := List.forall_mem_cons.1 h
      by_cases hstarts : b.1 <+: t
      · rw [first?_cons_of_starts hstarts, first?_cons_of_starts (hb.1 hstarts)]
      · rw [first?_cons_of_not_starts hstarts, first?_cons_of_not_starts (hstarts ∘ hb.2), ih hbs]

theorem fill_first?_nil (t : Text) : fill (first? []) t = t := by
  induction t with
  | nil => rfl
  | cons c t ih =>
      by_cases hc : c = '>'
      · rw [hc, fill_closer_of_none rfl, ih]
      · rw [fill_cons_of_ne hc, ih]

section OneParameter

variable (b : Text × Text)

/-- A reference to the parameter that comes first. -/
theorem fill_reference (bs : List (Text × Text)) (t : Text) :
    fill (first? (b :: bs)) ('>' :: (b.1 ++ t)) = b.2 ++ fill (first? (b :: bs)) t := by
  rw [fill_closer_of_some (first?_cons_of_starts (List.prefix_append _ t) bs), List.drop_left]

variable {b} in
/-- A closing bracket that starts no reference to the only parameter. -/
theorem fill_closer {t : Text} (h : ¬ b.1 <+: t) :
    fill (first? [b]) ('>' :: t) = '>' :: fill (first? [b]) t :=
  fill_closer_of_none (first?_cons_of_not_starts h [])

/-- A text is read from left to right, and references to one parameter are passed as a whole. -/
@[elab_as_elim]
theorem pass_induction {motive : Text → Prop} (nil : motive [])
    (char : ∀ {c : Char} (t : Text), c ≠ '>' → motive t → motive (c :: t))
    (refers : ∀ t, motive t → motive ('>' :: (b.1 ++ t)))
    (closer : ∀ t, ¬ b.1 <+: t → motive t → motive ('>' :: t)) (t : Text) : motive t := by
  induction hlength : t.length using Nat.strongRecOn generalizing t with
  | ind n ih =>
      cases t with
      | nil => exact nil
      | cons c t =>
          rw [List.length_cons] at hlength
          by_cases hc : c = '>'
          · subst hc
            by_cases hstarts : b.1 <+: t
            · obtain ⟨u, rfl⟩ := hstarts
              rw [List.length_append] at hlength
              exact refers u (ih _ (by omega) u rfl)
            · exact closer t hstarts (ih _ (by omega) t rfl)
          · exact char t hc (ih _ (by omega) t rfl)

/-- To replace the references of one parameter is a pass that knows no other. -/
theorem replace_eq_fill (t : Text) :
    Text.replace (reference b.1) b.2 t = fill (first? [b]) t := by
  induction t using pass_induction b with
  | nil => rw [Text.replace_nil, fill_nil]
  | @char c t hc ih =>
      have hmatch : (reference b.1).isPrefixOf (c :: t) = false := by
        simp [reference, List.isPrefixOf, Ne.symm hc]
      rw [Text.replace_cons_of_not_match hmatch, fill_cons_of_ne hc, ih]
  | refers t ih =>
      have hmatch : (reference b.1).isPrefixOf ('>' :: (b.1 ++ t)) = true := by
        simp [reference]
      have hdrop : (b.1 ++ t).drop ((reference b.1).length - 1) = t := List.drop_left
      rw [Text.replace_cons_of_match hmatch, hdrop, fill_reference, ih]
  | closer t hstarts ih =>
      have hmatch : (reference b.1).isPrefixOf ('>' :: t) = false := by
        rw [← Bool.not_eq_true]
        simpa [reference, List.isPrefixOf] using hstarts
      rw [Text.replace_cons_of_not_match hmatch, fill_closer hstarts, ih]

end OneParameter

/-! ### One parameter before the others -/

/-- While the parameters are replaced one after the other, none that is still to come gets to
stand behind a closing bracket where it did not stand before. -/
def Undisturbed : List (Text × Text) → Text → Prop
  | [], _ => True
  | b :: bs, t =>
      (∀ r, '>' :: r <:+ t → ¬ b.1 <+: r → ∀ later ∈ bs,
        later.1 <+: Text.replace (reference b.1) b.2 r → later.1 <+: r) ∧
      Undisturbed bs (Text.replace (reference b.1) b.2 t)

instance decidableUndisturbed : ∀ bs t, Decidable (Undisturbed bs t)
  | [], _ => .isTrue trivial
  | b :: bs, t =>
      have := decidableUndisturbed bs (Text.replace (reference b.1) b.2 t)
      decidable_of_iff
        ((∀ r ∈ t.tails, '>' :: r <:+ t → ¬ b.1 <+: r → ∀ later ∈ bs,
          later.1 <+: Text.replace (reference b.1) b.2 r → later.1 <+: r) ∧
          Undisturbed bs (Text.replace (reference b.1) b.2 t))
        (and_congr_left'
          ⟨fun h r hr => h r ((List.mem_tails r t).2 ((List.suffix_cons _ r).trans hr)) hr,
            fun h r _ => h r⟩)

/-- A parameter can be replaced before the others if that brings no reference about. -/
theorem fill_first?_cons {b : Text × Text} {bs : List (Text × Text)}
    (hnames : ∀ x ∈ b :: bs, '>' ∉ x.1) (hvalue : '>' ∉ b.2) {t : Text}
    (hnew : ∀ r, '>' :: r <:+ t → ¬ b.1 <+: r → ∀ later ∈ bs,
      later.1 <+: fill (first? [b]) r → later.1 <+: r) :
    fill (first? (b :: bs)) t = fill (first? bs) (fill (first? [b]) t) := by
  obtain ⟨hname, hnames⟩ := List.forall_mem_cons.1 hnames
  induction t using pass_induction b with
  | nil => rfl
  | @char c t hc ih =>
      rw [fill_cons_of_ne hc, fill_cons_of_ne hc, fill_cons_of_ne hc,
        ih fun r hr => hnew r (hr.trans (List.suffix_cons c t))]
  | refers t ih =>
      have hbehind : t <:+ '>' :: (b.1 ++ t) := List.suffix_append ('>' :: b.1) t
      rw [fill_reference, fill_reference, fill_append hvalue,
        ih fun r hr => hnew r (hr.trans hbehind)]
  | closer t hstarts ih =>
      have hbehind := ih fun r hr => hnew r (hr.trans (List.suffix_cons '>' t))
      have hreads : first? bs (fill (first? [b]) t) = first? bs t :=
        first?_congr fun later hlater =>
          ⟨hnew t List.suffix_rfl hstarts later hlater, prefix_fill (hnames later hlater)⟩
      rw [fill_closer hstarts]
      cases hfirst : first? bs t with
      | none =>
          rw [fill_closer_of_none (hreads.trans hfirst),
            fill_closer_of_none ((first?_cons_of_not_starts hstarts bs).trans hfirst), hbehind]
      | some later =>
          obtain ⟨hlater, u, rfl⟩ := prefix_of_first?_eq_some hfirst
          have hplain := hnames later hlater
          rw [fill_append hplain, fill_append hplain, fill_append hplain] at hbehind
          rw [fill_closer_of_some (hreads.trans hfirst),
            fill_closer_of_some ((first?_cons_of_not_starts hstarts bs).trans hfirst),
            fill_append hplain, List.drop_left, List.drop_left, List.append_cancel_left hbehind]

/-- All parameters replaced one after the other, and all in one pass. -/
theorem foldl_replace_eq_fill {bs : List (Text × Text)} (hnames : ∀ b ∈ bs, '>' ∉ b.1)
    (hvalues : ∀ b ∈ bs, '>' ∉ b.2) {t : Text} (h : Undisturbed bs t) :
    bs.foldl (fun t b => Text.replace (reference b.1) b.2 t) t = fill (first? bs) t := by
  induction bs generalizing t with
  | nil => exact (fill_first?_nil t).symm
  | cons b bs ih =>
      obtain ⟨hnew, hrest⟩ := h
      simp only [replace_eq_fill] at hnew
      rw [List.foldl_cons, ih (fun x hx => hnames x (List.mem_cons_of_mem b hx))
        (fun x hx => hvalues x (List.mem_cons_of_mem b hx)) hrest, replace_eq_fill,
        fill_first?_cons hnames (hvalues b List.mem_cons_self) hnew]

end IndentMarkup.Template
