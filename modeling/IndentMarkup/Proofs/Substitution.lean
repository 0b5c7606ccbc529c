import IndentMarkup.Proofs.Bodies
import IndentMarkup.Proofs.Checked.Bytes
import IndentMarkup.Proofs.Substitution.Pass
import Mathlib.Data.List.MinMax
import Mathlib.Data.List.Sort

/-!
Values in the place of references.

The references of a body are replaced parameter by parameter, longer names first, so that a
name never takes the references of one that it begins. That comes to one pass over the body,
in which every closing bracket takes the longest name behind it, unless a value completes the
name behind a closing bracket that stands in front of its reference.

* `Template.filled` — the body with all references replaced at once.
* `Template.Joinable` — a closing bracket in front of a reference whose value can make it the
  start of another one.
* `Template.substitute_eq_filled_iff` — bodies come out of one pass for all values exactly if
  nothing in them can be joined.
-/

namespace IndentMarkup.Template

/-! ### The longest name -/

/-- The binding whose name is the longest of those that a text starts with. -/
def longest? (bs : List (Text × Text)) (t : Text) : Option (Text × Text) :=
  (bs.filter (·.1.isPrefixOf t)).argmax (·.1.length)

/-- The order in which parameters are replaced: longer names first. -/
abbrev notLonger (b c : Text × Text) : Prop := Text.byteLength c.1 ≤ Text.byteLength b.1

theorem bindings_eq_insertionSort (m : Template) (values : List Text) :
    m.bindings values = (m.parameters.zip values).insertionSort notLonger := by
  have hinsert (b : Text × Text) (bs : List (Text × Text)) :
      insertBinding b bs = bs.orderedInsert notLonger b := by
    induction bs with
    | nil => rfl
    | cons c cs ih => rw [insertBinding, List.orderedInsert, ih]
  unfold bindings
  induction m.parameters.zip values with
  | nil => rfl
  | cons b bs ih => rw [List.foldr_cons, ih, hinsert, List.insertionSort_cons]

theorem perm_bindings (m : Template) (values : List Text) :
    (m.bindings values).Perm (m.parameters.zip values) := by
  rw [bindings_eq_insertionSort]
  exact List.perm_insertionSort _ _

theorem pairwise_bindings (m : Template) (values : List Text) :
    (m.bindings values).Pairwise notLonger := by
  have : Std.Total notLonger := ⟨fun b c => Nat.le_total _ _⟩
  have : IsTrans (Text × Text) notLonger := ⟨fun b c d hbc hcd => Nat.le_trans hcd hbc⟩
  rw [bindings_eq_insertionSort]
  exact List.pairwise_insertionSort _ _

/-- Of two beginnings of a text the one with no more bytes begins the other. -/
theorem prefix_of_byteLength_le {s t u : Text} (hs : s <+: u) (ht : t <+: u)
    (h : Text.byteLength s ≤ Text.byteLength t) : s <+: t := by
  rcases List.prefix_or_prefix_of_prefix hs ht with hst | ⟨v, rfl⟩
  · exact hst
  · rw [Text.byteLength_append] at h
    cases v with
    | nil => simp
    | cons c v =>
        have hpos := c.utf8Size_pos
        rw [Text.byteLength] at h
        omega

/-- Where longer names come first, the first name that a text starts with is the longest. -/
theorem prefix_of_first? {bs : List (Text × Text)} (hsorted : bs.Pairwise notLonger) {t : Text}
    {b : Text × Text} (h : first? bs t = some b) {c : Text × Text} (hc : c ∈ bs)
    (hstarts : c.1 <+: t) : c.1 <+: b.1 := by
  induction bs with
  | nil => cases hc
  | cons x bs ih =>
      obtain ⟨hx, hbs⟩ := List.pairwise_cons.1 hsorted
      by_cases hfirst : x.1 <+: t
      · rw [first?_cons_of_starts hfirst] at h
        cases h
        rcases List.mem_cons.1 hc with rfl | hc
        · exact List.prefix_rfl
        · exact prefix_of_byteLength_le hstarts hfirst (hx c hc)
      · rw [first?_cons_of_not_starts hfirst] at h
        rcases List.mem_cons.1 hc with rfl | hc
        · exact absurd hstarts hfirst
        · exact ih hbs h hc

/-- The longest name of all is the first one in the order of replacement. -/
theorem longest?_eq_first? {m : Template} (hdistinct : m.parameters.Nodup) {values : List Text}
    (harity : values.length = m.arity) (t : Text) :
    longest? (m.parameters.zip values) t = first? (m.bindings values) t := by
  have hperm := perm_bindings m values
  have hsorted := pairwise_bindings m values
  cases hfirst : first? (m.bindings values) t with
  | none =>
      have hnone : (m.parameters.zip values).filter (·.1.isPrefixOf t) = [] := by
        rw [List.filter_eq_nil_iff]
        exact fun b hb => List.find?_eq_none.1 hfirst b (hperm.mem_iff.2 hb)
      rw [longest?, hnone, List.argmax_nil]
  | some b =>
      have hlongest {c : Text × Text}
          (hc : c ∈ (m.parameters.zip values).filter (·.1.isPrefixOf t)) : c.1 <+: b.1 := by
        obtain ⟨hmem, hstarts⟩ := List.mem_filter.1 hc
        exact prefix_of_first? hsorted hfirst (hperm.mem_iff.2 hmem) (by simpa using hstarts)
      have hnames : ((m.parameters.zip values).map Prod.fst).Nodup := by
        rwa [List.map_fst_zip (Nat.le_of_eq harity.symm)]
      obtain ⟨hmem, hstarts⟩ := prefix_of_first?_eq_some hfirst
      have hb : b ∈ m.parameters.zip values := hperm.mem_iff.1 hmem
      rw [longest?, List.argmax_eq_some_iff]
      refine ⟨List.mem_filter.2 ⟨hb, List.isPrefixOf_iff_prefix.2 hstarts⟩,
        fun c hc => (hlongest hc).length_le, fun c hc hle => ?_⟩
      have hsame : c = b := List.inj_on_of_nodup_map hnames (List.mem_filter.1 hc).1 hb
        ((hlongest hc).eq_of_length_le hle)
      rw [hsame]

/-! ### References that can be joined -/

/-- Behind a closing bracket the text goes on with the beginning of a name, and then with a
reference to a parameter that is replaced before that name. Its value can be the rest of the
name. -/
def Joinable (names : List Text) (t : Text) : Prop :=
  ∃ w r p q, '>' :: (w ++ '>' :: r) <:+ t ∧ p <+: r ∧ [p, q].Sublist names ∧ w <+: q ∧ w ≠ q

instance (names : List Text) (t : Text) : Decidable (Joinable names t) :=
  decidable_of_iff
    (∃ p ∈ names, ∃ q ∈ names, [p, q].Sublist names ∧ ∃ w ∈ q.inits, w ≠ q ∧
      ∃ r ∈ t.tails, p <+: r ∧ '>' :: (w ++ '>' :: r) <:+ t) (by
    constructor
    · rintro ⟨p, -, q, -, horder, w, hw, hne, r, -, hp, hsuffix⟩
      exact ⟨w, r, p, q, hsuffix, hp, horder, (List.mem_inits w q).1 hw, hne⟩
    · rintro ⟨w, r, p, q, hsuffix, hp, horder, hwq, hne⟩
      have hr : r <:+ t := (List.suffix_append ('>' :: w ++ ['>']) r).trans (by simpa using hsuffix)
      exact ⟨p, horder.subset (by simp), q, horder.subset (by simp), horder, w,
        (List.mem_inits w q).2 hwq, hne, r, (List.mem_tails r t).2 hr, hp, hsuffix⟩)

section Joinable

variable {b : Text × Text} {t : Text}

theorem suffix_of_suffix_append {r s : Text} (hs : '>' ∉ s) (h : '>' :: r <:+ s ++ t) :
    '>' :: r <:+ t := by
  induction s with
  | nil => exact h
  | cons c s ih =>
      rw [List.mem_cons, not_or] at hs
      rcases List.suffix_cons_iff.1 h with heq | h
      · exact absurd (List.cons.inj heq).1 hs.1
      · exact ih hs.2 h

theorem prefix_of_prefix_append {n w u : Text} {d : Char} (hn : d ∉ n) (h : n <+: w ++ d :: u) :
    n <+: w := by
  rcases List.prefix_or_prefix_of_prefix h (List.prefix_append w _) with hnw | ⟨v, rfl⟩
  · exact hnw
  · cases v with
    | nil => simp
    | cons c v =>
        rw [List.prefix_append_right_inj] at h
        obtain ⟨rfl, -⟩ := List.cons_prefix_cons.1 h
        exact absurd (by simp) hn

/-- A closing bracket that a replacement leaves was there before. -/
theorem exists_of_suffix_fill (hvalue : '>' ∉ b.2) {u : Text}
    (h : '>' :: u <:+ fill (first? [b]) t) :
    ∃ r, '>' :: r <:+ t ∧ ¬ b.1 <+: r ∧ fill (first? [b]) r = u := by
  induction t using pass_induction b with
  | nil => exact absurd (List.suffix_nil.1 h) (List.cons_ne_nil _ _)
  | @char c t hc ih =>
      rw [fill_cons_of_ne hc] at h
      rcases List.suffix_cons_iff.1 h with heq | h
      · exact absurd (List.cons.inj heq).1.symm hc
      · obtain ⟨r, hr, hrest⟩ := ih h
        exact ⟨r, hr.trans (List.suffix_cons c t), hrest⟩
  | refers t ih =>
      rw [fill_reference] at h
      obtain ⟨r, hr, hrest⟩ := ih (suffix_of_suffix_append hvalue h)
      exact ⟨r, hr.trans (List.suffix_append ('>' :: b.1) t), hrest⟩
  | closer t hstarts ih =>
      rw [fill_closer hstarts] at h
      rcases List.suffix_cons_iff.1 h with heq | h
      · exact ⟨t, List.suffix_rfl, hstarts, (List.cons.inj heq).2.symm⟩
      · obtain ⟨r, hr, hrest⟩ := ih h
        exact ⟨r, hr.trans (List.suffix_cons '>' t), hrest⟩

variable {names : List Text}

/-- Where nothing can be joined a replacement brings no name about. -/
theorem prefix_of_not_joinable (h : ¬ Joinable (b.1 :: names) t) {r n : Text}
    (hr : '>' :: r <:+ t) (hn : n ∈ names) (hplain : '>' ∉ n)
    (hstarts : n <+: fill (first? [b]) r) : n <+: r := by
  by_cases hcloser : '>' ∈ r
  · obtain ⟨w, r', rfl, hw⟩ := List.eq_append_cons_of_mem hcloser
    rw [fill_append hw] at hstarts
    by_cases hb : b.1 <+: r'
    · rcases List.prefix_or_prefix_of_prefix hstarts (List.prefix_append w _) with hnw | hwn
      · exact hnw.trans (List.prefix_append _ _)
      · by_cases heq : w = n
        · exact heq ▸ List.prefix_append _ _
        · exact absurd ⟨w, r', b.1, n, hr, hb, by simpa using hn, hwn, heq⟩ h
    · rw [fill_closer hb] at hstarts
      exact (prefix_of_prefix_append hplain hstarts).trans (List.prefix_append _ _)
  · rw [← List.append_nil r, fill_append hcloser, fill_nil, List.append_nil] at hstarts
    exact hstarts

/-- What can be joined after a replacement could be joined before. -/
theorem joinable_of_fill (hvalue : '>' ∉ b.2) (hnames : ∀ n ∈ names, '>' ∉ n)
    (h : Joinable names (fill (first? [b]) t)) : Joinable (b.1 :: names) t := by
  by_contra hnot
  obtain ⟨w, u, p, q, hsuffix, hp, horder, hwq, hne⟩ := h
  obtain ⟨r, hr, -, hfill⟩ := exists_of_suffix_fill hvalue hsuffix
  have hmem : p ∈ names ∧ q ∈ names := by
    constructor <;> exact horder.subset (by simp)
  have hw : '>' ∉ w := fun hmem' => hnames q hmem.2 (hwq.subset hmem')
  have hcloser : '>' ∈ r := by
    by_contra hcloser
    rw [← List.append_nil r, fill_append hcloser, fill_nil, List.append_nil] at hfill
    rw [hfill] at hcloser
    exact hcloser (by simp)
  obtain ⟨v, r', rfl, hv⟩ := List.eq_append_cons_of_mem hcloser
  rw [fill_append hv] at hfill
  have hr' : '>' :: r' <:+ t := (List.suffix_append ('>' :: v) _).trans hr
  apply hnot
  by_cases hb : b.1 <+: r'
  · -- The value is a part of `w`, and so is what stands in front of it.
    rw [fill_closer_of_some (first?_cons_of_starts hb []), ← List.append_assoc] at hfill
    have hvw : v <+: w :=
      prefix_of_prefix_append hv (hfill ▸ (List.prefix_append _ _).trans (List.prefix_append _ _))
    refine ⟨v, r', b.1, q, hr, hb, by simpa using hmem.2, hvw.trans hwq, ?_⟩
    rintro rfl
    exact hne (hwq.eq_of_length_le hvw.length_le)
  · rw [fill_closer hb] at hfill
    have hvw : v <+: w := prefix_of_prefix_append hv (hfill ▸ List.prefix_append _ _)
    have hwv : w <+: v := prefix_of_prefix_append hw (hfill.symm ▸ List.prefix_append _ _)
    obtain rfl : v = w := hvw.eq_of_length_le hwv.length_le
    have hu : fill (first? [b]) r' = u :=
      (List.cons.inj (List.append_cancel_left hfill)).2
    refine ⟨v, r', p, q, hr, ?_, horder.cons _, hwq, hne⟩
    exact prefix_of_not_joinable hnot hr' hmem.1 (hnames p hmem.1) (hu ▸ hp)

/-- Where nothing can be joined no values bring a reference about. -/
theorem undisturbed_of_not_joinable {bs : List (Text × Text)} (hnames : ∀ b ∈ bs, '>' ∉ b.1)
    (hvalues : ∀ b ∈ bs, '>' ∉ b.2) (h : ¬ Joinable (bs.map Prod.fst) t) : Undisturbed bs t := by
  induction bs generalizing t with
  | nil => trivial
  | cons b bs ih =>
      obtain ⟨-, hnames'⟩ := List.forall_mem_cons.1 hnames
      obtain ⟨hvalue, hvalues'⟩ := List.forall_mem_cons.1 hvalues
      simp only [Undisturbed, replace_eq_fill]
      refine ⟨fun r hr _ later hlater hstarts => ?_, ih hnames' hvalues' fun hlater => h ?_⟩
      · exact prefix_of_not_joinable h hr (List.mem_map_of_mem hlater) (hnames' later hlater)
          hstarts
      · exact joinable_of_fill hvalue (List.forall_mem_map.2 hnames') hlater

end Joinable

/-! ### Values that join one -/

/-- A name without spaces does not reach over a value that is a space. -/
theorem prefix_of_fill_space {b : Text × Text} (hvalue : b.2 = [' ']) {n : Text}
    (hplain : '>' ∉ n) (hspace : ' ' ∉ n) {r : Text} (h : n <+: fill (first? [b]) r) :
    n <+: r := by
  by_cases hcloser : '>' ∈ r
  · obtain ⟨w, r', rfl, hw⟩ := List.eq_append_cons_of_mem hcloser
    rw [fill_append hw] at h
    refine List.IsPrefix.trans ?_ (List.prefix_append w _)
    by_cases hb : b.1 <+: r'
    · rw [fill_closer_of_some (first?_cons_of_starts hb []), hvalue] at h
      exact prefix_of_prefix_append hspace h
    · rw [fill_closer hb] at h
      exact prefix_of_prefix_append hplain h
  · rwa [← List.append_nil r, fill_append hcloser, fill_nil, List.append_nil] at h

theorem undisturbed_of_spaces {bs : List (Text × Text)}
    (h : ∀ b ∈ bs, ('>' ∉ b.1 ∧ ' ' ∉ b.1) ∧ b.2 = [' ']) (t : Text) : Undisturbed bs t := by
  induction bs generalizing t with
  | nil => trivial
  | cons b bs ih =>
      obtain ⟨hb, hbs⟩ := List.forall_mem_cons.1 h
      simp only [Undisturbed, replace_eq_fill]
      refine ⟨fun r _ _ later hlater hstarts => ?_, ih hbs _⟩
      obtain ⟨⟨hplain, hspace⟩, -⟩ := hbs later hlater
      exact prefix_of_fill_space hb.2 hplain hspace hstarts

/-- The length of the first name that a text starts with. -/
def taken (bs : List (Text × Text)) (t : Text) : Nat := ((first? bs t).map (·.1.length)).getD 0

theorem length_le_taken {bs : List (Text × Text)} (hsorted : bs.Pairwise notLonger) {t : Text}
    {b : Text × Text} (hb : b ∈ bs) (hstarts : b.1 <+: t) : b.1.length ≤ taken bs t := by
  unfold taken
  cases hfirst : first? bs t with
  | none =>
      have hnone := List.find?_eq_none.1 hfirst b hb
      exact absurd (List.isPrefixOf_iff_prefix.2 hstarts) hnone
  | some c => exact (prefix_of_first? hsorted hfirst hb hstarts).length_le

theorem taken_le {bs : List (Text × Text)} (hsorted : bs.Pairwise notLonger) {t u : Text}
    (h : ∀ b ∈ bs, b.1 <+: t → b.1 <+: u) : taken bs t ≤ taken bs u := by
  rw [taken.eq_def bs t]
  cases hfirst : first? bs t with
  | none => exact Nat.zero_le _
  | some c =>
      obtain ⟨hc, hstarts⟩ := prefix_of_first?_eq_some hfirst
      exact length_le_taken hsorted hc (h c hc hstarts)

/-- More is taken if a name comes to stand at the start that did not stand there. -/
theorem taken_lt {bs : List (Text × Text)} (hsorted : bs.Pairwise notLonger) {t u : Text}
    (h : ∀ b ∈ bs, b.1 <+: t → b.1 <+: u) {b : Text × Text} (hb : b ∈ bs) (hnew : b.1 <+: u)
    (hold : ¬ b.1 <+: t) : taken bs t < taken bs u := by
  refine Nat.lt_of_lt_of_le ?_ (length_le_taken hsorted hb hnew)
  rw [taken]
  cases hfirst : first? bs t with
  | none =>
      refine List.length_pos_of_ne_nil fun hempty => hold ?_
      rw [hempty]
      exact List.nil_prefix
  | some c =>
      obtain ⟨hc, hstarts⟩ := prefix_of_first?_eq_some hfirst
      refine Nat.lt_of_not_le fun hle => hold ?_
      exact (List.prefix_of_prefix_length_le hnew (h c hc hstarts) hle).trans hstarts

/-- A closing bracket becomes a value of one character, or stays, and the name behind it goes. -/
theorem length_fill_closer {choose : Text → Option (Text × Text)} {bs : List (Text × Text)}
    (hbs : ∀ b ∈ bs, '>' ∉ b.1 ∧ b.2.length = 1) {t : Text} (h : choose t = first? bs t) :
    (fill choose ('>' :: t)).length + taken bs t = (fill choose t).length + 1 := by
  unfold taken
  cases hfirst : first? bs t with
  | none =>
      rw [fill_closer_of_none (h.trans hfirst)]
      rfl
  | some b =>
      obtain ⟨hmem, u, rfl⟩ := prefix_of_first?_eq_some hfirst
      obtain ⟨hplain, hvalue⟩ := hbs b hmem
      rw [fill_closer_of_some (h.trans hfirst), List.drop_left, fill_append hplain,
        List.length_append, List.length_append, hvalue, Option.map_some, Option.getD_some]
      omega

/-- With values of one character, less is left where a parameter is replaced before the others
and its value brings a reference about. -/
theorem length_fill_first? {b : Text × Text} {bs : List (Text × Text)}
    (hsorted : bs.Pairwise notLonger) (hname : '>' ∉ b.1) (hvalue : '>' ∉ b.2)
    (hbs : ∀ x ∈ bs, '>' ∉ x.1 ∧ x.2.length = 1) (t : Text) :
    (fill (first? bs) (fill (first? [b]) t)).length ≤ (fill (first? (b :: bs)) t).length ∧
      ∀ r, '>' :: r <:+ t → ¬ b.1 <+: r →
        (∃ x ∈ bs, x.1 <+: fill (first? [b]) r ∧ ¬ x.1 <+: r) →
        (fill (first? bs) (fill (first? [b]) t)).length < (fill (first? (b :: bs)) t).length := by
  -- along the pass that replaces `b`: only behind a closing bracket can the two sides differ
  induction t using pass_induction b with
  | nil => exact ⟨Nat.le_refl _, fun r hr => absurd (List.suffix_nil.1 hr) (List.cons_ne_nil _ _)⟩
  | @char c t hc ih =>
      obtain ⟨hle, hlt⟩ := ih
      rw [fill_cons_of_ne hc, fill_cons_of_ne hc, fill_cons_of_ne hc, List.length_cons,
        List.length_cons]
      refine ⟨by omega, fun r hr hnot hnew => ?_⟩
      rcases List.suffix_cons_iff.1 hr with heq | hr
      · exact absurd (List.cons.inj heq).1.symm hc
      · exact Nat.succ_lt_succ (hlt r hr hnot hnew)
  | refers t ih =>
      obtain ⟨hle, hlt⟩ := ih
      rw [fill_reference, fill_reference, fill_append hvalue, List.length_append,
        List.length_append]
      refine ⟨by omega, fun r hr hnot hnew => ?_⟩
      rcases List.suffix_cons_iff.1 hr with heq | hr
      · rw [(List.cons.inj heq).2] at hnot
        exact absurd (List.prefix_append _ t) hnot
      · exact Nat.add_lt_add_left (hlt r (suffix_of_suffix_append hname hr) hnot hnew) _
  | closer t hstarts ih =>
      obtain ⟨hle, hlt⟩ := ih
      have hkept : ∀ x ∈ bs, x.1 <+: t → x.1 <+: fill (first? [b]) t :=
        fun x hx => prefix_fill (hbs x hx).1
      have hboth := length_fill_closer hbs (first?_cons_of_not_starts hstarts bs)
      have hsecond := length_fill_closer (t := fill (first? [b]) t) hbs rfl
      have htaken := taken_le hsorted hkept
      rw [fill_closer hstarts]
      refine ⟨by omega, fun r hr hnot hnew => ?_⟩
      rcases List.suffix_cons_iff.1 hr with heq | hr
      -- the bracket stays, and a reference is read behind it that did not stand there
      · obtain ⟨x, hx, hthere, hbefore⟩ := hnew
        rw [(List.cons.inj heq).2] at hthere hbefore
        have := taken_lt hsorted hkept hx hthere hbefore
        omega
      · have := hlt r hr hnot hnew
        omega

/-- A closing bracket that starts no reference stays. -/
theorem suffix_fill {b : Text × Text} (hname : '>' ∉ b.1) {r t : Text} (h : '>' :: r <:+ t)
    (hnot : ¬ b.1 <+: r) : '>' :: fill (first? [b]) r <:+ fill (first? [b]) t := by
  induction t using pass_induction b with
  | nil => exact absurd (List.suffix_nil.1 h) (List.cons_ne_nil _ _)
  | @char c t hc ih =>
      rw [fill_cons_of_ne hc]
      rcases List.suffix_cons_iff.1 h with heq | h
      · exact absurd (List.cons.inj heq).1.symm hc
      · exact (ih h).trans (List.suffix_cons _ _)
  | refers t ih =>
      rw [fill_reference]
      rcases List.suffix_cons_iff.1 h with heq | h
      · rw [(List.cons.inj heq).2] at hnot
        exact absurd (List.prefix_append _ t) hnot
      · exact (ih (suffix_of_suffix_append hname h)).trans (List.suffix_append _ _)
  | closer t hstarts ih =>
      rw [fill_closer hstarts]
      rcases List.suffix_cons_iff.1 h with heq | h
      · rw [(List.cons.inj heq).2]
      · exact (ih h).trans (List.suffix_cons _ _)

/-- A name does not begin the beginning of a name that is replaced later. -/
theorem not_prefix_of_later {x y : Text × Text} (hlonger : notLonger x y) (hplain : '>' ∉ x.1)
    {w v : Text} (hname : y.1 = w ++ v) (hsome : v ≠ []) (r : Text) :
    ¬ x.1 <+: w ++ '>' :: r := by
  intro hstarts
  obtain ⟨u, hu⟩ := prefix_of_prefix_append hplain hstarts
  have hpos : 0 < Text.byteLength v := by
    obtain ⟨c, v, rfl⟩ := List.exists_cons_of_ne_nil hsome
    have hc := c.utf8Size_pos
    rw [Text.byteLength_cons]
    omega
  rw [notLonger, hname, ← hu, Text.byteLength_append, Text.byteLength_append] at hlonger
  omega

/-- Less is left if the value of the parameter that is replaced first completes a name behind a
closing bracket, and all other values are spaces. -/
theorem length_fill_lt_of_completed {b y : Text × Text} {bs : List (Text × Text)}
    (hsorted : (b :: bs).Pairwise notLonger) (hname : '>' ∉ b.1) (hvalue : '>' ∉ b.2)
    (hbs : ∀ x ∈ bs, ('>' ∉ x.1 ∧ ' ' ∉ x.1) ∧ x.2 = [' ']) (hy : y ∈ bs) {w r t : Text}
    (hyname : y.1 = w ++ b.2) (hsome : b.2 ≠ []) (hsuffix : '>' :: (w ++ '>' :: r) <:+ t)
    (hstarts : b.1 <+: r) :
    (fill (first? bs) (fill (first? [b]) t)).length < (fill (first? (b :: bs)) t).length := by
  obtain ⟨hlonger, hsorted⟩ := List.pairwise_cons.1 hsorted
  have hplain : '>' ∉ y.1 := (hbs y hy).1.1
  have hw : '>' ∉ w := fun hmem => hplain (hyname ▸ List.mem_append_left _ hmem)
  have hvalues : ∀ x ∈ bs, '>' ∉ x.1 ∧ x.2.length = 1 :=
    fun x hx => ⟨(hbs x hx).1.1, by rw [(hbs x hx).2, List.length_singleton]⟩
  refine (length_fill_first? hsorted hname hvalue hvalues t).2 _ hsuffix
    (not_prefix_of_later (hlonger y hy) hname hyname hsome r) ⟨y, hy, ?_, fun hbefore => ?_⟩
  · rw [fill_append hw, fill_closer_of_some (first?_cons_of_starts hstarts []), hyname,
      ← List.append_assoc]
    exact List.prefix_append _ _
  · have hlength := (prefix_of_prefix_append hplain hbefore).length_le
    have hpos := List.length_pos_of_ne_nil hsome
    rw [hyname, List.length_append] at hlength
    omega

/-- A name that starts with `w` and ends with the value of `b` is read where it does not stand,
if all other values are spaces. -/
theorem length_foldl_lt {bs : List (Text × Text)} {b : Text × Text}
    (hsorted : bs.Pairwise notLonger) (hdistinct : (bs.map Prod.fst).Nodup)
    (hnames : ∀ x ∈ bs, '>' ∉ x.1 ∧ ' ' ∉ x.1) (hspaces : ∀ x ∈ bs, x.1 ≠ b.1 → x.2 = [' '])
    (hvalue : '>' ∉ b.2) (hsome : b.2 ≠ []) {w r t : Text}
    (hsuffix : '>' :: (w ++ '>' :: r) <:+ t) (hfirst : first? bs r = some b)
    (horder : [b.1, w ++ b.2].Sublist (bs.map Prod.fst)) :
    (bs.foldl (fun t b => Text.replace (reference b.1) b.2 t) t).length
      < (fill (first? bs) t).length := by
  -- on the parameters that are left, with the text as the earlier ones leave it
  induction bs generalizing r t with
  | nil => cases hfirst
  | cons x bs ih =>
      obtain ⟨hlonger, hsorted'⟩ := List.pairwise_cons.1 hsorted
      obtain ⟨hx, hnames'⟩ := List.forall_mem_cons.1 hnames
      obtain ⟨hfresh, hdistinct⟩ := List.nodup_cons.1 hdistinct
      rw [List.foldl_cons, replace_eq_fill]
      by_cases hstarts : x.1 <+: r
      · -- The value of `x` completes the name, and the other parameters change nothing of that.
        rw [first?_cons_of_starts hstarts] at hfirst
        obtain rfl : x = b := Option.some.inj hfirst
        obtain ⟨y, hy, hyname⟩ : ∃ y ∈ bs, y.1 = w ++ x.2 := by
          have hmem := (List.cons_sublist_cons.1 horder).subset List.mem_cons_self
          exact List.mem_map.1 hmem
        have hother (z : Text × Text) (hz : z ∈ bs) : ('>' ∉ z.1 ∧ ' ' ∉ z.1) ∧ z.2 = [' '] := by
          refine ⟨hnames' z hz, hspaces z (List.mem_cons_of_mem x hz) fun heq => hfresh ?_⟩
          exact heq ▸ List.mem_map_of_mem hz
        rw [foldl_replace_eq_fill (fun z hz => (hnames' z hz).1)
          (fun z hz => by simp [(hother z hz).2]) (undisturbed_of_spaces hother _)]
        exact length_fill_lt_of_completed hsorted hx.1 hvalue hother hy hyname hsome hsuffix hstarts
      · -- The value of `x` is a space, so that the other parameters are read where they stand.
        rw [first?_cons_of_not_starts hstarts] at hfirst
        obtain ⟨hb, -⟩ := prefix_of_first?_eq_some hfirst
        have hne : x.1 ≠ b.1 := by
          rintro heq
          exact hfresh (heq ▸ List.mem_map_of_mem hb)
        have horder' : [b.1, w ++ b.2].Sublist (bs.map Prod.fst) := by
          rw [List.map_cons] at horder
          exact (List.sublist_cons_iff.1 horder).resolve_right (by
            rintro ⟨l, hl, -⟩
            exact hne (List.cons.inj hl).1.symm)
        have hspace := hspaces x List.mem_cons_self hne
        obtain ⟨y, hy, hyname⟩ := List.mem_map.1 (horder'.subset (by simp) : w ++ b.2 ∈ _)
        have hw : '>' ∉ w :=
          fun hmem => (hnames' y hy).1 (hyname ▸ List.mem_append_left _ hmem)
        have hread (u : Text) (z : Text × Text) (hz : z ∈ bs)
            (hzu : z.1 <+: fill (first? [x]) u) : z.1 <+: u :=
          prefix_of_fill_space hspace (hnames' z hz).1 (hnames' z hz).2 hzu
        rw [fill_first?_cons (fun z hz => (hnames z hz).1) (by simp [hspace])
          fun u _ _ z hz => hread u z hz]
        refine ih hsorted' hdistinct hnames' (fun z hz => hspaces z (List.mem_cons_of_mem x hz))
          (r := fill (first? [x]) r) ?_ ?_ horder'
        · have h := suffix_fill hx.1 hsuffix
            (not_prefix_of_later (hlonger y hy) hx.1 hyname hsome r)
          rwa [fill_append hw, fill_closer hstarts] at h
        · rw [← hfirst]
          exact first?_congr fun z hz => ⟨hread r z hz, prefix_fill (hnames' z hz).1⟩

/-! ### Bodies with values -/

section Bodies

variable {m : Template}

/-- The parameters in the order in which they are replaced. -/
def order (m : Template) : List Text :=
  m.parameters.insertionSort fun p q => Text.byteLength q ≤ Text.byteLength p

theorem map_fst_bindings {values : List Text} (harity : values.length = m.arity) :
    (m.bindings values).map Prod.fst = m.order := by
  rw [bindings_eq_insertionSort,
    List.map_insertionSort notLonger (fun p q => Text.byteLength q ≤ Text.byteLength p) Prod.fst _
      fun _ _ _ _ => Iff.rfl,
    List.map_fst_zip (Nat.le_of_eq harity.symm)]
  rfl

/-- The bindings of values that are given by the names. -/
theorem bindings_map (f : Text → Text) :
    m.bindings (m.parameters.map f) = m.order.map fun p => (p, f p) := by
  rw [bindings_eq_insertionSort, order,
    List.map_insertionSort (fun p q => Text.byteLength q ≤ Text.byteLength p) notLonger
      (fun p => (p, f p)) _ fun _ _ _ _ => Iff.rfl,
    List.map_prod_left_eq_zip]

theorem first?_bindings_map (f : Text → Text) (t : Text) :
    first? (m.bindings (m.parameters.map f)) t
      = (m.order.find? (·.isPrefixOf t)).map fun p => (p, f p) := by
  rw [bindings_map, first?, List.find?_map]
  rfl

/-- The body with values in the place of all references at once: every closing bracket takes the
longest parameter behind it, and no text is read twice. -/
def filled (m : Template) (values : List Text) : Text :=
  fill (longest? (m.parameters.zip values)) m.content

theorem filled_eq_fill (hdistinct : m.parameters.Nodup) {values : List Text}
    (harity : values.length = m.arity) :
    m.filled values = fill (first? (m.bindings values)) m.content := by
  rw [filled, funext (longest?_eq_first? hdistinct harity)]

/-- The first element that a test holds of stands before all that stand behind another one. -/
theorem exists_find?_of_sublist {f : Text → Bool} {p q : Text} {l : List Text} (hp : f p = true)
    (h : [p, q].Sublist l) : ∃ p', l.find? f = some p' ∧ [p', q].Sublist l := by
  induction l with
  | nil => cases h
  | cons x l ih =>
      by_cases hx : f x = true
      · refine ⟨x, List.find?_cons_of_pos hx, ?_⟩
        rcases List.sublist_cons_iff.1 h with h | ⟨l', hl', h⟩
        · exact ((List.sublist_cons_self p [q]).trans h).cons_cons x
        · rw [← (List.cons.inj hl').2] at h
          exact h.cons_cons x
      · rcases List.sublist_cons_iff.1 h with h | ⟨l', hl', -⟩
        · obtain ⟨p', hfind, h⟩ := ih h
          exact ⟨p', (List.find?_cons_of_neg hx).trans hfind, h.cons x⟩
        · exact absurd ((List.cons.inj hl').1 ▸ hp) hx

/-- If a reference can be joined, some values make one. -/
theorem exists_values_of_joinable (hdistinct : m.parameters.Nodup)
    (hnames : ∀ p ∈ m.parameters, '>' ∉ p ∧ ' ' ∉ p) (h : Joinable m.order m.content) :
    ∃ values, values.length = m.arity ∧ (∀ v ∈ values, '>' ∉ v) ∧
      m.substitute values ≠ .ok (m.filled values) := by
  obtain ⟨w, r, p, q, hsuffix, hp, horder, ⟨v, rfl⟩, hne⟩ := h
  have hperm : m.order.Perm m.parameters := List.perm_insertionSort _ _
  have hq : '>' ∉ w ++ v ∧ ' ' ∉ w ++ v :=
    hnames _ (hperm.mem_iff.1 (horder.subset (by simp)))
  -- The parameter that is read behind may be one that is replaced before `p`.
  have hstarts : p.isPrefixOf r = true := List.isPrefixOf_iff_prefix.2 hp
  obtain ⟨p', hread, horder⟩ :=
    exists_find?_of_sublist (f := (·.isPrefixOf r)) hstarts horder
  have hvalue : '>' ∉ v := fun hv => hq.1 (List.mem_append_right w hv)
  have hsome : v ≠ [] := by
    rintro rfl
    exact hne (List.append_nil w).symm
  -- The value of that parameter is the rest of the name, and all others are spaces.
  let f (n : Text) : Text := if n = p' then v else [' ']
  have harity : (m.parameters.map f).length = m.arity := List.length_map f
  have hfirst : first? (m.bindings (m.parameters.map f)) r = some (p', v) := by
    rw [first?_bindings_map, hread, Option.map_some, show f p' = v from if_pos rfl]
  have hshorter := length_foldl_lt (b := (p', v)) (pairwise_bindings m (m.parameters.map f))
    (by rw [map_fst_bindings harity]; exact hperm.nodup_iff.2 hdistinct)
    (fun x hx => hnames _ (mem_of_mem_bindings hx).1)
    (by
      rw [bindings_map]
      intro x hx hne
      obtain ⟨n, -, rfl⟩ := List.mem_map.1 hx
      exact if_neg hne)
    hvalue hsome hsuffix hfirst (by rwa [map_fst_bindings harity])
  refine ⟨m.parameters.map f, harity, fun u hu => ?_, fun heq => ?_⟩
  · obtain ⟨n, -, rfl⟩ := List.mem_map.1 hu
    by_cases hn : n = p'
    · rwa [show f n = v from if_pos hn]
    · rw [show f n = [' '] from if_neg hn]
      decide
  · rw [substitute, if_neg (not_not.2 harity), filled_eq_fill hdistinct harity] at heq
    rw [Except.ok.inj heq] at hshorter
    exact Nat.lt_irrefl _ hshorter

/-- Parameters replaced one after the other are replaced all at once, whenever no value brings a
reference about; and for all values exactly if no reference can be joined. -/
theorem substitute_eq_filled_iff (hdistinct : m.parameters.Nodup)
    (hplain : ∀ p ∈ m.parameters, '>' ∉ p) :
    (∀ values, values.length = m.arity → (∀ v ∈ values, '>' ∉ v) →
      Undisturbed (m.bindings values) m.content → m.substitute values = .ok (m.filled values)) ∧
    ((∀ p ∈ m.parameters, ' ' ∉ p) →
      ((∀ values, values.length = m.arity → (∀ v ∈ values, '>' ∉ v) →
        m.substitute values = .ok (m.filled values)) ↔ ¬ Joinable m.order m.content)) := by
  have hagree {values : List Text} (harity : values.length = m.arity)
      (hvalues : ∀ v ∈ values, '>' ∉ v) (h : Undisturbed (m.bindings values) m.content) :
      m.substitute values = .ok (m.filled values) := by
    rw [substitute, if_neg (not_not.2 harity), filled_eq_fill hdistinct harity,
      foldl_replace_eq_fill (fun b hb => hplain _ (mem_of_mem_bindings hb).1)
        (fun b hb => hvalues _ (mem_of_mem_bindings hb).2) h]
  refine ⟨fun values harity hvalues h => hagree harity hvalues h, fun hwords => ⟨?_, ?_⟩⟩
  · intro hall hjoinable
    obtain ⟨values, harity, hvalues, hne⟩ := exists_values_of_joinable hdistinct
      (fun p hp => ⟨hplain p hp, hwords p hp⟩) hjoinable
    exact hne (hall values harity hvalues)
  · intro hnot values harity hvalues
    refine hagree harity hvalues (undisturbed_of_not_joinable
      (fun b hb => hplain _ (mem_of_mem_bindings hb).1)
      (fun b hb => hvalues _ (mem_of_mem_bindings hb).2) ?_)
    rwa [map_fst_bindings harity]

/-- A name that begins another one takes no reference of it away, and what one value is does not
matter to the others. -/
theorem substitute_eq_filled_of_two_names :
    let m : Template := ⟨"n".toList, ["a".toList, "ab".toList], ">a, >ab".toList⟩
    m.parameters.Nodup ∧ (∀ p ∈ m.parameters, '>' ∉ p) ∧
      Undisturbed (m.bindings ["b".toList, "2".toList]) m.content ∧
      m.substitute ["b".toList, "2".toList] = .ok (m.filled ["b".toList, "2".toList]) ∧
      m.filled ["b".toList, "2".toList] = "b, 2".toList ∧
      ∀ values, values.length = m.arity → (∀ v ∈ values, '>' ∉ v) →
        m.substitute values = .ok (m.filled values) := by
  have hboth := substitute_eq_filled_iff
    (m := ⟨"n".toList, ["a".toList, "ab".toList], ">a, >ab".toList⟩) (by decide) (by decide)
  exact ⟨by decide, by decide, by decide, hboth.1 _ (by decide) (by decide) (by decide),
    by decide, (hboth.2 (by decide)).2 (by decide)⟩

/-- A value that is put behind a closing bracket is read again: `top` in the place of `>title`
makes a reference to `t` there, of the closing bracket of the span. -/
theorem substitute_rereads_value :
    let m : Template := ⟨"n".toList, ["title".toList, "t".toList], "<b >t>>title".toList⟩
    let values : List Text := ["top".toList, "1".toList]
    m.parameters.Nodup ∧ (∀ p ∈ m.parameters, p ≠ [] ∧ '>' ∉ p) ∧ values.length = m.arity ∧
      (∀ v ∈ values, '>' ∉ v) ∧ m.substitute values = .ok "<b 11op".toList ∧
      m.filled values = "<b 1>top".toList := by
  decide

end Bodies

end IndentMarkup.Template
