import IndentMarkup.Proofs.Independence
import IndentMarkup.Proofs.Nesting

/-!
Texts as they are stored in templates.

A template stores its body with a reference for every closing bracket that a backslash stands in
front of, so that none of these brackets is read as a parameter. The formatter reads backslashes in
pairs from the left, and takes a bracket behind an even number of them for one that closes a span.
So a text is stored as what it says if there is no such bracket in it; if there is one, the span
that it closes is open in what is stored.

* `Inline.Storable` — every bracket behind a backslash is one of an escape.
* `Inline.referenced_protectClosers_iff` — exactly these texts are stored with the same escapes.
* `Inline.Cut.of_protectClosers` — the cuts of what is stored.
* `Template.format_content` — a storable text is formatted as it was; another one is not formatted.
-/

namespace IndentMarkup

open Template (protectClosers)

namespace Inline

/-! ### Storable texts -/

/-- Every closing bracket behind a backslash is one of an escape: in front of that backslash all
others stand in pairs. -/
def Storable (s : Text) : Prop :=
  ∀ front rest, s = front ++ '\\' :: '>' :: rest → EndsPaired front

section Storable

variable {c : Char} {t entity : Text}

theorem storable_nil : Storable [] := fun front _ h =>
  absurd h.symm (List.append_ne_nil_of_right_ne_nil front (List.cons_ne_nil _ _))

theorem storable_char (h : escapeAt? (c :: t) = none) : Storable (c :: t) ↔ Storable t := by
  have hpaired (front rest : Text) (ht : t = front ++ '\\' :: '>' :: rest) :
      EndsPaired (c :: front) ↔ EndsPaired front := by
    by_cases hc : c = '\\'
    · subst hc
      cases front with
      | nil =>
          rw [ht] at h
          cases h
      | cons d front =>
          have hd : d ≠ '\\' := by
            rintro rfl
            rw [ht] at h
            cases h
          exact (endsPaired_append_cons hd ['\\'] front).trans
            (endsPaired_append_cons hd [] front).symm
    · exact endsPaired_append_cons hc [] front
  constructor
  · intro hstorable front rest ht
    exact (hpaired front rest ht).1 (hstorable (c :: front) rest (by rw [ht, List.cons_append]))
  · intro hstorable front rest ht
    cases front with
    | nil =>
        rw [ht] at h
        cases h
    | cons d front =>
        obtain ⟨rfl, htail⟩ := List.cons.inj ht
        exact (hpaired front rest htail).2 (hstorable front rest htail)

theorem storable_escape (h : Text.escapable? c = some entity) :
    Storable ('\\' :: c :: t) ↔ ¬(c = '\\' ∧ t.head? = some '>') ∧ Storable t := by
  constructor
  · intro hstorable
    refine ⟨?_, fun front rest ht => ?_⟩
    · rintro ⟨rfl, hhead⟩
      obtain ⟨rest, rfl⟩ := List.head?_eq_some_iff.1 hhead
      exact absurd (hstorable ['\\'] rest rfl) (by unfold EndsPaired; decide)
    · have hall := hstorable ('\\' :: c :: front) rest (by rw [ht]; rfl)
      exact (endsPaired_escape h front).1 hall
  · rintro ⟨hbracket, hstorable⟩ front rest ht
    match front with
    | [] => exact (by unfold EndsPaired; decide : EndsPaired [])
    | [d] =>
        obtain ⟨-, htail⟩ := List.cons.inj ht
        obtain ⟨rfl, rfl⟩ := List.cons.inj htail
        exact absurd ⟨rfl, rfl⟩ hbracket
    | d :: b :: front =>
        obtain ⟨hd, htail⟩ := List.cons.inj ht
        obtain ⟨rfl, hrest⟩ := List.cons.inj htail
        rw [← hd]
        exact (endsPaired_escape h front).2 (hstorable front rest hrest)

end Storable

/-! ### What is stored -/

section Protect

variable {c : Char} {t entity : Text}

theorem protectClosers_closer (t : Text) :
    protectClosers ('\\' :: '>' :: t) = "&gt;".toList ++ protectClosers t := rfl

theorem protectClosers_cons (h : ¬(c = '\\' ∧ t.head? = some '>')) :
    protectClosers (c :: t) = c :: protectClosers t := by
  cases t with
  | nil => rfl
  | cons d t =>
      have hmatch : ¬(c = '\\' ∧ d = '>') := fun hboth => h ⟨hboth.1, congrArg some hboth.2⟩
      rw [protectClosers, if_neg hmatch]

theorem protectClosers_char (h : escapeAt? (c :: t) = none) :
    protectClosers (c :: t) = c :: protectClosers t ∧ escapeAt? (c :: protectClosers t) = none := by
  by_cases hc : c = '\\'
  · subst hc
    cases t with
    | nil => exact ⟨rfl, rfl⟩
    | cons d t =>
        have hclose : d ≠ '>' := by
          rintro rfl
          cases h
        have hslash : d ≠ '\\' := by
          rintro rfl
          cases h
        refine ⟨protectClosers_cons fun hboth => hclose (Option.some.inj hboth.2), ?_⟩
        rw [protectClosers_cons fun hboth => hslash hboth.1]
        exact (escapeAt?_congr (t := d :: protectClosers t) (u := d :: t) rfl).trans h
  · exact ⟨protectClosers_cons fun hboth => hc hboth.1, escapeAt?_of_ne hc _⟩

/-- What is stored for an escape: a reference, or the escape itself, unless it is a backslash in
front of a bracket. -/
theorem protectClosers_escape (h : Text.escapable? c = some entity) :
    (c = '>' ∧ protectClosers ('\\' :: c :: t) = entity ++ protectClosers t) ∨
    (c ≠ '>' ∧ ¬(c = '\\' ∧ t.head? = some '>') ∧
      protectClosers ('\\' :: c :: t) = '\\' :: c :: protectClosers t) ∨
    c = '\\' ∧ ∃ u, t = '>' :: u ∧
      protectClosers ('\\' :: c :: t) = '\\' :: ("&gt;".toList ++ protectClosers u) := by
  by_cases hclose : c = '>'
  · subst hclose
    cases h
    exact .inl ⟨rfl, rfl⟩
  have hfirst : protectClosers ('\\' :: c :: t) = '\\' :: protectClosers (c :: t) :=
    protectClosers_cons fun hboth => hclose (Option.some.inj hboth.2)
  by_cases hbracket : c = '\\' ∧ t.head? = some '>'
  · obtain ⟨rfl, hhead⟩ := hbracket
    obtain ⟨u, rfl⟩ := List.head?_eq_some_iff.1 hhead
    exact .inr (.inr ⟨rfl, u, rfl, hfirst⟩)
  · rw [protectClosers_cons hbracket] at hfirst
    exact .inr (.inl ⟨hclose, hbracket, hfirst⟩)

/-- A text is stored with the escapes that it is formatted with exactly if it is storable. -/
theorem referenced_protectClosers_iff (s : Text) :
    referenced (protectClosers s) = referenced s ↔ Storable s := by
  induction s using unit_induction with
  | nil => exact iff_of_true rfl storable_nil
  | @char c t hescape ih =>
      obtain ⟨hstored, hnone⟩ := protectClosers_char hescape
      rw [hstored, referenced_char hnone, referenced_char hescape, storable_char hescape, ← ih,
        List.cons_inj_right]
  | @escape c entity t hentity ih =>
      rw [storable_escape hentity, referenced_escape hentity]
      rcases protectClosers_escape (t := t) hentity with
        ⟨rfl, hstored⟩ | ⟨-, hbracket, hstored⟩ | ⟨rfl, u, rfl, hstored⟩
      · rw [hstored, referenced_plain_append (not_markup_of_escapable hentity),
          List.append_cancel_left_eq, ih]
        simp
      · rw [hstored, referenced_escape hentity, List.append_cancel_left_eq, ih]
        simp [hbracket]
      · -- the first backslash is left alone, and a text with references has none of those
        obtain ⟨v, rfl⟩ := exists_of_escapable hentity
        have hlone : escapeAt? ('\\' :: ("&gt;".toList ++ protectClosers u)) = none := rfl
        rw [hstored, referenced_char hlone]
        simp

theorem head?_protectClosers (h : t.head? ≠ some '~') : (protectClosers t).head? ≠ some '~' := by
  cases t with
  | nil => exact h
  | cons c t =>
      by_cases hcloser : c = '\\' ∧ t.head? = some '>'
      · obtain ⟨rfl, hhead⟩ := hcloser
        obtain ⟨u, rfl⟩ := List.head?_eq_some_iff.1 hhead
        rw [protectClosers_closer]
        simp
      · rwa [protectClosers_cons hcloser]

end Protect

/-! ### Spans in what is stored -/

section Spans

variable {c after : Context} {t body rest html out : Text} {depth : Nat}

/-- A cut of what is stored is a cut of the text, and a deeper one if there are brackets in it that
are not stored as such. -/
theorem Cut.of_protectClosers (h : Cut depth (protectClosers t) body rest) :
    ∃ n more behind, rest = protectClosers behind ∧ Cut (depth + n) t more behind ∧
      (n = 0 → Storable behind → Storable t) := by
  -- along the units of the text, since an escape in it is one unit, stored as up to five characters
  induction t using unit_induction generalizing depth body with
  | nil => cases h
  | @char d t hescape ih =>
      obtain ⟨hstored, hnone⟩ := protectClosers_char hescape
      have hstorable {behind : Text} {n : Nat} (hall : n = 0 → Storable behind → Storable t) :
          n = 0 → Storable behind → Storable (d :: t) :=
        fun hn hbehind => (storable_char hescape).2 (hall hn hbehind)
      rw [hstored] at h
      generalize hu : protectClosers t = u at h hnone
      cases h with
      | close => exact ⟨0, [], t, hu.symm, .close t, hstorable fun _ => id⟩
      | inner h =>
          obtain ⟨n, more, behind, rfl, hcut, hall⟩ := ih (hu ▸ h)
          refine ⟨n, '>' :: more, behind, rfl, ?_, hstorable hall⟩
          rw [Nat.add_right_comm]
          exact .inner hcut
      | opener h =>
          obtain ⟨n, more, behind, rfl, hcut, hall⟩ := ih (hu ▸ h)
          rw [Nat.add_right_comm] at hcut
          exact ⟨n, _, behind, rfl, .opener hcut, hstorable hall⟩
      | escape hentity _ => exact absurd hnone (escapeAt?_ne_none hentity _)
      | char _ hopen hclose h =>
          obtain ⟨n, more, behind, rfl, hcut, hall⟩ := ih (hu ▸ h)
          exact ⟨n, _, behind, rfl, .char hescape hopen hclose hcut, hstorable hall⟩
  | @escape d entity t hentity ih =>
      rcases protectClosers_escape (t := t) hentity with
        ⟨rfl, hstored⟩ | ⟨-, hbracket, hstored⟩ | ⟨rfl, u, rfl, hstored⟩
      · rw [hstored] at h
        obtain ⟨_, -, h⟩ := h.of_plain_append (not_markup_of_escapable hentity)
        obtain ⟨n, more, behind, rfl, hcut, hall⟩ := ih h
        refine ⟨n, _, behind, rfl, .escape hentity hcut, fun hn hbehind => ?_⟩
        exact (storable_escape hentity).2 ⟨by simp, hall hn hbehind⟩
      · rw [hstored] at h
        cases h with
        | char hescape _ _ _ => exact absurd hescape (escapeAt?_ne_none hentity _)
        | escape _ h =>
            obtain ⟨n, more, behind, rfl, hcut, hall⟩ := ih h
            refine ⟨n, _, behind, rfl, .escape hentity hcut, fun hn hbehind => ?_⟩
            exact (storable_escape hentity).2 ⟨hbracket, hall hn hbehind⟩
      · -- the bracket behind the two backslashes closes one span more in the text
        rw [hstored] at h
        cases h with
        | escape hother _ => cases hother
        | char _ _ _ h =>
            obtain ⟨more, -, h⟩ := h.of_plain_append (not_markup_of_escapable (c := '>') rfl)
            have hinner := Cut.inner h
            rw [← protectClosers_cons (by simp)] at hinner
            obtain ⟨n, more, behind, rfl, hcut, -⟩ := ih hinner
            rw [Nat.add_assoc, Nat.add_comm 1 n] at hcut
            exact ⟨n + 1, _, behind, rfl, .escape hentity hcut, fun hn => absurd hn n.succ_ne_zero⟩

/-- What is stored of a text that is formatted is not formatted, unless the text is storable. -/
theorem formatAfter_protectClosers_ne_ok {e : Expander} {span : Text → Nat → CompileM Text}
    {line last : Nat} (h : Formats t html) (hstorable : ¬ Storable t) :
    formatAfter e span line last 0 (protectClosers t) c ≠ .ok out after := by
  intro hok
  -- on the rules of the relation; each unit of the text is read in what is stored of it
  induction h generalizing out c after with
  | nil => exact hstorable storable_nil
  | @escape d entity t html hentity h ih =>
      rw [storable_escape hentity, not_and] at hstorable
      rcases protectClosers_escape (t := t) hentity with
        ⟨rfl, hstored⟩ | ⟨-, hbracket, hstored⟩ | ⟨rfl, u, rfl, -⟩
      · rw [hstored, formatAfter_plain_append _ _ (not_markup_of_escapable hentity)] at hok
        obtain ⟨_, _, hrest, -⟩ := CompileM.exists_of_bind_ok hok
        exact ih (hstorable (by simp)) hrest
      · rw [hstored, formatAfter_escape _ _ hentity] at hok
        obtain ⟨_, _, hrest, -⟩ := CompileM.exists_of_bind_ok hok
        exact ih (hstorable hbracket) hrest
      · exact h.not_cut (.close u)
  | char hescape hopen hclose _ ih =>
      obtain ⟨hstored, hnone⟩ := protectClosers_char hescape
      rw [storable_char hescape] at hstorable
      rw [hstored, formatAfter_char _ _ hnone hopen hclose] at hok
      obtain ⟨_, _, hrest, -⟩ := CompileM.exists_of_bind_ok hok
      exact ih hstorable hrest
  | @void t body rest html hcall hcut _ hrest ih
  | @span t body rest _ html _ hcall hcut _ _ _ hrest _ ih =>
      have hescape : escapeAt? ('<' :: t) = none := escapeAt?_of_ne (by decide) t
      rw [storable_char hescape] at hstorable
      rw [(protectClosers_char hescape).1] at hok
      rcases formatAfter_cons_cases (fun hstarts => head?_protectClosers hcall hstarts.2) hok with
        ⟨_, _, _, _, hslash, -⟩ | ⟨_, -, hopen, -⟩ | ⟨_, _, _, _, _, _, -, hstored, -, -, hmore⟩
      · exact absurd hslash (by decide)
      · exact hopen rfl
      -- the span that is found in what is stored ends where the text's span ends, or encloses more
      · obtain ⟨n, _, behind, rfl, hdeep, hall⟩ := hstored.of_protectClosers
        cases n with
        | zero =>
            obtain ⟨-, rfl⟩ := hcut.unique hdeep
            exact ih (fun hbehind => hstorable (hall rfl hbehind)) hmore
        | succ n =>
            obtain ⟨_, hmore⟩ := hcut.behind hdeep
            exact hrest.not_cut hmore

end Spans

/-- A text that is formatted without calls is formatted by the rules for such texts. -/
theorem formats_of_callFree {e : Expander} {t html : Text} {line column : Nat} {c after : Context}
    (hfree : IndentMarkup.CallFree (fun e => format e t line column) c)
    (h : format e t line column c = .ok html after) : Formats t html ∧ after = c := by
  have hrefuses (name : Text) (values : List Text) (n : Nat) (c : Context) (es : List Element)
      (after : Context) : refuseCalls name values n c ≠ .ok es after := by
    intro hok
    cases hok
  exact formats_of_format (.inr hrefuses) ((hfree refuseCalls e).trans h)

end Inline

/-- A text in which no template is called is stored with the same escapes if it is storable, and not
otherwise. If it is storable, the text and what is stored are formatted to the same, and if it is
not, but is formatted, then what is stored fails. -/
theorem Template.format_content (name s : Text) (e : Expander) (line column : Nat) (c : Context)
    (hfree : CallFree (fun e => Inline.format e s line column) c) :
    ∃ m, ofBody name [] s = .ok m ∧
      (Inline.referenced m.content = Inline.referenced s ↔ Inline.Storable s) ∧
      (∀ html after, Inline.format e s line column c = .ok html after →
        (Inline.Storable s → Inline.format e m.content line column c = .ok html after) ∧
        (¬ Inline.Storable s →
          ∀ html' after', Inline.format e m.content line column c ≠ .ok html' after')) ∧
      (Inline.Storable s → CallFree (fun e => Inline.format e m.content line column) c →
        ∀ html after, Inline.format e m.content line column c = .ok html after →
          Inline.format e s line column c = .ok html after) := by
  have hiff := Inline.referenced_protectClosers_iff s
  refine ⟨⟨name, [], protectClosers s⟩, rfl, hiff, fun html after hformat => ?_,
    fun hstorable hstored html after hformat => ?_⟩
  · obtain ⟨hformats, rfl⟩ := Inline.formats_of_callFree hfree hformat
    refine ⟨fun hstorable => Inline.format_of_formats (.of_referenced ?_) column,
      fun hstorable html' after' => ?_⟩
    · rw [hiff.2 hstorable]
      exact hformats.referenced
    · rw [Inline.format_eq_formatAfter]
      exact Inline.formatAfter_protectClosers_ne_ok hformats hstorable
  · obtain ⟨hformats, rfl⟩ := Inline.formats_of_callFree hstored hformat
    refine Inline.format_of_formats (.of_referenced ?_) column
    rw [← hiff.2 hstorable]
    exact hformats.referenced

/-- A span with an escaped backslash in front of an escaped bracket. -/
theorem Template.format_content_of_escapes : ∃ m,
    ofBody [] [] "<b a\\\\\\>> \\>".toList = .ok m ∧ m.content = "<b a\\\\&gt;> &gt;".toList ∧
      Inline.format (expander 0) m.content 0 0 .start
        = .ok "<b>a&#92;&gt;</b> &gt;".toList .start := by
  have hstorable : Inline.Storable "<b a\\\\\\>> \\>".toList :=
    (Inline.referenced_protectClosers_iff _).1 (by decide)
  have hfree := callFree_format (t := "<b a\\\\\\>> \\>".toList) (by decide) 0 0 .start
  have hformat : Inline.format (expander 0) "<b a\\\\\\>> \\>".toList 0 0 .start
      = .ok "<b>a&#92;&gt;</b> &gt;".toList .start :=
    Inline.format_of_run' (by decide +kernel) (by decide +kernel)
  obtain ⟨m, hm, -, hsame, -⟩ := Template.format_content [] _ (expander 0) 0 0 .start hfree
  have hcontent : m.content = "<b a\\\\&gt;> &gt;".toList := by
    cases hm
    decide
  exact ⟨m, hm, hcontent, (hsame _ _ hformat).1 hstorable⟩

/-- A span that ends behind an escaped backslash is open in what is stored. -/
theorem Template.format_content_of_backslash : ∃ m,
    ofBody [] [] "<b \\\\>".toList = .ok m ∧ m.content = "<b \\&gt;".toList ∧
      CallFree (fun e => Inline.format e "<b \\\\>".toList 0 0) .start ∧
      Inline.format (expander 0) "<b \\\\>".toList 0 0 .start = .ok "<b>&#92;</b>".toList .start ∧
      ∀ html after, Inline.format (expander 0) m.content 0 0 .start ≠ .ok html after := by
  refine ⟨_, rfl, by decide, callFree_format (by decide) 0 0 .start,
    Inline.format_of_run' (by decide +kernel) (by decide +kernel), ?_⟩
  exact CompileM.ne_ok_of_run' (by decide +kernel)

end IndentMarkup
