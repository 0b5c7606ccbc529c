import IndentMarkup.Proofs.Characters
import IndentMarkup.Proofs.Checked.Bytes
import IndentMarkup.Proofs.Grammar
import IndentMarkup.Proofs.Spans
import Mathlib.Algebra.Group.Nat.Even
import Mathlib.Data.List.DropRight

/-!
What a text without calls is formatted to.

The formatter runs in a context, counts levels of spans down and reads a text of its own for each
span. None of this matters to a text in which no call starts: what it is formatted to is a relation
between two texts, with one rule for each kind of unit. By induction over the rules a text can be
continued by another one and be put into a span, where its escapes are written as references before
it is read.

* `Inline.Formats` — a text without calls and its HTML.
* `Inline.format_eq_ok_iff` — the formatter gives what the relation says.
* `Inline.Formats.append`, `Inline.Formats.referenced`, `Inline.Formats.in_span` — the relation in
  larger texts.
* `Inline.format_compositional` — formatting is compositional.
-/

namespace IndentMarkup

namespace Inline

/-! ### Texts without calls -/

/-- Nowhere in the text stand the characters that start a call. -/
def CallFree (t : Text) : Prop := ¬ ['<', '~'] <:+: t

instance (t : Text) : Decidable (CallFree t) := inferInstanceAs (Decidable (¬ ['<', '~'] <:+: t))

section CallFree

variable {c : Char} {t u body rest : Text} {depth : Nat}

theorem CallFree.nil : CallFree [] := by
  rw [CallFree, List.infix_nil]
  exact List.cons_ne_nil _ _

theorem callFree_cons :
    CallFree (c :: t) ↔ ¬(c = '<' ∧ t.head? = some '~') ∧ CallFree t := by
  rw [CallFree, List.infix_cons_iff, not_or]
  refine and_congr_left' (not_congr ?_)
  cases t with
  | nil => simp
  | cons d t => simp [List.cons_prefix_cons, eq_comm]

theorem CallFree.of_part (h : CallFree t) (hu : u <:+: t) : CallFree u :=
  fun hcall => h (hcall.trans hu)

theorem CallFree.plain_append (hu : '<' ∉ u) (h : CallFree t) : CallFree (u ++ t) := by
  induction u with
  | nil => exact h
  | cons c u ih =>
      rw [List.mem_cons, not_or] at hu
      exact callFree_cons.2 ⟨fun hc => hu.1 hc.1.symm, ih hu.2⟩

/-- What starts a call in what is cut out starts one in the text. -/
theorem Cut.head?_ne (h : Cut depth t body rest) (ht : t.head? ≠ some '~') (u : Text) :
    (body ++ '>' :: u).head? ≠ some '~' := by
  rcases h.head? u with heq | ⟨-, heq⟩
  · rwa [heq]
  · rw [heq]
    decide

/-- What is cut out of a text without calls has no calls. -/
theorem Cut.callFree (h : Cut depth t body rest) (ht : CallFree t) : CallFree body := by
  induction h with
  | close t => exact .nil
  | escape hentity _ ih =>
      refine .plain_append (Text.notMem_of_escapable (by decide) hentity) (ih ?_)
      exact ht.of_part (List.suffix_append [_, _] _).isInfix
  | inner _ ih => exact callFree_cons.2 ⟨by simp, ih (callFree_cons.1 ht).2⟩
  | @opener depth t body rest h ih =>
      obtain ⟨hcall, ht⟩ := callFree_cons.1 ht
      refine callFree_cons.2 ⟨fun hopen => ?_, ih ht⟩
      have hhead : t.head? ≠ some '~' := fun heq => hcall ⟨rfl, heq⟩
      refine h.head?_ne hhead [] ?_
      cases body with
      | nil => cases hopen.2
      | cons d body => exact hopen.2
  | char _ hopen _ _ ih =>
      exact callFree_cons.2 ⟨fun hc => hopen hc.1, ih (callFree_cons.1 ht).2⟩

end CallFree

/-! ### The relation -/

/-- A text without calls and its HTML, unit by unit. A void element is written as it stands, and a
span is the element of its tag with the HTML of the text behind the tag. -/
inductive Formats : Text → (html : Text) → Prop
  | nil : Formats [] []
  | escape {c : Char} {entity t html : Text} (hentity : Text.escapable? c = some entity)
      (h : Formats t html) : Formats ('\\' :: c :: t) (entity ++ html)
  | char {c : Char} {t html : Text} (hescape : escapeAt? (c :: t) = none) (hopen : c ≠ '<')
      (hclose : c ≠ '>') (h : Formats t html) : Formats (c :: t) (c :: html)
  | void {t body rest html : Text} (hcall : t.head? ≠ some '~') (hcut : Cut 0 t body rest)
      (hvoid : isVoidTag (Text.trim body) = true) (h : Formats rest html) :
      Formats ('<' :: t) ('<' :: body ++ ['>'] ++ html)
  | span {t body rest inner html : Text} {s : Shorthand} (hcall : t.head? ≠ some '~')
      (hcut : Cut 0 t body rest) (hvoid : isVoidTag (Text.trim body) = false)
      (hread : Shorthand.readToken body = .ok s) (hinner : Formats (Text.trimStart s.rest) inner)
      (h : Formats rest html) :
      Formats ('<' :: t) ((Element.ofTag s.tag inner s.attributes).html ++ html)

/-! ### The formatter -/

section Formatter

variable {e : Expander} {line : Nat} {t html : Text} {c after : Context}

theorem formatAfter_eq_drop (span : Text → Nat → CompileM Text) (last skip : Nat) (t : Text) :
    formatAfter e span line last skip t = formatAfter e span line last 0 (t.drop skip) := by
  induction t generalizing skip with
  | nil => cases skip <;> rfl
  | cons d t ih =>
      cases skip with
      | zero => rfl
      | succ skip => exact ih skip

/-- How the spans of a text are formatted that has them at most `nesting` levels deep. -/
def spanWithin (e : Expander) (line : Nat) : (nesting : Nat) → Text → Nat → CompileM Text
  | 0, _, _ => pure []
  | nesting + 1, body, column => spanHtml (formatWithin e line nesting) line body column

theorem formatWithin_eq (nesting : Nat) (t : Text) (column : Nat) :
    formatWithin e line nesting t column
      = formatAfter e (spanWithin e line nesting) line (column + t.length) 0 t := by
  cases nesting <;> rfl

/-! What the formatter does with the units that a text can start with. -/

section Units

variable {d : Char} {entity : Text} (span : Text → Nat → CompileM Text) (last : Nat)

theorem formatAfter_escape (h : Text.escapable? d = some entity) (t : Text) :
    formatAfter e span line last 0 ('\\' :: d :: t) = (do
      return entity ++ (← formatAfter e span line last 0 t)) := by
  rw [formatAfter, escapeAt?_of_escapable h]
  rfl

theorem formatAfter_char (hescape : escapeAt? (d :: t) = none) (hopen : d ≠ '<')
    (hclose : d ≠ '>') :
    formatAfter e span line last 0 (d :: t) = (do
      return d :: (← formatAfter e span line last 0 t)) := by
  rw [formatAfter, hescape]
  dsimp only
  rw [if_neg hopen, if_neg hclose]

theorem formatAfter_close (t : Text) : formatAfter e span line last 0 ('>' :: t)
    = .failAt (.format .unexpectedClose) line (some (last - (t.length + 1))) := rfl

theorem formatAfter_unclosed (hcall : t.head? ≠ some '~') (h : takeSpan t = none) :
    formatAfter e span line last 0 ('<' :: t)
      = .failAt (.format .unclosedSpan) line (some last) := by
  rw [formatAfter, escapeAt?_of_ne (by decide)]
  dsimp only
  rw [if_pos rfl, if_neg hcall, h]

/-- A span that is cut out is formatted, and then the text behind it. -/
theorem formatAfter_span {body rest : Text} (hcall : t.head? ≠ some '~')
    (hcut : Cut 0 t body rest) :
    formatAfter e span line last 0 ('<' :: t) = (do
      let html ← span body (last - t.length)
      return html ++ (← formatAfter e span line last 0 rest)) := by
  obtain ⟨used, htake, rfl⟩ := takeSpanAfter_of_cut hcut
  rw [formatAfter, escapeAt?_of_ne (by decide)]
  dsimp only
  rw [if_pos rfl, if_neg hcall, takeSpan, htake]
  simp only [formatAfter_eq_drop _ _ used]

/-- A call is expanded, and then the text behind it is formatted. -/
theorem formatAfter_call (t : Text) :
    formatAfter e span line last 0 ('<' :: '~' :: t) = (do
      let r ← callHtml e line last t
      return r.1 ++ (← formatAfter e span line last 0 (t.drop r.2))) := by
  have hskip (used : Nat) : formatAfter e span line last (used + 1) ('~' :: t)
      = formatAfter e span line last 0 (t.drop used) :=
    formatAfter_eq_drop span last (used + 1) ('~' :: t)
  rw [formatAfter, escapeAt?_of_ne (by decide)]
  simp only [List.head?_cons, if_true, List.drop_succ_cons, List.drop_zero, hskip]

/-- Text without markup is written as it is. -/
theorem formatAfter_plain_append {u : Text} (hu : ∀ c ∈ u, c ∉ ['\\', '<', '>']) (t : Text) :
    formatAfter e span line last 0 (u ++ t) = (do
      return u ++ (← formatAfter e span line last 0 t)) := by
  induction u with
  | nil => simp
  | cons c u ih =>
      obtain ⟨hc, hu⟩ := forall_not_markup_cons.1 hu
      rw [List.cons_append, formatAfter_char span last (escapeAt?_of_ne hc.1 _) hc.2.1 hc.2.2,
        ih hu]
      simp

end Units

/-- What the relation says is what the formatter gives, in every context. -/
theorem formatAfter_of_formats (h : Formats t html) {nesting : Nat}
    (hn : t.count '<' ≤ nesting) (last : Nat) (c : Context) :
    formatAfter e (spanWithin e line nesting) line last 0 t c = .ok html c := by
  -- on the rules of the relation; a span has no more opening brackets than levels are left for it
  induction h generalizing nesting last c with
  | nil => rfl
  | @escape d entity t html hentity _ ih =>
      have hcount : t.count '<' ≤ nesting :=
        (List.Sublist.count_le _ (by simp)).trans hn
      rw [formatAfter_escape _ _ hentity]
      exact CompileM.bind_run_ok (ih hcount last c) _
  | @char d t html hescape hopen hclose _ ih =>
      have hcount : t.count '<' ≤ nesting :=
        (List.Sublist.count_le _ (by simp)).trans hn
      rw [formatAfter_char _ _ hescape hopen hclose, CompileM.bind_run_ok (ih hcount last c)]
      rfl
  | @void t body rest html hcall hcut hvoid _ ih =>
      have hcount := hcut.count_add_count_le
      rw [List.count_cons_self] at hn
      obtain ⟨nesting, rfl⟩ := Nat.exists_eq_add_of_le' (Nat.lt_of_lt_of_le (Nat.succ_pos _) hn)
      rw [formatAfter_span _ _ hcall hcut, spanWithin, spanHtml, if_pos hvoid, pure_bind,
        CompileM.bind_run_ok (ih (by omega) last c)]
      rfl
  | @span t body rest inner html s hcall hcut hvoid hread _ _ hinner ih =>
      have hcount := hcut.count_add_count_le
      have htext : (Text.trimStart s.rest).count '<' ≤ body.count '<' :=
        ((Text.trimStart_suffix _).trans (Shorthand.rest_suffix hread)).sublist.count_le _
      rw [List.count_cons_self] at hn
      obtain ⟨nesting, rfl⟩ := Nat.exists_eq_add_of_le' (Nat.lt_of_lt_of_le (Nat.succ_pos _) hn)
      have hspan (column : Nat) : spanHtml (formatWithin e line nesting) line body column c
          = .ok (Element.ofTag s.tag inner s.attributes).html c := by
        rw [spanHtml, if_neg (by simp [hvoid]), hread]
        dsimp only
        rw [formatWithin_eq, CompileM.bind_run_ok (hinner (by omega) _ c)]
        rfl
      rw [formatAfter_span _ _ hcall hcut, spanWithin, CompileM.bind_run_ok (hspan _),
        CompileM.bind_run_ok (ih (by omega) last c)]
      rfl

/-- A call that comes to an end has been read for a template, which has been expanded. -/
theorem exists_of_callHtml {last : Nat} {r : Text × Nat}
    (h : callHtml e line last t c = .ok r after) : ∃ m call es,
      c.template? (Call.name t) = some m ∧ Call.read? m.arity t = some call ∧
        e (Call.name t) call.values line c = .ok es after ∧ r = (Call.wrap es, call.used) := by
  rw [callHtml] at h
  by_cases hend : (Call.name t).length = t.length
  · rw [if_pos hend] at h
    cases h
  · rw [if_neg hend, CompileM.get_bind_run] at h
    cases hm : c.template? (Call.name t) with
    | none =>
        rw [hm] at h
        cases h
    | some m =>
        rw [hm] at h
        dsimp only at h
        cases hread : Call.read? m.arity t with
        | none =>
            rw [hread] at h
            cases h
        | some call =>
            rw [hread] at h
            obtain ⟨es, mid, hexpand, hr⟩ := CompileM.exists_of_bind_ok h
            cases hr
            exact ⟨m, call, es, rfl, hread, hexpand, rfl⟩

/-- No call in the text comes to an end: none starts in it, or all calls are refused. -/
def NoCallEnds (e : Expander) (t : Text) : Prop :=
  CallFree t ∨ ∀ name values n c es after, e name values n c ≠ .ok es after

namespace NoCallEnds

theorem of_part {u : Text} (h : NoCallEnds e t) (hu : u <:+: t) : NoCallEnds e u :=
  h.imp_left (·.of_part hu)

theorem cut {depth : Nat} {body rest : Text} (h : NoCallEnds e t) (hcut : Cut depth t body rest) :
    NoCallEnds e body :=
  h.imp_left hcut.callFree

/-- A text that is formatted starts with no call. -/
theorem not_call {span : Text → Nat → CompileM Text} {last : Nat} {d : Char}
    (h : NoCallEnds e (d :: t))
    (hok : formatAfter e span line last 0 (d :: t) c = .ok html after) :
    ¬(d = '<' ∧ t.head? = some '~') := by
  rcases h with hfree | hrefuses
  · exact (callFree_cons.1 hfree).1
  · rintro ⟨rfl, hhead⟩
    obtain ⟨u, rfl⟩ := List.head?_eq_some_iff.1 hhead
    rw [formatAfter_call] at hok
    obtain ⟨r, mid, hcall, -⟩ := CompileM.exists_of_bind_ok hok
    obtain ⟨m, call, es, -, -, hexpand, -⟩ := exists_of_callHtml hcall
    exact hrefuses _ _ _ _ _ _ hexpand

end NoCallEnds

/-- The formatter of spans follows the relation, for spans with fewer than `nesting` levels of
spans in them. -/
def FollowsWithin (e : Expander) (span : Text → Nat → CompileM Text) (nesting : Nat) : Prop :=
  ∀ {t body rest column c out after}, t.head? ≠ some '~' → Cut 0 t body rest → NoCallEnds e t →
    t.count '<' < nesting → span body column c = .ok out after →
    after = c ∧ ∀ {html}, Formats rest html → Formats ('<' :: t) (out ++ html)

/-- What the formatter can find where no call starts: an escape, a character, or a span. -/
theorem formatAfter_cons_cases {span : Text → Nat → CompileM Text} {last : Nat} {d : Char}
    (hcall : ¬(d = '<' ∧ t.head? = some '~'))
    (h : formatAfter e span line last 0 (d :: t) c = .ok html after) :
    (∃ b u entity more, d = '\\' ∧ t = b :: u ∧ Text.escapable? b = some entity ∧
        html = entity ++ more ∧ formatAfter e span line last 0 u c = .ok more after) ∨
      (∃ more, escapeAt? (d :: t) = none ∧ d ≠ '<' ∧ d ≠ '>' ∧ html = d :: more ∧
        formatAfter e span line last 0 t c = .ok more after) ∨
      ∃ body rest column out mid more, d = '<' ∧ Cut 0 t body rest ∧
        span body column c = .ok out mid ∧ html = out ++ more ∧
        formatAfter e span line last 0 rest mid = .ok more after := by
  rw [formatAfter] at h
  -- an escape is looked for first, so a bracket behind a backslash opens and closes nothing
  cases hescape : escapeAt? (d :: t) with
  | some entity =>
      obtain ⟨rfl, b, u, rfl, hentity⟩ := exists_of_escapeAt? hescape
      rw [hescape] at h
      obtain ⟨more, mid, hrest, hout⟩ := CompileM.exists_of_bind_ok h
      cases hout
      exact .inl ⟨b, u, entity, more, rfl, rfl, hentity, rfl, hrest⟩
  | none =>
      rw [hescape] at h
      dsimp only at h
      by_cases hopen : d = '<'
      · rw [if_pos hopen, if_neg fun heq => hcall ⟨hopen, heq⟩] at h
        cases htake : takeSpan t with
        | none =>
            rw [htake] at h
            cases h
        | some r =>
            obtain ⟨body, used⟩ := r
            rw [htake] at h
            obtain ⟨out, mid, hout, h⟩ := CompileM.exists_of_bind_ok h
            obtain ⟨more, mid', hrest, hresult⟩ := CompileM.exists_of_bind_ok h
            cases hresult
            rw [formatAfter_eq_drop] at hrest
            exact .inr (.inr ⟨body, _, _, out, mid, more, hopen, cut_of_takeSpanAfter htake, hout,
              rfl, hrest⟩)
      · rw [if_neg hopen] at h
        by_cases hclose : d = '>'
        · rw [if_pos hclose] at h
          cases h
        · rw [if_neg hclose] at h
          obtain ⟨more, mid, hrest, hout⟩ := CompileM.exists_of_bind_ok h
          cases hout
          exact .inr (.inl ⟨more, rfl, hopen, hclose, rfl, hrest⟩)

theorem formats_of_formatAfter {span : Text → Nat → CompileM Text} {nesting : Nat}
    (hspan : FollowsWithin e span nesting) (hfree : NoCallEnds e t) (hn : t.count '<' ≤ nesting)
    {last : Nat} (h : formatAfter e span line last 0 t c = .ok html after) :
    Formats t html ∧ after = c := by
  -- on the length, because a span is read as a whole and the text goes on behind it
  induction hlength : t.length using Nat.strongRecOn generalizing t html c after with
  | ind n ih =>
      cases t with
      | nil =>
          cases h
          exact ⟨.nil, rfl⟩
      | cons d t =>
          rw [List.length_cons] at hlength
          have hbehind {u html : Text} {c : Context} (hu : u <:+ t)
              (h : formatAfter e span line last 0 u c = .ok html after) :
              Formats u html ∧ after = c := by
            have hsuffix : u <:+ d :: t := hu.trans (List.suffix_cons d t)
            have hshorter := hu.length_le
            exact ih u.length (by omega) (hfree.of_part hsuffix.isInfix)
              ((hsuffix.sublist.count_le _).trans hn) h rfl
          have hcall := hfree.not_call h
          rcases formatAfter_cons_cases hcall h with
            ⟨b, u, entity, more, rfl, rfl, hentity, rfl, hrest⟩ |
            ⟨more, hescape, hopen, hclose, rfl, hrest⟩ |
            ⟨body, rest, column, out, mid, more, rfl, hcut, hout, rfl, hrest⟩
          · obtain ⟨hformats, rfl⟩ := hbehind (List.suffix_cons b u) hrest
            exact ⟨.escape hentity hformats, rfl⟩
          · obtain ⟨hformats, rfl⟩ := hbehind List.suffix_rfl hrest
            exact ⟨.char hescape hopen hclose hformats, rfl⟩
          · rw [List.count_cons_self] at hn
            obtain ⟨hformats, rfl⟩ := hbehind hcut.rest_suffix hrest
            obtain ⟨rfl, hall⟩ := hspan (fun heq => hcall ⟨rfl, heq⟩) hcut
              (hfree.of_part (List.suffix_cons _ _).isInfix) hn hout
            exact ⟨hall hformats, rfl⟩

theorem followsWithin_spanWithin (nesting : Nat) :
    FollowsWithin e (spanWithin e line nesting) nesting := by
  induction nesting with
  | zero => exact fun _ _ _ hn => absurd hn (Nat.not_lt_zero _)
  | succ nesting ih =>
      intro t body rest column c out after hcall hcut hfree hn h
      rw [spanWithin, spanHtml] at h
      by_cases hvoid : isVoidTag (Text.trim body) = true
      · rw [if_pos hvoid] at h
        cases h
        exact ⟨rfl, .void hcall hcut hvoid⟩
      · rw [if_neg hvoid] at h
        cases hread : Shorthand.readToken body with
        | error err =>
            rw [hread] at h
            cases h
        | ok s =>
            rw [hread] at h
            obtain ⟨inner, mid, hformat, hout⟩ := CompileM.exists_of_bind_ok h
            cases hout
            have hsuffix := (Text.trimStart_suffix s.rest).trans (Shorthand.rest_suffix hread)
            have hcount := hcut.count_add_count_le
            have htext : (Text.trimStart s.rest).count '<' ≤ nesting :=
              (hsuffix.sublist.count_le _).trans (by omega)
            rw [formatWithin_eq] at hformat
            obtain ⟨hformats, rfl⟩ := formats_of_formatAfter ih
              ((hfree.cut hcut).of_part hsuffix.isInfix) htext hformat
            exact ⟨rfl, .span hcall hcut (by simpa using hvoid) hread hformats⟩

theorem formats_of_format (hfree : NoCallEnds e t) {column : Nat}
    (h : format e t line column c = .ok html after) : Formats t html ∧ after = c := by
  rw [format, formatWithin_eq] at h
  exact formats_of_formatAfter (followsWithin_spanWithin _) hfree (Nat.le_refl _) h

theorem format_of_formats (h : Formats t html) (column : Nat) :
    format e t line column c = .ok html c := by
  rw [format, formatWithin_eq]
  exact formatAfter_of_formats h (Nat.le_refl _) _ c

/-- The formatter gives what the relation says, and leaves the context as it was. -/
theorem format_eq_ok_iff (hfree : CallFree t) (column : Nat) :
    format e t line column c = .ok html after ↔ Formats t html ∧ after = c := by
  constructor
  · exact formats_of_format (.inl hfree)
  · rintro ⟨h, rfl⟩
    exact format_of_formats h column

end Formatter

/-! ### Larger texts -/

/-- A text ends in an even number of backslashes, so that the last one belongs to an escape. -/
def EndsPaired (t : Text) : Prop := Even (t.rtakeWhile (· = '\\')).length

section EndsPaired

variable {c : Char} {t u : Text}

/-- What stands in front of another character than a backslash does not matter. -/
theorem endsPaired_append_cons (hc : c ≠ '\\') (u t : Text) :
    EndsPaired (u ++ c :: t) ↔ EndsPaired t := by
  have hsame : (u ++ c :: t).rtakeWhile (· = '\\') = t.rtakeWhile (· = '\\') := by
    induction t using List.reverseRecOn with
    | nil => rw [List.rtakeWhile_concat_neg _ _ _ (by simpa using hc), List.rtakeWhile_nil]
    | append_singleton t d ih =>
        rw [← List.cons_append, ← List.append_assoc, List.rtakeWhile_concat, ih,
          List.rtakeWhile_concat]
  rw [EndsPaired, EndsPaired, hsame]

theorem endsPaired_escape (h : Text.escapable? c = some u) (t : Text) :
    EndsPaired ('\\' :: c :: t) ↔ EndsPaired t := by
  by_cases hc : c = '\\'
  · subst hc
    unfold EndsPaired
    induction t using List.reverseRecOn with
    | nil => decide
    | append_singleton t d ih =>
        rw [← List.cons_append, ← List.cons_append, List.rtakeWhile_concat, List.rtakeWhile_concat]
        by_cases hd : d = '\\'
        · rw [if_pos (by simpa using hd), if_pos (by simpa using hd), List.length_append,
            List.length_append, List.length_singleton, Nat.even_add_one, Nat.even_add_one, ih]
        · rw [if_neg (by simpa using hd), if_neg (by simpa using hd)]
  · exact endsPaired_append_cons hc ['\\'] t

/-- A backslash at the end is one of an escape. -/
theorem EndsPaired.of_char (h : EndsPaired (c :: t)) (hescape : escapeAt? (c :: t) = none) :
    EndsPaired t ∧ (t = [] → c ≠ '\\') := by
  by_cases hc : c = '\\'
  · subst hc
    cases t with
    | nil => exact absurd h (by unfold EndsPaired; decide)
    | cons d t =>
        have hd : d ≠ '\\' := by
          rintro rfl
          cases hescape
        have hrest : EndsPaired t := (endsPaired_append_cons hd ['\\'] t).1 h
        exact ⟨(endsPaired_append_cons hd [] t).2 hrest, nofun⟩
  · exact ⟨(endsPaired_append_cons hc [] t).1 h, fun _ => hc⟩

end EndsPaired

namespace Cut

variable {depth : Nat} {t body rest : Text}

/-- The end of a text is behind all spans that are cut out of it. -/
theorem endsPaired (h : Cut depth t body rest) (hpaired : EndsPaired ('<' :: t)) :
    EndsPaired rest := by
  obtain ⟨front, rfl⟩ := h.exists_eq_append
  exact (endsPaired_append_cons (by decide) ('<' :: front) rest).1 hpaired

/-- A text out of which a span is cut is not empty. -/
theorem head?_append_ne (h : Cut depth t body rest) (hcall : t.head? ≠ some '~') (u : Text) :
    (t ++ u).head? ≠ some '~' := by
  have hsome : t ≠ [] := by
    rintro rfl
    cases h
  rwa [head?_append_of_ne_nil hsome]

/-- A span is cut out as a part of the text that it stands in. -/
theorem span_append (h : Cut 0 t body rest) {u more rest' : Text}
    (hrest : Cut depth (rest ++ u) (Inline.referenced rest ++ more) rest') :
    Cut depth ('<' :: t ++ u) (Inline.referenced ('<' :: t) ++ more) rest' := by
  have hdeeper := (h.append u).deeper hrest
  rw [Nat.zero_add] at hdeeper
  rw [referenced_of_ne (by decide) t, h.referenced]
  simpa using Cut.opener hdeeper

end Cut

namespace Formats

variable {t u html html' : Text}

/-- Text without markup is written as it is. -/
theorem plain_append (hu : ∀ c ∈ u, c ∉ ['\\', '<', '>']) (h : Formats t html) :
    Formats (u ++ t) (u ++ html) := by
  induction u with
  | nil => exact h
  | cons c u ih =>
      obtain ⟨hc, hu⟩ := forall_not_markup_cons.1 hu
      exact .char (escapeAt?_of_ne hc.1 _) hc.2.1 hc.2.2 (ih hu)

/-- The first character of a text whose units go on does not become an escape. -/
theorem escapeAt?_append {c : Char} (hescape : escapeAt? (c :: t) = none)
    (hpaired : EndsPaired (c :: t)) (u : Text) : escapeAt? (c :: (t ++ u)) = none := by
  by_cases hsome : t = []
  · exact escapeAt?_of_ne ((hpaired.of_char hescape).2 hsome) _
  · exact (escapeAt?_congr (head?_append_of_ne_nil hsome u)).trans hescape

/-- A text is formatted, and then the text behind it. -/
theorem append (h : Formats t html) (hpaired : EndsPaired t) (h' : Formats u html') :
    Formats (t ++ u) (html ++ html') := by
  induction h with
  | nil => exact h'
  | escape hentity _ ih =>
      rw [List.append_assoc]
      exact .escape hentity (ih ((endsPaired_escape hentity _).1 hpaired))
  | char hescape hopen hclose _ ih =>
      exact .char (escapeAt?_append hescape hpaired u) hopen hclose
        (ih (hpaired.of_char hescape).1)
  | @void t body rest html hcall hcut hvoid _ ih =>
      have hrest := ih (hcut.endsPaired hpaired)
      rw [List.append_assoc]
      exact .void (hcut.head?_append_ne hcall u) (hcut.append u) hvoid hrest
  | @span t body rest inner html s hcall hcut hvoid hread hinner _ _ ih =>
      have hrest := ih (hcut.endsPaired hpaired)
      rw [List.append_assoc]
      exact .span (hcut.head?_append_ne hcall u) (hcut.append u) hvoid hread hinner hrest

/-- A text is cut out as a whole, with its escapes written as references. -/
theorem cut_append (h : Formats t html) (hpaired : EndsPaired t) {depth : Nat} {body rest : Text}
    (hcut : Cut depth u body rest) : Cut depth (t ++ u) (Inline.referenced t ++ body) rest := by
  induction h with
  | nil => exact hcut
  | escape hentity _ ih =>
      rw [referenced_escape hentity, List.append_assoc]
      exact .escape hentity (ih ((endsPaired_escape hentity _).1 hpaired))
  | @char c t html hescape hopen hclose _ ih =>
      rw [referenced_char hescape]
      exact .char (escapeAt?_append hescape hpaired u) hopen hclose (ih (hpaired.of_char hescape).1)
  | @void t inner behind html _ hinner _ _ ih =>
      exact hinner.span_append (ih (hinner.endsPaired hpaired))
  | @span t inner behind _ html s _ hinner _ _ _ _ _ ih =>
      exact hinner.span_append (ih (hinner.endsPaired hpaired))

/-- To write escapes as references beforehand makes no difference. -/
theorem referenced (h : Formats t html) : Formats (Inline.referenced t) html := by
  induction h with
  | nil => exact .nil
  | escape hentity _ ih =>
      rw [referenced_escape hentity]
      exact ih.plain_append (not_markup_of_escapable hentity)
  | char hescape hopen hclose _ ih =>
      rw [referenced_char hescape]
      exact .char (escapeAt?_referenced hescape) hopen hclose ih
  | @void t body rest html hcall hcut hvoid _ ih =>
      rw [referenced_of_ne (by decide) t, hcut.referenced]
      exact .void (hcut.head?_ne hcall _) (hcut.again _) hvoid ih
  | @span t body rest inner html s hcall hcut hvoid hread hinner _ _ ih =>
      rw [referenced_of_ne (by decide) t, hcut.referenced]
      exact .span (hcut.head?_ne hcall _) (hcut.again _) hvoid hread hinner ih

theorem of_plain_append (hu : ∀ c ∈ u, c ∉ ['\\', '<', '>']) (h : Formats (u ++ t) html) :
    ∃ more, html = u ++ more ∧ Formats t more := by
  induction u generalizing html with
  | nil => exact ⟨html, rfl, h⟩
  | cons c u ih =>
      obtain ⟨hc, hu⟩ := forall_not_markup_cons.1 hu
      rw [List.cons_append] at h
      generalize hall : u ++ t = v at h
      cases h with
      | escape => exact absurd rfl hc.1
      | void | span => exact absurd rfl hc.2.1
      | char _ _ _ h =>
          obtain ⟨more, rfl, hmore⟩ := ih hu (hall ▸ h)
          exact ⟨more, rfl, hmore⟩

theorem of_referenced (h : Formats (Inline.referenced t) html) : Formats t html := by
  induction hlength : t.length using Nat.strongRecOn generalizing t html with
  | ind n ih =>
      cases t with
      | nil => exact h
      | cons c t =>
          rw [List.length_cons] at hlength
          cases hescape : escapeAt? (c :: t) with
          | some entity =>
              obtain ⟨rfl, d, u, rfl, hentity⟩ := exists_of_escapeAt? hescape
              rw [List.length_cons] at hlength
              rw [referenced_escape hentity] at h
              obtain ⟨more, rfl, hmore⟩ := h.of_plain_append (not_markup_of_escapable hentity)
              exact .escape hentity (ih _ (by omega) hmore rfl)
          | none =>
              rw [referenced_char hescape] at h
              have hstart : (Inline.referenced t).head? ≠ some '~' → t.head? ≠ some '~' := by
                rcases head?_referenced t with heq | ⟨heq, -⟩
                · rw [heq]
                  exact id
                · rw [heq]
                  exact fun _ => by decide
              have hnone := escapeAt?_referenced hescape
              generalize hu : Inline.referenced t = u at h hstart hnone
              cases h with
              | escape hentity _ => exact absurd hnone (escapeAt?_ne_none hentity _)
              | char _ hopen hclose h =>
                  exact .char hescape hopen hclose (ih _ (by omega) (hu ▸ h) rfl)
              | void hcall hcut hvoid h =>
                  obtain ⟨rest, rfl, hspan⟩ := Cut.of_referenced (hu ▸ hcut)
                  have hshorter := hspan.rest_suffix.length_le
                  exact .void (hstart hcall) hspan hvoid (ih _ (by omega) h rfl)
              | span hcall hcut hvoid hread hinner h =>
                  obtain ⟨rest, rfl, hspan⟩ := Cut.of_referenced (hu ▸ hcut)
                  have hshorter := hspan.rest_suffix.length_le
                  exact .span (hstart hcall) hspan hvoid hread hinner (ih _ (by omega) h rfl)

/-- A text that is formatted closes no more than it opens. -/
theorem not_cut (h : Formats t html) {depth : Nat} {body rest : Text} :
    ¬ Cut depth t body rest := by
  intro hcut
  induction h generalizing depth body rest with
  | nil => cases hcut
  | escape hentity _ ih =>
      cases hcut with
      | escape _ hcut => exact ih hcut
      | char hescape _ _ _ => exact absurd hescape (escapeAt?_ne_none hentity _)
  | char hescape hopen hclose _ ih =>
      cases hcut with
      | close | inner => exact hclose rfl
      | opener => exact hopen rfl
      | escape hentity _ => exact absurd hescape (escapeAt?_ne_none hentity _)
      | char _ _ _ hcut => exact ih hcut
  | void _ hspan _ _ ih | span _ hspan _ _ _ _ _ ih =>
      cases hcut with
      | char _ hopen _ _ => exact hopen rfl
      | opener hcut =>
          obtain ⟨more, hmore⟩ := hspan.behind (by rwa [Nat.zero_add])
          exact ih hmore

end Formats

/-! ### Texts in spans -/

section InSpan

variable {t body html : Text} {s : Shorthand}

/-- The text in a span stays where it starts when its escapes are written as references. -/
theorem trimStart_referenced {c : Char} (hc : Text.isBlank c = false) (t : Text) :
    Text.trimStart (' ' :: referenced (c :: t)) = referenced (c :: t) ∧
      Text.allBlank (referenced (c :: t)) = false := by
  have hstarts : ∃ d u, referenced (c :: t) = d :: u ∧ Text.isBlank d = false := by
    cases hescape : escapeAt? (c :: t) with
    | none => exact ⟨c, _, referenced_char hescape, hc⟩
    | some entity =>
        obtain ⟨rfl, d, u, rfl, hentity⟩ := exists_of_escapeAt? hescape
        obtain ⟨v, rfl⟩ := exists_of_escapable hentity
        exact ⟨'&', _, referenced_escape hentity u, by decide⟩
  obtain ⟨d, u, heq, hd⟩ := hstarts
  rw [heq]
  constructor
  · rw [Text.trimStart, List.dropWhile_cons_of_pos (by decide),
      List.dropWhile_cons_of_neg (by simp [hd])]
  · simp [Text.allBlank, hd]

/-- A body with a space between two characters that are not blank is no void tag. -/
theorem isVoidTag_eq_false {c : Char} (hc : Text.isBlank c = false) (t : Text) {u : Text}
    (hu : Text.allBlank u = false) : isVoidTag (Text.trim (c :: t ++ ' ' :: u)) = false := by
  have hspace : ' ' ∈ Text.trim (c :: t ++ ' ' :: u) := by
    have hblank : Text.allBlank (' ' :: u) = false := by
      rw [Text.allBlank, List.all_cons, Bool.and_eq_false_iff]
      exact .inr hu
    rw [Text.trim, Text.trimStart, List.cons_append, List.dropWhile_cons_of_neg (by simp [hc]),
      ← List.cons_append, Text.trimEnd_append_of_not_allBlank _ hblank,
      ← List.singleton_append (x := ' '), Text.trimEnd_append_of_not_allBlank _ hu]
    simp
  have hnone : ∀ tag ∈ voidTags, ' ' ∉ tag := by decide
  rw [isVoidTag, ← Bool.not_eq_true, List.contains_iff_mem]
  exact fun hmem => hnone _ hmem hspace

/-- A text is formatted in a span as it is outside. -/
theorem Formats.in_span {c : Char} (h : Formats (c :: t) html) (hpaired : EndsPaired (c :: t))
    (hstart : Text.isBlank c = false) (hsome : body ≠ []) (hcall : body.head? ≠ some '~')
    (hplain : ∀ d ∈ body, d ∉ ['\\', '<', '>']) (hread : Shorthand.readToken body = .ok s)
    (hrest : s.rest = []) (htag : ∀ d ∈ s.tag, Text.isBlank d = false) :
    Formats ('<' :: body ++ ' ' :: (c :: t) ++ ['>'])
      (Element.ofTag s.tag html s.attributes).html := by
  obtain ⟨htrim, hblank⟩ := trimStart_referenced hstart t
  have hcut : Cut 0 (body ++ ' ' :: ((c :: t) ++ ['>'])) (body ++ ' ' :: Inline.referenced (c :: t))
      [] := by
    have hinner := h.cut_append hpaired (Cut.close [])
    rw [List.append_nil] at hinner
    exact (Cut.char (escapeAt?_of_ne (by decide) _) (by decide) (by decide) hinner).plain_append
      hplain
  obtain ⟨d, hd, hdtag⟩ := Shorthand.head?_of_readToken hread hrest hsome
  have hfirst : Text.isBlank d = false := by
    rcases hdtag with hmem | ⟨b, rfl⟩
    · exact htag d hmem
    · cases b <;> decide
  obtain ⟨more, rfl⟩ := List.head?_eq_some_iff.1 hd
  have hinner : Formats (Text.trimStart (' ' :: Inline.referenced (c :: t))) html := by
    rw [htrim]
    exact h.referenced
  have hspan := Formats.span (s := ⟨s.tag, s.groups, ' ' :: Inline.referenced (c :: t)⟩)
    (by simpa using hcall) hcut (isVoidTag_eq_false hfirst more hblank)
    (Shorthand.readToken_append hread hrest _) hinner .nil
  have hshape : '<' :: (d :: more) ++ ' ' :: (c :: t) ++ ['>']
      = '<' :: (d :: more ++ ' ' :: ((c :: t) ++ ['>'])) := by simp
  rw [List.append_nil] at hspan
  rw [hshape]
  exact hspan

end InSpan

/-- Formatting is compositional, in every context and at every place of a source: of two texts
without calls, the first of which ends in no backslash of its own, both are formatted one behind
the other as they are apart; and in a span the first one is formatted as it is outside. -/
theorem format_compositional (e : Expander) (c : Context) {x y h k : Text}
    (hx : ¬ ['<', '~'] <:+: x) (hy : ¬ ['<', '~'] <:+: y)
    (hpaired : Even (x.rtakeWhile (· = '\\')).length) {line column line' column' : Nat}
    {cx cy : Context} (hh : format e x line column c = .ok h cx)
    (hk : format e y line' column' c = .ok k cy) :
    (∀ line column, format e (x ++ y) line column c = .ok (h ++ k) c) ∧
    ∀ {token : Text} {s : Shorthand}, (∃ d, x.head? = some d ∧ Text.isBlank d = false) →
      token ≠ [] → token.head? ≠ some '~' → (∀ d ∈ token, d ∉ ['\\', '<', '>']) →
      Shorthand.readToken token = .ok s → s.rest = [] → (∀ d ∈ s.tag, Text.isBlank d = false) →
      ∀ line column, format e ('<' :: token ++ ' ' :: x ++ ['>']) line column c
        = .ok (Element.ofTag s.tag h s.attributes).html c := by
  have hfx : Formats x h := ((format_eq_ok_iff hx column).1 hh).1
  have hfy : Formats y k := ((format_eq_ok_iff hy column').1 hk).1
  have format_of {t html : Text} (hformats : Formats t html) (line column : Nat) :
      format e t line column c = .ok html c := by
    rw [format, formatWithin_eq]
    exact formatAfter_of_formats hformats (Nat.le_refl _) _ c
  refine ⟨format_of (hfx.append hpaired hfy), ?_⟩
  rintro token s ⟨d, hd, hblank⟩ hsome hcall hplain hread hrest htag
  obtain ⟨t, rfl⟩ := List.head?_eq_some_iff.1 hd
  exact format_of (hfx.in_span hpaired hblank hsome hcall hplain hread hrest htag)

/-- A text without calls that is formatted leaves the context as it was. -/
theorem format_of_run' {e : Expander} {line column : Nat} {t html : Text} {c : Context}
    (hfree : CallFree t) (h : (format e t line column).run' c = some html) :
    format e t line column c = .ok html c := by
  obtain ⟨after, hformat⟩ := CompileM.exists_of_run' h
  rw [hformat, (format_eq_ok_iff hfree column).1 hformat |>.2]

/-- A text with a span and with escapes, in front of another text and in a span with a class. -/
theorem format_compositional_of_two_texts :
    format (fun _ _ _ => pure []) "<b a\\>> \\\\".toList 0 0 .start
        = .ok "<b>a&gt;</b> &#92;".toList .start ∧
      format (fun _ _ _ => pure []) ("<b a\\>> \\\\".toList ++ "<i c>".toList) 0 0 .start
        = .ok ("<b>a&gt;</b> &#92;".toList ++ "<i>c</i>".toList) .start ∧
      format (fun _ _ _ => pure [])
          ('<' :: "p(q)".toList ++ ' ' :: "<b a\\>> \\\\".toList ++ ['>']) 0 0 .start
        = .ok "<p class=\"q\"><b>a&gt;</b> &#92;</p>".toList .start := by
  have hx : format (fun _ _ _ => pure []) "<b a\\>> \\\\".toList 0 0 .start
      = .ok "<b>a&gt;</b> &#92;".toList .start :=
    format_of_run' (by decide +kernel) (by decide +kernel)
  have hy : format (fun _ _ _ => pure []) "<i c>".toList 0 0 .start
      = .ok "<i>c</i>".toList .start :=
    format_of_run' (by decide +kernel) (by decide +kernel)
  obtain ⟨happend, hspan⟩ :=
    format_compositional _ .start (by decide +kernel) (by decide +kernel) (by decide +kernel) hx hy
  have hread : Shorthand.readToken "p(q)".toList = .ok ⟨['p'], [⟨.round, ['q']⟩], []⟩ := rfl
  have hhtml : (Element.ofTag ['p'] "<b>a&gt;</b> &#92;".toList
      (Shorthand.attributes ⟨['p'], [⟨.round, ['q']⟩], []⟩)).html
      = "<p class=\"q\"><b>a&gt;</b> &#92;</p>".toList := by decide +kernel
  have hplain : ∀ d ∈ ['p', '(', 'q', ')'], d ∉ ['\\', '<', '>'] := by simp
  have htag : ∀ d ∈ ['p'], Text.isBlank d = false := List.forall_mem_singleton.2 rfl
  have hinside := hspan ⟨'<', rfl, by decide⟩ (by decide) (by decide) hplain hread rfl htag 0 0
  rw [hhtml] at hinside
  exact ⟨hx, happend 0 0, hinside⟩

end Inline

end IndentMarkup
