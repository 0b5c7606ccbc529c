import IndentMarkup.Proofs.Calls

/-!
Escapes that are written as references beforehand.

A text can be read in two ways: with its escapes, as the formatter does, or in two passes, the
first of which writes every escape as a reference. In spans both are the same, since a span is cut
out with references for its escapes before it is read. A call outside of spans is read character by
character, its backslashes among them, so there a bracket that is escaped still ends a value.

* `Inline.Call.extent` — the characters of a call that are read.
* `Inline.Call.kept_of_extent` — without escapes among them, the call stays what it is.
* `Inline.CallsUnescaped` — no call outside of spans has an escape among them.
* `Inline.formatAfter_referenced` — then both ways are the same, from each unit of the text on.
* `Inline.format_referenced` — the same for whole texts.
-/

namespace IndentMarkup.Inline

open Coupling

/-! ### What is read of a call -/

namespace Call

section Extent

variable {arity : Nat} {t : Text} {call : Call} {c : Context}

/-- A name that ends in a text stands in front of the character that ends it. -/
theorem exists_name (h : (name t).length ≠ t.length) : ∃ d rest,
    t = name t ++ d :: rest ∧ endsName d = true ∧ ∀ b ∈ name t, endsName b = false := by
  have hparts : t = name t ++ t.dropWhile (!endsName ·) := List.takeWhile_append_dropWhile.symm
  cases hdrop : t.dropWhile (!endsName ·) with
  | nil =>
      rw [hdrop, List.append_nil] at hparts
      exact absurd (congrArg List.length hparts).symm h
  | cons d rest =>
      rw [hdrop] at hparts
      have hd := List.head?_dropWhile_not (!endsName ·) t
      rw [hdrop] at hd
      refine ⟨d, rest, hparts, by simpa using hd, fun b hb => ?_⟩
      simpa using List.mem_takeWhile_imp hb

/-- To read values takes no notice of the text behind them. -/
theorem exists_of_takeValues {n : Nat} {values : List Text} {rest : Text}
    (h : takeValues n t = some (values, rest)) : ∃ front, t = front ++ rest ∧
      (front = [] ∨ front.getLast? = some '>') ∧
      ∀ u, takeValues n (front ++ u) = some (values, u) := by
  induction n generalizing t values with
  | zero =>
      cases h
      exact ⟨[], rfl, .inl rfl, fun _ => rfl⟩
  | succ n ih =>
      have hclose : '>' ∈ t := by
        by_contra hnone
        have hdrop : t.dropWhile (· ≠ '>') = [] := by
          rw [List.dropWhile_eq_nil_iff]
          intro d hd
          simpa using ne_of_mem_of_not_mem hd hnone
        rw [takeValues, hdrop] at h
        cases h
      obtain ⟨v, behind, rfl, hv⟩ := List.eq_append_cons_of_mem hclose
      rw [takeValues_value hv] at h
      obtain ⟨⟨more, rest⟩, hmore, rfl, rfl⟩ := Option.map_eq_some_iff.1 h
      obtain ⟨front, rfl, hlast, hall⟩ := ih hmore
      refine ⟨v ++ '>' :: front, by simp, .inr ?_, fun u => ?_⟩
      · rw [List.getLast?_append, List.getLast?_cons]
        rcases hlast with rfl | hlast
        · rfl
        · rw [hlast]
          rfl
      · rw [List.append_assoc, List.cons_append, takeValues_value hv, hall]
        rfl

/-- To read a call takes no notice of the text behind it. -/
theorem exists_of_read (h : read? arity t = some call) : ∃ front rest, t = front ++ rest ∧
    front.length = call.used ∧ front.getLast? ≠ some '\\' ∧
    ∀ u, name (front ++ u) = name t ∧ read? arity (front ++ u) = some call := by
  obtain ⟨d, behind, ht, hd, hname⟩ := exists_name (length_name_of_read h)
  generalize name t = word at ht hname
  subst ht
  by_cases hspace : d = ' '
  · subst hspace
    rw [read?_space hname] at h
    obtain ⟨⟨values, rest⟩, hvalues, rfl⟩ := Option.map_eq_some_iff.1 h
    obtain ⟨front, rfl, hlast, hall⟩ := exists_of_takeValues hvalues
    have hused (u : Text) : (word ++ ' ' :: (front ++ u)).length - u.length
        = (word ++ ' ' :: front).length := by
      simp only [List.length_append, List.length_cons]
      omega
    refine ⟨word ++ ' ' :: front, rest, by simp, (hused rest).symm, ?_, fun u => ?_⟩
    · rw [List.getLast?_append, List.getLast?_cons]
      rcases hlast with rfl | hlast
      · simp
      · simp [hlast]
    · rw [List.append_assoc, List.cons_append, read?_space hname, hall, Option.map_some, hused,
        hused]
      exact ⟨(name_append hname rfl _).1, rfl⟩
  · obtain rfl : d = '>' := by simpa [endsName, hspace] using hd
    rw [read?_close hname] at h
    cases h
    refine ⟨word ++ ['>'], behind, by simp, by simp, by simp, fun u => ?_⟩
    rw [List.append_assoc, List.singleton_append]
    exact ⟨(name_append hname rfl u).1, read?_close hname arity u⟩

/-- The number of characters that are read of a call: up to the end of its values; up to the end of
its name, if there is no template of that name; or all there are, if the call has no end. -/
def extent (c : Context) (t : Text) : Nat :=
  match c.template? (name t) with
  | none => (name t).length + 1
  | some m =>
      match read? m.arity t with
      | none => t.length
      | some call => call.used

/-- Two texts start with one call, or both with one that has no end. -/
structure Same (c : Context) (t u : Text) : Prop where
  name : name u = name t
  ends : (Call.name u).length = u.length ↔ (Call.name t).length = t.length
  read : ∀ m, c.template? (Call.name t) = some m → read? m.arity u = read? m.arity t

/-- The call that a text starts with stays what it is when references are written in the text, and
so they are written in what stands behind the call. -/
structure Kept (c : Context) (t : Text) : Prop where
  same : Same c t (referenced t)
  behind : ∀ m call, c.template? (name t) = some m → read? m.arity t = some call →
    (referenced t).drop call.used = referenced (t.drop call.used)

theorem kept_of_escapeFree (h : EscapeFree t) : Kept c t := by
  have hsame : referenced t = t := h
  constructor
  · rw [hsame]
    exact ⟨rfl, .rfl, fun _ _ => rfl⟩
  · intro _ call _ _
    rw [← List.take_append_drop call.used t] at h
    rw [hsame]
    exact h.of_append.2.symm

theorem kept_of_unknown (hm : c.template? (name t) = none) (hends : (name t).length ≠ t.length)
    (h : EscapeFree (t.take ((name t).length + 1))) : Kept c t := by
  obtain ⟨d, rest, ht, hd, hname⟩ := exists_name hends
  generalize hword : name t = word at ht hname hm h
  subst ht
  rw [List.append_cons, List.take_left' (by simp)] at h
  have hlast : (word ++ [d]).getLast? ≠ some '\\' := by
    rw [List.getLast?_concat]
    rintro ⟨⟩
    cases hd
  have hreferenced : referenced (word ++ d :: rest) = word ++ d :: referenced rest := by
    have hall := h.referenced_append hlast rest
    rwa [List.append_assoc, List.append_assoc] at hall
  have hsame : name (word ++ d :: referenced rest) = word := (name_append hname hd _).1
  constructor
  · rw [hreferenced]
    refine ⟨hsame.trans hword.symm, ?_, ?_⟩
    · rw [hsame, hword]
      simp
    · rw [hword, hm]
      exact nofun
  · rw [hword, hm]
    exact nofun

theorem kept_of_read {m : Template} (hm : c.template? (name t) = some m)
    (hread : read? m.arity t = some call) (h : EscapeFree (t.take call.used)) : Kept c t := by
  obtain ⟨front, rest, hparts, hlength, hlast, hall⟩ := exists_of_read hread
  rw [← hlength, hparts, List.take_left' rfl] at h
  have hreferenced : referenced t = front ++ referenced rest := by
    rw [hparts]
    exact h.referenced_append hlast rest
  obtain ⟨hname, hsame⟩ := hall (referenced rest)
  rw [← hreferenced] at hname hsame
  constructor
  · refine ⟨hname, ?_, fun m' hm' => ?_⟩
    · exact iff_of_false (length_name_of_read hsame) (length_name_of_read hread)
    · cases hm.symm.trans hm'
      rw [hsame, hread]
  · intro m' call' hm' hread'
    cases hm.symm.trans hm'
    cases hread.symm.trans hread'
    rw [hreferenced, ← hlength, List.drop_left, hparts, List.drop_left]

/-- If nothing that is read of a call is an escape, the call is kept. -/
theorem kept_of_extent (h : EscapeFree (t.take (extent c t))) : Kept c t := by
  have whole (hextent : t.length ≤ extent c t) : Kept c t := by
    rw [List.take_of_length_le hextent] at h
    exact kept_of_escapeFree h
  cases hm : c.template? (name t) with
  | none =>
      have hextent : extent c t = (name t).length + 1 := by rw [extent, hm]
      by_cases hends : (name t).length = t.length
      · exact whole (by omega)
      · exact kept_of_unknown hm hends (hextent ▸ h)
  | some m =>
      cases hread : read? m.arity t with
      | none =>
          refine whole (Nat.le_of_eq ?_)
          rw [extent, hm]
          dsimp only
          rw [hread]
      | some call =>
          refine kept_of_read hm hread ?_
          rw [extent, hm] at h
          dsimp only at h
          rwa [hread] at h

end Extent

end Call

section CallHtml

variable {e : Expander} {line : Nat} {c : Context} {t u : Text}

/-- One call gives the same in front of two texts. -/
theorem elsewhere_callHtml (h : Call.Same c t u) (last last' : Nat) :
    elsewhere.Outcome Eq (callHtml e line last t c) (callHtml e line last' u c) := by
  rw [callHtml, callHtml, h.name]
  by_cases hends : (Call.name t).length = t.length
  · have hends' := h.ends.2 hends
    rw [h.name] at hends'
    rw [if_pos hends, if_pos hends']
    exact elsewhere_failAt _ rfl line last last' c
  · have hends' := mt h.ends.1 hends
    rw [h.name] at hends'
    rw [if_neg hends, if_neg hends', CompileM.get_bind_run, CompileM.get_bind_run]
    cases hm : c.template? (Call.name t) with
    | none => exact elsewhere_failAt _ rfl line _ _ c
    | some m =>
        dsimp only
        rw [h.read m hm]
        cases Call.read? m.arity t with
        | none => exact elsewhere_failAt _ rfl line last last' c
        | some call => exact elsewhere_self _ c c rfl

end CallHtml

/-! ### Calls without escapes -/

/-- No call that is read outside of spans, in the context that it is read in, has an escape among
the characters that are read of it. -/
inductive CallsUnescaped (e : Expander) (line : Nat) : Context → Text → Prop
  | nil {c : Context} : CallsUnescaped e line c []
  | escape {c : Context} {d : Char} {entity t : Text} (hentity : Text.escapable? d = some entity)
      (h : CallsUnescaped e line c t) : CallsUnescaped e line c ('\\' :: d :: t)
  | char {c : Context} {d : Char} {t : Text} (hescape : escapeAt? (d :: t) = none)
      (hopen : d ≠ '<') (hclose : d ≠ '>') (h : CallsUnescaped e line c t) :
      CallsUnescaped e line c (d :: t)
  | close {c : Context} (t : Text) : CallsUnescaped e line c ('>' :: t)
  | unclosed {c : Context} {t : Text} (hcall : t.head? ≠ some '~') (hspan : takeSpan t = none) :
      CallsUnescaped e line c ('<' :: t)
  | span {c : Context} {t body rest : Text} (hcall : t.head? ≠ some '~') (hcut : Cut 0 t body rest)
      (h : ∀ column html after, spanOf e line body column c = .ok html after →
        CallsUnescaped e line after rest) : CallsUnescaped e line c ('<' :: t)
  | call {c : Context} {t : Text} (hfree : EscapeFree (t.take (Call.extent c t)))
      (h : ∀ last html used after, callHtml e line last t c = .ok (html, used) after →
        CallsUnescaped e line after (t.drop used)) : CallsUnescaped e line c ('<' :: '~' :: t)

section Referenced

variable {e : Expander} {line : Nat} {c : Context} {t : Text}

/-- In a text without calls escapes may stand anywhere. -/
theorem callsUnescaped_of_callFree (h : CallFree t) : CallsUnescaped e line c t := by
  induction hlength : t.length using Nat.strongRecOn generalizing t c with
  | ind n ih =>
      have hbehind {u : Text} {c : Context} (hu : u <:+ t) (hshorter : u.length < n) :
          CallsUnescaped e line c u := ih u.length hshorter (h.of_part hu.isInfix) rfl
      cases t with
      | nil => exact .nil
      | cons d t =>
          rw [List.length_cons] at hlength
          cases hescape : escapeAt? (d :: t) with
          | some entity =>
              obtain ⟨rfl, b, u, rfl, hentity⟩ := exists_of_escapeAt? hescape
              rw [List.length_cons] at hlength
              exact .escape hentity (hbehind (List.suffix_append ['\\', b] u) (by omega))
          | none =>
              have ht := fun c => hbehind (c := c) (List.suffix_cons d t) (by omega)
              by_cases hclose : d = '>'
              · subst hclose
                exact .close t
              by_cases hopen : d = '<'
              · subst hopen
                have hcall : t.head? ≠ some '~' := fun heq => (callFree_cons.1 h).1 ⟨rfl, heq⟩
                cases hspan : takeSpan t with
                | none => exact .unclosed hcall hspan
                | some r =>
                    have hcut := cut_of_takeSpanAfter hspan
                    have hrest := hcut.rest_suffix
                    have hshorter := hrest.length_le
                    exact .span hcall hcut fun _ _ _ _ =>
                      hbehind (hrest.trans (List.suffix_cons _ t)) (by omega)
              · exact .char hescape hopen hclose (ht c)

theorem takeSpan_referenced (h : takeSpan t = none) : takeSpan (referenced t) = none := by
  rw [Option.eq_none_iff_forall_ne_some]
  rintro ⟨body, used⟩ hspan
  obtain ⟨rest, -, hcut⟩ := (cut_of_takeSpanAfter hspan).of_referenced
  obtain ⟨used', htake, -⟩ := takeSpanAfter_of_cut hcut
  rw [takeSpan, htake] at h
  cases h

/-- With references written beforehand, the formatter does the same from each unit on. -/
theorem formatAfter_referenced (h : CallsUnescaped e line c t) (last last' : Nat) :
    elsewhere.Outcome Eq (formatAfter e (spanOf e line) line last 0 t c)
      (formatAfter e (spanOf e line) line last' 0 (referenced t) c) := by
  induction h with
  | nil => exact .ok rfl rfl
  | @escape c d entity t hentity _ ih =>
      rw [formatAfter_escape _ _ hentity, referenced_escape hentity,
        formatAfter_plain_append _ _ (not_markup_of_escapable hentity)]
      exact elsewhere_bind ih fun html after _ => elsewhere_self _ _ _ rfl
  | @char c d t hescape hopen hclose _ ih =>
      rw [formatAfter_char _ _ hescape hopen hclose, referenced_char hescape,
        formatAfter_char _ _ (escapeAt?_referenced hescape) hopen hclose]
      exact elsewhere_bind ih fun html after _ => elsewhere_self _ _ _ rfl
  | @close c t =>
      rw [referenced_of_ne (by decide) t, formatAfter_close, formatAfter_close]
      exact elsewhere_failAt _ rfl line _ _ c
  | @unclosed c t hcall hspan =>
      have hcall' : (referenced t).head? ≠ some '~' := by
        rcases head?_referenced t with heq | ⟨-, heq⟩
        · rwa [heq]
        · rw [heq]
          decide
      rw [referenced_of_ne (by decide) t, formatAfter_unclosed _ _ hcall hspan,
        formatAfter_unclosed _ _ hcall' (takeSpan_referenced hspan)]
      exact elsewhere_failAt _ rfl line _ _ c
  | @span c t body rest hcall hcut _ ih =>
      -- the body is cut out as before, because its escapes are references in any case
      rw [referenced_of_ne (by decide) t, hcut.referenced,
        formatAfter_span _ _ hcall hcut,
        formatAfter_span _ _ (hcut.head?_ne hcall _) (hcut.again _)]
      refine elsewhere_bind (elsewhere_spanOf body _ _ c c rfl) fun html after hhtml => ?_
      exact elsewhere_bind (ih _ html after hhtml) fun more _ _ => elsewhere_self _ _ _ rfl
  | @call c t hfree _ ih =>
      have hkept := Call.kept_of_extent hfree
      rw [referenced_of_ne (by decide) _,
        referenced_of_ne (by decide) t, formatAfter_call, formatAfter_call]
      refine elsewhere_bind (elsewhere_callHtml hkept.same last last') fun r after hr => ?_
      obtain ⟨m, call, es, hm, hread, -, rfl⟩ := exists_of_callHtml hr
      rw [hkept.behind m call hm hread]
      exact elsewhere_bind (ih last _ _ after hr) fun more _ _ => elsewhere_self _ _ _ rfl

end Referenced

/-- A text does the same as with its escapes written as references beforehand, if no call outside of
spans has an escape among the characters that are read of it: both are formatted to the same, or
both fail with the same error, up to the column. -/
theorem format_referenced (e : Expander) {line : Nat} {c : Context} {t : Text}
    (h : CallsUnescaped e line c t) (column : Nat) :
    (∀ html after, format e t line column c = .ok html after ↔
      format e (referenced t) line column c = .ok html after) ∧
    ∀ s after, format e t line column c = .error s after →
      ∃ s', format e (referenced t) line column c = .error s' after ∧ s.SameButColumn s' := by
  have hboth : elsewhere.Outcome Eq (format e t line column c)
      (format e (referenced t) line column c) := by
    rw [format_eq_formatAfter, format_eq_formatAfter]
    exact formatAfter_referenced h _ _
  exact ⟨fun html after => elsewhere_ok hboth, fun s after => elsewhere_error hboth⟩

/-- A call without escapes, a call with an escaped bracket in a span, and an escape outside. -/
theorem format_referenced_of_calls :
    let m : Template := ⟨"t".toList, ["x".toList], ".(k) >x".toList⟩
    let c : Context := { Context.start with templates := (∅ : Table Template).insert "t".toList m }
    let html := "<span><span class=\"t k\">a</span></span>".toList ++
      "<b><span><span class=\"t k\">b&gt;c</span></span></b> &gt;".toList
    referenced "<~t a><b <~t b\\>c>> \\>".toList = "<~t a><b <~t b&gt;c>> &gt;".toList ∧
      ∃ after, format (expander 1) "<~t a><b <~t b\\>c>> \\>".toList 0 0 c = .ok html after ∧
        format (expander 1) "<~t a><b <~t b&gt;c>> &gt;".toList 0 0 c = .ok html after := by
  intro m c html
  have hreferenced : referenced "<~t a><b <~t b\\>c>> \\>".toList
      = "<~t a><b <~t b&gt;c>> &gt;".toList := by decide
  have htake : takeSpanAfter 0 0 "b <~t b\\>c>> \\>".toList
      = some ("b <~t b&gt;c>".toList, 12) := rfl
  have hm : c.template? "t".toList = some m := Table.find?_insert_self _ _ _
  have hread : Call.read? m.arity "t a><b <~t b\\>c>> \\>".toList = some ⟨["a".toList], 4⟩ := rfl
  have hname : Call.name "t a><b <~t b\\>c>> \\>".toList = "t".toList := rfl
  have hextent : Call.extent c "t a><b <~t b\\>c>> \\>".toList = 4 := by
    rw [Call.extent, hname, hm]
    dsimp only
    rw [hread]
  have hspan (after : Context) :
      CallsUnescaped (expander 1) 0 after ('<' :: "b <~t b\\>c>> \\>".toList) :=
    .span (by decide +kernel) (cut_of_takeSpanAfter htake) fun _ _ _ _ =>
      callsUnescaped_of_callFree (by decide +kernel)
  have hfree : EscapeFree ("t a><b <~t b\\>c>> \\>".toList.take 4) := by decide +kernel
  have hunescaped : CallsUnescaped (expander 1) 0 c
      ('<' :: '~' :: "t a><b <~t b\\>c>> \\>".toList) := by
    refine .call (hextent ▸ hfree) fun last _ used after hcall => ?_
    obtain ⟨m', call, es, hm', hread', -, hused⟩ := exists_of_callHtml hcall
    rw [hname, hm, Option.some.injEq] at hm'
    rw [← hm', hread, Option.some.injEq] at hread'
    obtain ⟨-, rfl⟩ := Prod.mk.inj hused
    rw [← hread']
    exact hspan after
  have htext : '<' :: '~' :: "t a><b <~t b\\>c>> \\>".toList
      = "<~t a><b <~t b\\>c>> \\>".toList := rfl
  rw [htext] at hunescaped
  obtain ⟨after, hformat⟩ := CompileM.exists_of_run' (by decide +kernel :
    (format (expander 1) "<~t a><b <~t b\\>c>> \\>".toList 0 0).run' c = some html)
  have hsame := ((format_referenced (expander 1) hunescaped 0).1 html after).1 hformat
  rw [hreferenced] at hsame
  exact ⟨hreferenced, after, hformat, hsame⟩

/-- In a call outside of spans an escaped bracket ends the value that it stands in. -/
theorem format_call_of_escaped_close :
    let m : Template := ⟨"t".toList, ["x".toList], ".(k) >x".toList⟩
    let c : Context := { Context.start with templates := (∅ : Table Template).insert "t".toList m }
    referenced "<~t a\\>b>".toList = "<~t a&gt;b>".toList ∧
      (∀ html after, format (expander 1) "<~t a\\>b>".toList 0 0 c ≠ .ok html after) ∧
      ∃ after, format (expander 1) "<~t a&gt;b>".toList 0 0 c
        = .ok "<span><span class=\"t k\">a&gt;b</span></span>".toList after := by
  intro m c
  exact ⟨by decide, CompileM.ne_ok_of_run' (by decide +kernel),
    CompileM.exists_of_run' (by decide +kernel)⟩

end IndentMarkup.Inline
