import IndentMarkup.Proofs.Independence
import IndentMarkup.Proofs.Moments
import IndentMarkup.Proofs.Nesting

/-!
How deep the formatter goes into spans.

A span is cut out of its text, and what stands behind its tag is formatted as a text of its own.
That text can be longer than the one that it was cut out of, because escapes are written as
references on the way; but the opening bracket of the span is not in it, and no reference has one.
So at every level the text has fewer opening brackets than the one around it, and there are at most
as many levels as it has opening brackets. Nothing but a call does anything to the context.

* `Inline.level` — one level of formatting, with a formatter for the texts in spans.
* `Inline.Inside` — the texts that the formatter comes to, and how many spans they are inside of.
* `Inline.Inside.count_add_le` — opening brackets and levels.
* `CompileM.Idle` — an action that leaves the context as it is.
* `Inline.format_levels` — the bound, and the context behind a text without calls.
-/

namespace IndentMarkup

/-! ### The context -/

namespace CompileM

/-- However it ends, the action leaves the context as it is. -/
def Idle {α : Type} (x : CompileM α) : Prop := ∀ c, x.after c = c

namespace Idle

variable {α β : Type}

theorem pure (a : α) : Idle (Pure.pure a) := fun _ => rfl

theorem failAt (cause : Cause) (n : Nat) (column : Option Nat) :
    Idle (CompileM.failAt (α := α) cause n column) := fun _ => rfl

theorem bind {x : CompileM α} {f : α → CompileM β} (hx : x.Idle) (hf : ∀ a, (f a).Idle) :
    (x >>= f).Idle := by
  intro c
  have hfirst := hx c
  rw [after_bind]
  cases hrun : x c with
  | error s d => rwa [after_of_error hrun] at hfirst
  | ok a d =>
      rw [after_of_ok hrun] at hfirst
      exact (hf a d).trans hfirst

theorem look {f : Context → CompileM α} (hf : ∀ c, (f c).Idle) : (get >>= f).Idle :=
  fun c => hf c c

theorem ite {p : Prop} [Decidable p] {x y : CompileM α} (hx : x.Idle) (hy : y.Idle) :
    Idle (if p then x else y) := by
  split
  · exact hx
  · exact hy

end Idle

end CompileM

namespace Inline

open CompileM

variable {e : Expander} {line : Nat} {t : Text}

/-- A call that is refused leaves the context as it is. -/
theorem idle_callHtml (line last : Nat) (t : Text) : (callHtml refuseCalls line last t).Idle := by
  unfold callHtml
  refine .ite (.failAt _ _ _) (.look fun c => ?_)
  cases c.template? (Call.name t) with
  | none => exact .failAt _ _ _
  | some m =>
      dsimp only
      cases Call.read? m.arity t with
      | none => exact .failAt _ _ _
      | some call => exact .bind (fun _ => rfl) fun elements => .pure _

theorem idle_formatAfter {span : Text → Nat → CompileM Text}
    (hspan : ∀ body column, (span body column).Idle) (last skip : Nat) (t : Text) :
    (formatAfter refuseCalls span line last skip t).Idle := by
  induction t generalizing skip with
  | nil => cases skip <;> exact .pure []
  | cons c t ih =>
      cases skip with
      | succ skip => exact ih skip
      | zero =>
          rw [formatAfter]
          cases escapeAt? (c :: t) with
          | some entity => exact .bind (ih 1) fun _ => .pure _
          | none =>
              refine .ite (.ite ?_ ?_) (.ite (.failAt _ _ _) (.bind (ih 0) fun _ => .pure _))
              · exact .bind (idle_callHtml _ _ _) fun r => .bind (ih _) fun _ => .pure _
              · cases takeSpan t with
                | none => exact .failAt _ _ _
                | some r => exact .bind (hspan _ _) fun html => .bind (ih _) fun _ => .pure _

theorem idle_spanHtml {inner : Text → Nat → CompileM Text}
    (hinner : ∀ u column, (inner u column).Idle) (body : Text) (column : Nat) :
    (spanHtml inner line body column).Idle := by
  unfold spanHtml
  refine .ite (.pure _) ?_
  cases Shorthand.readToken body with
  | error err => exact .failAt _ _ _
  | ok s => exact .bind (hinner _ _) fun html => .pure _

theorem idle_format (t : Text) (column : Nat) : (format refuseCalls t line column).Idle := by
  have within (nesting : Nat) :
      ∀ t column, (formatWithin refuseCalls line nesting t column).Idle := by
    induction nesting with
    | zero => exact fun t column => idle_formatAfter (fun _ _ => .pure []) _ 0 t
    | succ nesting ih => exact fun t column => idle_formatAfter (idle_spanHtml ih) _ 0 t
  exact within _ t column

/-! ### Levels -/

/-- Format a text in its column; `inner` formats what stands behind the tags of its spans. -/
def level (e : Expander) (line : Nat) (inner : Text × Nat → CompileM Text) (q : Text × Nat) :
    CompileM Text :=
  formatAfter e (spanHtml (fun u column => inner (u, column)) line) line (q.2 + q.1.length) 0 q.1

/-- The formatter of texts in their columns. -/
def formatIn (e : Expander) (line : Nat) (q : Text × Nat) : CompileM Text := format e q.1 line q.2

/-- The formatter formats what is in spans by itself. -/
theorem formatIn_eq_level (q : Text × Nat) : formatIn e line q = level e line (formatIn e line) q :=
  format_eq_formatAfter q.1 q.2

/-- Only texts with fewer opening brackets stand in the spans of a text. -/
theorem level_congr {x y : Text × Nat → CompileM Text} {q : Text × Nat}
    (h : ∀ u column, u.count '<' < q.1.count '<' → x (u, column) = y (u, column)) :
    level e line x q = level e line y q := by
  refine formatAfter_congr (fun body column hbody => ?_) _ 0
  exact spanHtml_congr (fun u column hu => h u column (by omega)) column

theorem count_lt_of_asks {x : Text × Nat → CompileM Text} {c d : Context} {q r : Text × Nat}
    (h : Asks (level e line · q) x c r d) : r.1.count '<' < q.1.count '<' := by
  obtain ⟨x', hx', hne⟩ := h
  by_contra hmany
  refine hne (congrFun (level_congr fun u column hu => ?_) c)
  funext d'
  refine hx' _ d' fun heq => hmany ?_
  rwa [← (Prod.mk.inj heq).1]

/-- In formatting a text from a context on, the formatter comes to format a text that is inside of
so many spans, in some context. -/
inductive Inside (e : Expander) (line : Nat) (q : Text × Nat) (c : Context) :
    Nat → Text × Nat → Context → Prop where
  | here : Inside e line q c 0 q c
  | span {k : Nat} {r s : Text × Nat} {d d' : Context} : Inside e line q c k r d →
      Asks (level e line · r) (formatIn e line) d s d' → Inside e line q c (k + 1) s d'

/-- Each level takes an opening bracket. -/
theorem Inside.count_add_le {q r : Text × Nat} {c d : Context} {k : Nat}
    (h : Inside e line q c k r d) : r.1.count '<' + k ≤ q.1.count '<' := by
  induction h with
  | here => exact Nat.le_refl _
  | span _ hasks ih =>
      have hfewer := count_lt_of_asks hasks
      omega

/-- Deeper levels than a text has opening brackets are never reached. -/
theorem iterate_level {q : Text × Nat} {n : Nat} (hn : q.1.count '<' < n)
    (base : Text × Nat → CompileM Text) : (level e line)^[n] base q = formatIn e line q := by
  induction n generalizing q with
  | zero => exact absurd hn (Nat.not_lt_zero _)
  | succ n ih =>
      rw [Function.iterate_succ_apply', formatIn_eq_level]
      exact level_congr fun u column hu => ih (by omega : u.count '<' < n)

/-- A span full of escapes. -/
def escapesText : Text := "<b \\<\\<\\<>".toList

/-- What stands behind its tag, with the escapes written as references. -/
def referencesText : Text := "&lt;&lt;&lt;".toList

theorem level_escapesText (x : Text × Nat → CompileM Text) :
    level e line x (escapesText, 0) =
      x (referencesText, 3) >>= fun html => pure (Element.ofTag ['b'] html ∅).html := by
  have hlevel : level e line x (escapesText, 0) =
      (x (referencesText, 3) >>= fun html => pure (Element.ofTag ['b'] html ∅).html) >>= fun html =>
        pure [] >>= fun rest => pure (html ++ rest) := rfl
  simpa using hlevel

/-- The text in a span can be longer than the text around it. -/
theorem asks_escapesText (e : Expander) (line : Nat) (c : Context) :
    Asks (level e line · (escapesText, 0)) (formatIn e line) c (referencesText, 3) c := by
  obtain ⟨x', hx'⟩ : ∃ x' : Text × Nat → CompileM Text, ∀ q d, x' q d =
      if (q, d) = ((referencesText, 3), c) then .error .exhausted d else formatIn e line q d :=
    ⟨fun q d => _, fun _ _ => rfl⟩
  have hformat : formatIn e line (referencesText, 3) c = .ok referencesText c := rfl
  refine ⟨x', fun j d' hother => (hx' j d').trans (if_neg hother), ?_⟩
  simp [level_escapesText, CompileM.bind_run, hx', hformat]

/-- The formatter formats a text level by level, and at each level it comes only to texts with fewer
opening brackets, though they may be longer. So it goes into at most as many spans as the text has
opening brackets: what it would do any deeper does not matter. If no template is called in the text,
the context stays as it is, whether the text is formatted or not. -/
theorem format_levels (e : Expander) (line : Nat) (t : Text) (column : Nat) (c : Context) :
    format e t line column = level e line (formatIn e line) (t, column) ∧
    (∀ x u column' d, Asks (level e line · (t, column)) x c (u, column') d →
      u.count '<' < t.count '<') ∧
    (∃ t u : Text, Asks (level e line · (t, 0)) (formatIn e line) c (u, 3) c ∧
      t.length < u.length) ∧
    (∀ k u column' d, Inside e line (t, column) c k (u, column') d →
      u.count '<' + k ≤ t.count '<') ∧
    (∀ n, t.count '<' < n → ∀ base, (level e line)^[n] base (t, column) = format e t line column) ∧
    (IndentMarkup.CallFree (fun e => format e t line column) c →
      (format e t line column).after c = c) := by
  refine ⟨formatIn_eq_level (t, column), fun x u column' d h => count_lt_of_asks h,
    ⟨_, _, asks_escapesText e line c, by decide⟩, fun k u column' d h => h.count_add_le,
    fun n hn base => iterate_level (q := (t, column)) hn base, fun hfree => ?_⟩
  have hrefused : format e t line column c = format refuseCalls t line column c := hfree _ _
  rw [CompileM.after, hrefused]
  exact idle_format t column c

/-- Spans in one another, and behind them a bracket that closes nothing. -/
def surplusText : Text := "<b x <i y \\<>> >".toList

theorem format_levels_surplusText :
    Asks (level (expander 1) 0 · (escapesText, 0)) (formatIn (expander 1) 0) .start
        (referencesText, 3) .start ∧
      referencesText.count '<' < escapesText.count '<' ∧
      Inside (expander 1) 0 (escapesText, 0) .start 1 (referencesText, 3) .start ∧
      referencesText.count '<' + 1 ≤ escapesText.count '<' ∧
      (level (expander 1) 0)^[4] (fun _ => pure []) (surplusText, 0)
        = format (expander 1) surplusText 0 0 ∧
      IndentMarkup.CallFree (fun e => format e surplusText 0 0) .start ∧
      ((format (expander 1) surplusText 0 0).run' .start).isNone = true ∧
      (format (expander 1) surplusText 0 0).after .start = .start := by
  have hasks := asks_escapesText (expander 1) 0 .start
  have hinside : Inside (expander 1) 0 (escapesText, 0) .start 1 (referencesText, 3) .start :=
    .span .here hasks
  have hfree : IndentMarkup.CallFree (fun e => format e surplusText 0 0) .start :=
    callFree_format (by decide) 0 0 .start
  obtain ⟨-, hfewer, -, hbound, -⟩ := format_levels (expander 1) 0 escapesText 0 .start
  obtain ⟨-, -, -, -, hdeep, hidle⟩ := format_levels (expander 1) 0 surplusText 0 .start
  exact ⟨hasks, hfewer _ _ _ _ hasks, hinside, hbound _ _ _ _ hinside, hdeep 4 (by decide) _, hfree,
    by decide +kernel, hidle hfree⟩

end Inline

end IndentMarkup
