import IndentMarkup.Proofs.Boundary
import IndentMarkup.Proofs.Coupling.Readers
import IndentMarkup.Proofs.Formatting

/-!
Formatted text does not depend on where it stands.

The formatter counts two things on the way that its result does not show: the columns, which
only errors name, and the levels of spans, which only bound the recursion. So a text gives the
same wherever it stands, and what a span gives is said by the formatter itself.

* `Stop.SameButColumn` — two ends of a run that differ at most in the column.
* `Coupling.elsewhere` — a run, and the same run in other columns; it is lawful.
* `Inline.elsewhere_format` — a text is formatted to the same in all columns.
* `Inline.spanOf`, `Inline.format_eq_formatAfter` — the formatter without the count of levels.
-/

namespace IndentMarkup

/-! ### Other columns -/

/-- The two stops differ at most in the column of the error. -/
inductive Stop.SameButColumn : Stop → Stop → Prop where
  | exhausted : SameButColumn .exhausted .exhausted
  | error (e : CompileError) (column : Option Nat) :
      SameButColumn (.error e) (.error { e with column })

theorem Stop.SameButColumn.refl : ∀ s : Stop, s.SameButColumn s
  | .exhausted => .exhausted
  | .error e => .error e e.column

namespace Coupling

/-- A run, and the same run in other columns. -/
def elsewhere : Coupling where
  context c c' := c' = c
  number n n' := n' = n
  column _ _ := True
  line l l' := l' = l ∧ l.isBlank = false
  measured _ := True
  stop s c s' c' := s.SameButColumn s' ∧ c' = c
  lax := False
  loose := False
  tail := []

instance : elsewhere.Lawful where
  column_map _ _ _ _ := trivial
  trim_line hl := by rw [hl.1]
  isBlank_line hl := hl.2
  closes_tail := .inl rfl
  scan := by
    rintro c _ l _ rfl ⟨rfl, -⟩
    exact Agree.refl (fun _ => ⟨rfl, rfl, trivial⟩)
      fun m => ⟨rfl, rfl, rfl, trivial, trivial⟩
  fail := by
    rintro c _ n _ col col' cause - hc rfl -
    obtain rfl := hc
    exact .inr ⟨.error (Context.errorAt _ cause _ col) col', rfl⟩
  template := by
    rintro c _ name rfl
    exact .inr rfl
  expanding := by
    rintro c _ rfl
    exact .inr rfl
  directive := by
    rintro c _ m m' rfl - hm
    exact agree_readDirective rfl rfl rfl hm.content fun _ _ => rfl
  addClass := by
    rintro c _ name declarations rfl -
    exact Agree.refl (fun _ => rfl) fun _ => rfl
  define := by
    rintro c _ m signature name parameters body body' depth rfl - - - hbody
    rw [hbody.eq id fun _ _ hl => congrArg SourceLine.text hl.1]
    exact Agree.refl (fun _ => rfl) fun _ => rfl
  undefine := by
    rintro c _ m name rfl - -
    exact Agree.refl (fun _ => rfl) fun _ => rfl

variable {α β : Type} {c : Context}

/-- An action keeps in step with itself. -/
theorem elsewhere_self (x : CompileM α) : elsewhere.Couples Eq x x := by
  intro c c' hc
  obtain rfl : c' = c := hc
  cases x c' with
  | ok a after => exact .ok rfl rfl
  | error s after => exact .error ⟨.refl s, rfl⟩

theorem elsewhere_failAt {α : Type} (cause : Cause) (hown : cause.isOwn = true)
    (line column column' : Nat) (c : Context) :
    elsewhere.Outcome (α := α) Eq (CompileM.failAt cause line (some column) c)
      (CompileM.failAt cause line (some column') c) :=
  couples_failAt cause rfl (.some trivial) hown c c rfl

/-- What both runs go on with is asked only of the values and contexts that the first one comes
to. -/
theorem elsewhere_bind {x x' : CompileM α} {f f' : α → CompileM β}
    (hx : elsewhere.Outcome Eq (x c) (x' c))
    (hf : ∀ a after, x c = .ok a after → elsewhere.Outcome Eq (f a after) (f' a after)) :
    elsewhere.Outcome Eq ((x >>= f) c) ((x' >>= f') c) := by
  simp only [CompileM.bind_run]
  generalize hr : x c = r at hx hf
  generalize x' c = r' at hx
  cases hx with
  | ok ha hafter =>
      subst ha
      obtain rfl := hafter
      exact hf _ _ rfl
  | error hs => exact .error hs
  | excused hlax => exact hlax.elim

/-- What the second run comes to, told by the first. -/
theorem elsewhere_ok {x x' : CompileM α} (h : elsewhere.Outcome Eq (x c) (x' c)) {a : α}
    {after : Context} : x c = .ok a after ↔ x' c = .ok a after := by
  generalize x c = r at h
  generalize x' c = r' at h
  cases h with
  | ok ha hafter =>
      subst ha
      obtain rfl := hafter
      rfl
  | error => exact ⟨nofun, nofun⟩
  | excused hlax => exact hlax.elim

theorem elsewhere_error {x x' : CompileM α} (h : elsewhere.Outcome Eq (x c) (x' c)) {s : Stop}
    {after : Context} (hx : x c = .error s after) :
    ∃ s', x' c = .error s' after ∧ s.SameButColumn s' := by
  rw [hx] at h
  generalize x' c = r' at h
  cases h with
  | error hs =>
      obtain ⟨hs, rfl⟩ := hs
      exact ⟨_, rfl, hs⟩
  | excused hlax => exact hlax.elim

end Coupling

namespace Inline

open Coupling

variable {e : Expander} {line : Nat} {t : Text}

theorem elsewhere_expands (e : Expander) : elsewhere.Expands e e := by
  rintro name values n _ rfl - -
  exact elsewhere_self _

theorem elsewhere_format (t : Text) (column column' : Nat) :
    elsewhere.Couples Eq (format e t line column) (format e t line column') :=
  couples_format (elsewhere_expands e) (fun _ _ => trivial) rfl trivial

/-! ### Levels of spans -/

/-- A text is formatted to the same by two formatters of spans that agree on bodies with fewer
opening brackets than the text. -/
theorem formatAfter_congr {x y : Text → Nat → CompileM Text}
    (h : ∀ body column, body.count '<' < t.count '<' → x body column = y body column)
    (last skip : Nat) :
    formatAfter e x line last skip t = formatAfter e y line last skip t := by
  induction t generalizing skip with
  | nil => cases skip <;> rfl
  | cons d t ih =>
      have hle : t.count '<' ≤ (d :: t).count '<' := (List.sublist_cons_self d t).count_le '<'
      have ih := fun skip => ih (fun body column hb => h body column (hb.trans_le hle)) skip
      cases skip with
      | succ skip => exact ih skip
      | zero =>
          simp only [formatAfter, ih]
          cases escapeAt? (d :: t) with
          | some entity => rfl
          | none =>
              dsimp only
              by_cases hopen : d = '<'
              · subst hopen
                rw [if_pos rfl, if_pos rfl]
                cases hspan : takeSpan t with
                | none => rfl
                | some r =>
                    have hcount := (cut_of_takeSpanAfter hspan).count_add_count_le
                    have hfewer : r.1.count '<' < ('<' :: t).count '<' := by
                      rw [List.count_cons_self]
                      omega
                    simp only [h r.1 _ hfewer]
              · rw [if_neg hopen, if_neg hopen]

/-- A span is formatted to the same by two formatters that agree on texts with at most as many
opening brackets as its body: the text behind its tag is part of the body. -/
theorem spanHtml_congr {x y : Text → Nat → CompileM Text} {body : Text}
    (h : ∀ u column, u.count '<' ≤ body.count '<' → x u column = y u column) (column : Nat) :
    spanHtml x line body column = spanHtml y line body column := by
  rw [spanHtml, spanHtml]
  cases hread : Shorthand.readToken body with
  | error err => rfl
  | ok s =>
      have hsuffix := (Text.trimStart_suffix s.rest).trans (Shorthand.rest_suffix hread)
      simp only [h _ _ (hsuffix.sublist.count_le _)]

/-- More levels than a text has opening brackets make no difference. -/
theorem formatWithin_of_le {nesting more : Nat} (ht : t.count '<' ≤ nesting)
    (hmore : nesting ≤ more) (column : Nat) :
    formatWithin e line nesting t column = formatWithin e line more t column := by
  induction nesting generalizing t more column with
  | zero =>
      rw [formatWithin_eq, formatWithin_eq]
      have hnone (body : Text) : ¬ body.count '<' < t.count '<' := fun hb =>
        absurd (hb.trans_le ht) (Nat.not_lt_zero _)
      exact formatAfter_congr (fun body column hb => absurd hb (hnone body)) _ 0
  | succ nesting ih =>
      obtain ⟨more, rfl⟩ := Nat.exists_eq_add_of_le' (Nat.lt_of_lt_of_le nesting.succ_pos hmore)
      rw [formatWithin_eq, formatWithin_eq]
      refine formatAfter_congr (fun body column hb => ?_) _ 0
      refine spanHtml_congr (fun u column hu => ?_) column
      exact ih (by omega : u.count '<' ≤ nesting) (by omega : nesting ≤ more) column

/-- The HTML of a span with the given body. -/
def spanOf (e : Expander) (line : Nat) : Text → Nat → CompileM Text :=
  spanHtml (fun t column => format e t line column) line

/-- The formatter of a text formats the bodies of its spans. -/
theorem format_eq_formatAfter (t : Text) (column : Nat) :
    format e t line column
      = formatAfter e (spanOf e line) line (column + t.length) 0 t := by
  rw [format, formatWithin_eq]
  refine formatAfter_congr (fun body column hb => ?_) _ 0
  obtain ⟨nesting, hnesting⟩ := Nat.exists_eq_add_of_le' (Nat.lt_of_le_of_lt (Nat.zero_le _) hb)
  rw [hnesting]
  refine spanHtml_congr (fun u column hu => ?_) column
  exact (formatWithin_of_le (Nat.le_refl _) (by omega : u.count '<' ≤ nesting) column).symm

theorem elsewhere_spanOf (body : Text) (column column' : Nat) :
    elsewhere.Couples Eq (spanOf e line body column) (spanOf e line body column') :=
  couples_spanHtml (K := elsewhere) rfl (fun t col col' _ _ => elsewhere_format t col col')
    (fun _ _ => trivial) trivial

end Inline

end IndentMarkup
