import IndentMarkup.Proofs.Characters
import IndentMarkup.Proofs.Checked.Bytes

/-!
Formatted text, checked.

The formatter reads a text once, counts the spans that are open and gathers the outermost one
until its closing bracket; then it formats what it has gathered. The same can be said with the
span cut out beforehand, which is how texts are formatted here. Said in the first way, it can be
seen that the count does not go below zero, and that the text of a span starts behind the start
of the span.

* `CheckedM` — actions that fail where arithmetic or a slice does.
* `Checked.formatFrom`, `Checked.format` — the formatter with a count of open spans.
* `Checked.format_eq` — nothing fails in it, and it gives the same.
-/

namespace IndentMarkup

/-- An action that comes out with nothing where arithmetic or a slice fails. -/
abbrev CheckedM : Type → Type := OptionT CompileM

namespace Checked

variable {α β : Type}

/-- An action in which nothing of the kind can fail. -/
def lift (x : CompileM α) : CheckedM α := OptionT.lift x

/-- A value that may not be there. -/
def ofOption (x : Option α) : CheckedM α := OptionT.mk (pure x)

@[simp] theorem ofOption_some (a : α) : ofOption (some a) = pure a := rfl

theorem lift_bind (x : CompileM α) (f : α → CompileM β) :
    lift (x >>= f) = lift x >>= fun a => lift (f a) := by
  refine OptionT.ext ?_
  simp [lift]

theorem lift_map (f : α → β) (x : CompileM α) : lift (f <$> x) = f <$> lift x := by
  rw [← bind_pure_comp, ← bind_pure_comp, lift_bind]
  rfl

theorem lift_ite {p : Prop} [Decidable p] (x y : CompileM α) :
    lift (if p then x else y) = if p then lift x else lift y := by
  split <;> rfl

/-! ### The formatter -/

/-- Format the rest of a text that goes from `column` to `last`, after `skip` characters that have
been read already. There are `depth` spans open, the outermost of which starts at column `start`
and has the given body so far. -/
def formatFrom (expand : Expander) (span : Text → Nat → CheckedM Text) (line last : Nat) :
    (skip depth : Nat) → (body : Text) → (start column : Nat) → Text → CheckedM Text
  | _, depth, _, _, _, [] =>
      if depth = 0 then pure [] else lift (.failAt (.format .unclosedSpan) line (some last))
  | skip + 1, depth, body, start, column, _ :: t =>
      formatFrom expand span line last skip depth body start (column + 1) t
  | 0, depth, body, start, column, c :: t =>
      let goOn (skip depth : Nat) (body : Text) (start : Nat) : CheckedM Text :=
        formatFrom expand span line last skip depth body start (column + 1) t
      match Inline.escapeAt? (c :: t) with
      | some entity =>
          if depth = 0 then do return entity ++ (← goOn 1 0 [] start)
          else goOn 1 depth (body ++ entity) start
      | none =>
          if c = '<' then
            if depth = 0 ∧ t.head? = some '~' then do
              let (html, used) ← lift (Inline.callHtml expand line last (t.drop 1))
              return html ++ (← goOn (used + 1) 0 [] start)
            else if depth = 0 then goOn 0 1 [] (column + 1)
            else goOn 0 (depth + 1) (body ++ [c]) start
          else if c = '>' then
            if depth = 0 then lift (.failAt (.format .unexpectedClose) line (some column))
            else do
              let left ← ofOption (sub depth 1)
              if left = 0 then do
                let html ← span body start
                return html ++ (← goOn 0 0 [] start)
              else goOn 0 left (body ++ [c]) start
          else if depth = 0 then do return c :: (← goOn 0 0 [] start)
          else goOn 0 depth (body ++ [c]) start

/-- The HTML of a span, the text of which starts at the column of the span and as many further
as are in front of it. -/
def spanHtml (inner : Text → Nat → CheckedM Text) (line : Nat) (body : Text) (column : Nat) :
    CheckedM Text :=
  if isVoidTag (Text.trim body) then pure ('<' :: body ++ ['>'])
  else
    match Shorthand.readToken body with
    | .error e => lift (.failAt (.shorthand e.fault) line (some (column + e.column)))
    | .ok s => do
        let text := Text.trimStart s.rest
        let behind ← ofOption (sub (column + body.length) text.length)
        let html ← inner text behind
        return (Element.ofTag s.tag html s.attributes).html

/-- Format a text that starts at `column` and has spans at most `nesting` levels deep. -/
def formatWithin (expand : Expander) (line : Nat) :
    (nesting : Nat) → Text → Nat → CheckedM Text
  | 0, t, column =>
      formatFrom expand (fun _ _ => pure []) line (column + t.length) 0 0 [] 0 column t
  | nesting + 1, t, column =>
      formatFrom expand (spanHtml (formatWithin expand line nesting) line) line
        (column + t.length) 0 0 [] 0 column t

/-- Write a text as HTML; it starts at `column` of `line`. -/
def format (expand : Expander) (t : Text) (line column : Nat) : CheckedM Text :=
  formatWithin expand line (t.count '<') t column

/-! ### Nothing fails -/

section Format

variable (e : Expander)

/-- Format a span, which has the body `front` and what else has been cut out of the text, and
then the text behind it. -/
def formatSpan (inner : Text → Nat → CompileM Text) (line last : Nat) (front : Text)
    (start : Nat) (t : Text) : Option (Text × Nat) → CompileM Text
  | none => .failAt (.format .unclosedSpan) line (some last)
  | some (more, used) => do
      let html ← inner (front ++ more) start
      return html ++ (← Inline.formatAfter e inner line last used t)

/-- It is the same to have read a character of the span already. -/
theorem formatSpan_read (inner : Text → Nat → CompileM Text) (line last : Nat)
    (front written : Text) (start : Nat) (c : Char) (t : Text) (found : Option (Text × Nat)) :
    formatSpan e inner line last front start (c :: t)
        (found.map fun r => (written ++ r.1, r.2 + 1)) =
      formatSpan e inner line last (front ++ written) start t found := by
  cases found with
  | none => rfl
  | some r => simp [formatSpan, Inline.formatAfter]

/-- Outside of spans the formatter gives what it gives with spans cut out beforehand. Inside of
a span it reads the rest of the span first. -/
theorem formatFrom_eq {span : Text → Nat → CheckedM Text} {inner : Text → Nat → CompileM Text}
    (hspan : ∀ body column, span body column = lift (inner body column)) (line : Nat) {last : Nat}
    {t : Text} {column : Nat} (hlast : last = column + t.length) :
    (∀ skip body start, formatFrom e span line last skip 0 body start column t
      = lift (Inline.formatAfter e inner line last skip t)) ∧
    ∀ skip depth body start, formatFrom e span line last skip (depth + 1) body start column t
      = lift (formatSpan e inner line last body start t (Inline.takeSpanAfter skip depth t)) := by
  induction t generalizing column with
  | nil => exact ⟨fun _ _ _ => rfl, fun _ _ _ _ => rfl⟩
  | cons c t ih =>
      rw [List.length_cons] at hlast
      obtain ⟨houtside, hinside⟩ := @ih (column + 1) (by omega)
      have hbehind : last - t.length = column + 1 := by omega
      have hhere : last - (t.length + 1) = column := by omega
      have hread := formatSpan_read e inner line last
      constructor
      · intro skip body start
        cases skip with
        | succ skip => exact houtside skip body start
        | zero =>
            rw [formatFrom, Inline.formatAfter]
            cases Inline.escapeAt? (c :: t) with
            | some entity => simp [houtside, lift_map]
            | none =>
                by_cases hopen : c = '<'
                · by_cases hcall : t.head? = some '~'
                  · simp [hopen, hcall, houtside, lift_bind, lift_map]
                  · simp only [hopen, hcall, hinside, hbehind, Inline.takeSpan]
                    cases Inline.takeSpanAfter 0 0 t <;> rfl
                · by_cases hclose : c = '>'
                  · simp [hclose, hhere]
                  · simp [hopen, hclose, houtside, lift_map]
      · intro skip depth body start
        cases skip with
        | succ skip =>
            rw [formatFrom, hinside, Inline.takeSpanAfter]
            have hskipped := hread body [] start c t (Inline.takeSpanAfter skip depth t)
            rw [List.append_nil] at hskipped
            exact congrArg lift hskipped.symm
        | zero =>
            rw [formatFrom, Inline.takeSpanAfter]
            cases Inline.escapeAt? (c :: t) with
            | some entity => simp [hinside, hread]
            | none =>
                have hchar := hread body [c] start c t
                simp only [List.singleton_append] at hchar
                by_cases hopen : c = '<'
                · subst hopen
                  simp [hinside, hchar]
                · by_cases hclose : c = '>'
                  · subst hclose
                    -- The bracket closes the span, or one inside of it.
                    cases depth with
                    | zero =>
                        simp [houtside, hspan, formatSpan, sub, lift_bind, lift_map,
                          Inline.formatAfter]
                    | succ depth => simp [hinside, hchar, sub]
                  · simp [hopen, hclose, hinside, hchar]

omit e in
/-- The text behind a shorthand starts where a part of what has been read ends. -/
theorem sub_rest {t : Text} {s : Shorthand} (h : Shorthand.readToken t = .ok s) (column : Nat) :
    sub (column + t.length) (Text.trimStart s.rest).length =
      some (column + (t.length - (Text.trimStart s.rest).length)) := by
  have hshort : (Text.trimStart s.rest).length ≤ t.length :=
    ((Text.trimStart_suffix _).trans (Shorthand.rest_suffix h)).length_le
  rw [sub_of_le (by omega), Nat.add_sub_assoc hshort]

/-- The text behind the tag of a span starts in the span. -/
theorem spanHtml_eq {checked : Text → Nat → CheckedM Text} {inner : Text → Nat → CompileM Text}
    (h : ∀ t column, checked t column = lift (inner t column)) (line : Nat) (body : Text)
    (column : Nat) :
    spanHtml checked line body column = lift (Inline.spanHtml inner line body column) := by
  unfold spanHtml Inline.spanHtml
  rw [lift_ite]
  refine ite_congr rfl (fun _ => rfl) fun _ => ?_
  cases hs : Shorthand.readToken body with
  | error e => rfl
  | ok s => simp [sub_rest hs, h, lift_map]

theorem formatWithin_eq (line nesting : Nat) (t : Text) (column : Nat) :
    formatWithin e line nesting t column = lift (Inline.formatWithin e line nesting t column) := by
  induction nesting generalizing t column with
  | zero =>
      have hnone (_ : Text) (_ : Nat) : (pure [] : CheckedM Text) = lift (pure []) := rfl
      exact (formatFrom_eq e hnone line rfl).1 0 [] 0
  | succ nesting ih => exact (formatFrom_eq e (spanHtml_eq ih line) line rfl).1 0 [] 0

/-- Formatted texts are written without a failure. -/
theorem format_eq (t : Text) (line column : Nat) :
    format e t line column = lift (Inline.format e t line column) :=
  formatWithin_eq e line _ t column

end Format

end Checked

end IndentMarkup
