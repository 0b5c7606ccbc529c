import IndentMarkup.Context

/-!
Formatted text.

A text may have spans, `<tag text>`, that are nested and carry the attribute
shorthand; void elements, which are written as they stand; escapes, a backslash in
front of a backslash or an angle bracket; and calls of templates, `<~name a>b>`.
Formatting writes all of them as HTML.

The text is read from left to right. A span is first cut out as a whole, its
escapes undone, and then formatted as a text of its own, so every level of spans
uses up one opening bracket; the number of those in the text bounds the nesting.

* `takeSpan` — cut out a span.
* `Call.read?` — read a call once its template is known.
* `format` — write a text as HTML.
-/

namespace IndentMarkup

/-- Expands the template of a call, for a name, values and the line of the call. -/
abbrev Expander : Type := Text → List Text → Nat → CompileM (List Element)

namespace Inline

/-- The character reference for an escape at the start of a text. -/
def escapeAt? : Text → Option Text
  | '\\' :: c :: _ => Text.escapable? c
  | _ => none

/-! ### Spans -/

/-- Cut out the rest of a span that has `depth` spans open inside it: its body, with
the escapes written as references, and the number of characters up to and with the
bracket that closes it. The first `skip` characters have been read already. -/
def takeSpanAfter : (skip depth : Nat) → Text → Option (Text × Nat)
  | _, _, [] => none
  | skip + 1, depth, _ :: t => (takeSpanAfter skip depth t).map fun r => (r.1, r.2 + 1)
  | 0, depth, c :: t =>
      match escapeAt? (c :: t) with
      | some entity => (takeSpanAfter 1 depth t).map fun r => (entity ++ r.1, r.2 + 1)
      | none =>
          if c = '>' then
            if depth = 0 then some ([], 1)
            else (takeSpanAfter 0 (depth - 1) t).map fun r => (c :: r.1, r.2 + 1)
          else
            (takeSpanAfter 0 (if c = '<' then depth + 1 else depth) t).map
              fun r => (c :: r.1, r.2 + 1)

/-- Cut out a span whose opening bracket has been read. -/
def takeSpan (t : Text) : Option (Text × Nat) := takeSpanAfter 0 0 t

/-- The HTML of a span with the given body, which starts at `column`; `inner`
formats the text behind its tag. -/
def spanHtml (inner : Text → Nat → CompileM Text) (line : Nat) (body : Text) (column : Nat) :
    CompileM Text :=
  if isVoidTag (Text.trim body) then pure ('<' :: body ++ ['>'])
  else
    match Shorthand.readToken body with
    | .error e => .failAt (.shorthand e.fault) line (some (column + e.column))
    | .ok s => do
        let text := Text.trimStart s.rest
        let html ← inner text (column + (body.length - text.length))
        return (Element.ofTag s.tag html s.attributes).html

/-! ### Calls -/

/-- A call of a template inside a text. -/
structure Call where
  values : List Text
  /-- The characters that the call takes, from the first of the name on. -/
  used : Nat

namespace Call

/-- The character ends the name of a template. -/
def endsName (c : Char) : Bool := c = ' ' || c = '>'

/-- The name at the start of a call. -/
def name (t : Text) : Text := t.takeWhile (!endsName ·)

/-- Read `n` values, each up to a closing bracket, and the text behind them. -/
def takeValues : (n : Nat) → Text → Option (List Text × Text)
  | 0, t => some ([], t)
  | n + 1, t =>
      match t.dropWhile (· ≠ '>') with
      | [] => none
      | _ :: rest =>
          (takeValues n rest).map fun r => (Text.trim (t.takeWhile (· ≠ '>')) :: r.1, r.2)

/-- Read a call of a template with `arity` parameters. A name that ends at a space
is followed by as many values, and by one even if there is no parameter; that one
may be empty and is then no value. -/
def read? (arity : Nat) (t : Text) : Option Call :=
  match t.dropWhile (!endsName ·) with
  | [] => none
  | c :: rest =>
      if c = ' ' then
        (takeValues (max arity 1) rest).map fun r =>
          ⟨if arity = 0 ∧ r.1.all (· = []) then [] else r.1, t.length - r.2.length⟩
      else some ⟨[], t.length - rest.length⟩

/-- The HTML of a text's end without the line break in front of the two closing
tags, if it ends so. -/
def dropLastBreak (html : Text) : Text :=
  let ending := "<br></span></span>".toList
  if ending.isSuffixOf html then
    html.take (html.length - ending.length) ++ "</span></span>".toList
  else html

/-- The elements of an expanded call in a text: they stand in a `span`. -/
def wrap (elements : List Element) : Text :=
  dropLastBreak ((Element.ofTag "span".toList [] ∅).withChildren elements).html

end Call

/-- Read a call, of which `t` follows the tilde, and expand its template: the HTML
and the number of characters that the call takes. The text ends at column `last`. -/
def callHtml (expand : Expander) (line last : Nat) (t : Text) : CompileM (Text × Nat) := do
  let name := Call.name t
  if name.length = t.length then
    .failAt (.format .unterminatedCall) line (some last)
  else
    match (← get).template? name with
    | none => .failAt (.template (.unknown name)) line (some (last - t.length))
    | some m =>
        match Call.read? m.arity t with
        | none => .failAt (.format .unterminatedCall) line (some last)
        | some call => do
            let elements ← expand name call.values line
            return (Call.wrap elements, call.used)

/-! ### Texts -/

/-- Format the rest of a text that ends at column `last`, after `skip` characters
that have been read already; `span` formats the body of a span. -/
def formatAfter (expand : Expander) (span : Text → Nat → CompileM Text) (line last : Nat) :
    (skip : Nat) → Text → CompileM Text
  | _, [] => pure []
  | skip + 1, _ :: t => formatAfter expand span line last skip t
  | 0, c :: t =>
      match escapeAt? (c :: t) with
      | some entity => do return entity ++ (← formatAfter expand span line last 1 t)
      | none =>
          if c = '<' then
            if t.head? = some '~' then do
              let (html, used) ← callHtml expand line last (t.drop 1)
              return html ++ (← formatAfter expand span line last (used + 1) t)
            else
              match takeSpan t with
              | none => .failAt (.format .unclosedSpan) line (some last)
              | some (body, used) => do
                  let html ← span body (last - t.length)
                  return html ++ (← formatAfter expand span line last used t)
          else if c = '>' then
            .failAt (.format .unexpectedClose) line (some (last - (c :: t).length))
          else do
            return c :: (← formatAfter expand span line last 0 t)

/-- Format a text that starts at `column` and has spans at most `nesting` levels
deep. -/
def formatWithin (expand : Expander) (line : Nat) : (nesting : Nat) → Text → Nat → CompileM Text
  | 0, t, column => formatAfter expand (fun _ _ => pure []) line (column + t.length) 0 t
  | nesting + 1, t, column =>
      formatAfter expand (spanHtml (formatWithin expand line nesting) line) line
        (column + t.length) 0 t

/-- Write a text as HTML; it starts at `column` of `line`. -/
def format (expand : Expander) (t : Text) (line column : Nat) : CompileM Text :=
  formatWithin expand line (t.count '<') t column

end Inline

end IndentMarkup
