import IndentMarkup.Inline

/-!
Blocks of lines: elements by indentation.

A line owns the deeper lines below it. The readers here take the lines that are not
read yet and give back those that they leave: an element takes its own line and its
children, a run of items all its items, a custom class or a template definition all
deeper lines. Blank lines and comments between elements are passed over without
being measured.

A line is measured only when it is reached, because a template that was expanded
before it can have changed the unit of indentation.

* `Block.next` — the next line that says something.
* `Block.readLine` — the elements that one line stands for.
* `Block.readBlock`, `Block.readFragment` — all elements at a depth, or of a source.
-/

namespace IndentMarkup

namespace Block

/-- Reads the elements at a depth and gives back the lines behind them. -/
abbrev Reader : Type := Nat → List SourceLine → CompileM (List Element × List SourceLine)

/-- The next line that is neither blank nor a comment, measured, with the lines
behind it. -/
def next (ls : List SourceLine) : CompileM (Option (Line × List SourceLine)) :=
  match skipSilent ls with
  | [] => pure none
  | l :: rest => do return some (← .scan l, rest)

/-! ### Lines below a line -/

/-- The lines deeper than `depth`, up to the first that is not, as they were written,
and the lines behind them. Blank lines between deeper lines belong to them; those
behind the last one do not. -/
def takeDeeper (unit : Indentation) (depth : Nat) :
    List SourceLine → Except IndentError (List Text × List SourceLine)
  | [] => .ok ([], [])
  | l :: ls =>
      if l.isBlank then
        match takeDeeper unit depth ls with
        | .error e => .error e
        | .ok (body, rest) =>
            if body = [] then .ok ([], l :: ls) else .ok (l.text :: body, rest)
      else
        match l.scan unit with
        | .error e => .error e
        | .ok m =>
            if m.depth ≤ depth then .ok ([], l :: ls)
            else
              match takeDeeper unit depth ls with
              | .error e => .error e
              | .ok (body, rest) => .ok (l.text :: body, rest)

/-- A line that owns nothing leaves all lines, blank ones too. -/
theorem takeDeeper_nil {unit : Indentation} {depth : Nat} {ls rest : List SourceLine}
    (h : takeDeeper unit depth ls = .ok ([], rest)) : rest = ls := by
  cases ls with
  | nil =>
      cases h
      rfl
  | cons l ls =>
      unfold takeDeeper at h
      split at h
      · split at h
        · cases h
        · split at h <;> cases h
          rfl
      · split at h
        · cases h
        · split at h
          · cases h
            rfl
          · split at h <;> cases h

/-- The lines that are taken are blank or deeper. -/
theorem takeDeeper_takes {unit : Indentation} {depth : Nat} {ls rest : List SourceLine}
    {body : List Text} (h : takeDeeper unit depth ls = .ok (body, rest)) :
    ∃ taken, ls = taken ++ rest ∧ body = taken.map (·.text) ∧
      ∀ l ∈ taken, l.DeeperThan unit depth := by
  induction ls generalizing body rest with
  | nil =>
      cases h
      exact ⟨[], rfl, rfl, by simp⟩
  | cons l ls ih =>
      have hnone : ∃ taken, l :: ls = taken ++ l :: ls ∧ [] = taken.map (·.text) ∧
          ∀ t ∈ taken, t.DeeperThan unit depth := ⟨[], rfl, rfl, by simp⟩
      have hmore {body : List Text} {rest : List SourceLine} (hl : l.DeeperThan unit depth)
          (hrest : ∃ taken, ls = taken ++ rest ∧ body = taken.map (·.text) ∧
            ∀ t ∈ taken, t.DeeperThan unit depth) :
          ∃ taken, l :: ls = taken ++ rest ∧ l.text :: body = taken.map (·.text) ∧
            ∀ t ∈ taken, t.DeeperThan unit depth := by
        obtain ⟨taken, rfl, rfl, htaken⟩ := hrest
        exact ⟨l :: taken, rfl, rfl, List.forall_mem_cons.2 ⟨hl, htaken⟩⟩
      unfold takeDeeper at h
      cases hl : l.isBlank with
      | true =>
          -- a blank line is taken only if something is taken behind it
          rw [if_pos hl] at h
          split at h
          · cases h
          · next more rest' hrun =>
              split at h <;> cases h
              · exact hnone
              · exact hmore (.inl hl) (ih hrun)
      | false =>
          rw [if_neg (by simp [hl])] at h
          split at h
          · cases h
          · next m hm =>
              split at h
              · cases h
                exact hnone
              · next hdeep =>
                  split at h
                  · cases h
                  · next more rest' hrun =>
                      cases h
                      exact hmore (.inr ⟨hl, m, hm, Nat.lt_of_not_le hdeep⟩) (ih hrun)

/-- The lines that a line owns, and the lines behind them. -/
def takeBody (depth : Nat) (ls : List SourceLine) : CompileM (List Text × List SourceLine) :=
  fun ctx => match takeDeeper ctx.indentation depth ls with
    | .ok r => .ok r ctx
    | .error e => .error (.error (ctx.errorAt (.indent e.fault) e.line (some e.column))) ctx

/-! ### Lines with elements -/

/-- A line with an element, taken apart. -/
structure TagLine where
  /-- The tag without its full stop and its tilde. -/
  tag : Text
  attributes : Table Text
  text : Text
  /-- The column in which the text starts. -/
  column : Nat
  /-- The text is literal and not formatted. -/
  raw : Bool

/-- A line without a tag. -/
def TagLine.plain (text : Text) (column : Nat) : TagLine := ⟨[], ∅, text, column, false⟩

/-- Take a tagged line apart. A tilde behind the full stop makes the text literal. -/
def readTagged (l : Line) : CompileM TagLine :=
  match Shorthand.readToken l.content with
  | .error e => .failAt (.shorthand e.fault) l.number (some (l.width + e.column))
  | .ok s =>
      let column := l.width + (l.content.length - (Text.trimStart s.rest).length)
      match Element.dropDot s.tag with
      | '~' :: tag => pure ⟨tag, s.attributes, Text.trim s.rest, column, true⟩
      | tag => pure ⟨tag, s.attributes, Text.trim s.rest, column, false⟩

/-- Take a line with an element apart. The backslash of an escaped line goes if the
next character is a marker that the formatter does not know as an escape. -/
def readTag (l : Line) : CompileM TagLine :=
  match l.kind, l.content with
  | .text, content => pure (.plain content l.width)
  | .escaped, _ :: c :: t =>
      if c ∈ markers ∧ c ≠ '>' then pure (.plain (c :: t) (l.width + 1))
      else pure (.plain l.content l.width)
  | .escaped, content => pure (.plain content l.width)
  | _, _ => readTagged l

/-- An image: its link is the source, its text the description. It has no children. -/
def readImage (l : Line) (head : TagLine) (rest : List SourceLine) :
    CompileM (Element × List SourceLine) :=
  match head.attributes.find? "href".toList with
  | none => .failAt (.structural .imageWithoutLink) l.number none
  | some source => do
      let description := if head.text = [] then "Image".toList else head.text
      let attributes := ((head.attributes.erase "href".toList).insert "src".toList source).insert
        "alt".toList description
      let below ← next rest
      match below with
      | none => pure (Element.ofTag "img".toList [] attributes, rest)
      | some (m, _) =>
          if l.depth < m.depth then .failAt (.structural .imageWithChildren) m.number none
          else pure (Element.ofTag "img".toList [] attributes, rest)

/-- The element of a line, under the given tag, with its children. A text that is not
empty ends in a line break. -/
def readElement (expand : Expander) (children : Reader) (l : Line) (head : TagLine)
    (tag : Text) (rest : List SourceLine) : CompileM (Element × List SourceLine) :=
  if tag = "img".toList then readImage l head rest
  else do
    let html ←
      if head.raw then pure (Text.escapeMarkup head.text)
      else Inline.format expand head.text l.number head.column
    let text := if head.text = [] then html else html ++ "<br>".toList
    let (es, rest) ← children (l.depth + 1) rest
    return ((Element.ofTag tag text head.attributes).withChildren es, rest)

/-! ### Runs of items -/

/-- A tag for the items of an outer element that the author does not write: lines of
one such tag that follow one another are its items. -/
structure Run where
  tag : Text
  outer : Text
  inner : Text
  deriving DecidableEq, Repr

/-- Lists without and with numbers, and tables of rows. -/
def runs : List Run :=
  [⟨"uli".toList, "ul".toList, "li".toList⟩, ⟨"oli".toList, "ol".toList, "li".toList⟩,
    ⟨"trow".toList, "table".toList, "tr".toList⟩]

/-- The character ends the token of an item: a space, or a bracket that opens. -/
def endsToken (c : Char) : Bool := c = ' ' || (Bracket.opening? c).isSome

/-- The tag of an item as it was written, without its shorthand. -/
def itemToken (content : Text) : Text := content.takeWhile (!endsToken ·)

/-- The line goes on with a run: it has the depth and the token of the run's first
line. -/
def continues (token : Text) (depth : Nat) (l : Line) : Bool :=
  l.depth = depth && l.kind = .tag && itemToken l.content = token

/-- The items of a run behind its first one. Only blank lines may stand between items.
The count bounds the items by the lines that are left. -/
def readItems (expand : Expander) (children : Reader) (token inner : Text) (depth : Nat) :
    (most : Nat) → List SourceLine → CompileM (List Element × List SourceLine)
  | 0, ls => pure ([], ls)
  | most + 1, ls =>
      match skipBlank ls with
      | [] => pure ([], ls)
      | raw :: rest => do
          let l ← .scan raw
          if continues token depth l then
            let head ← readTag l
            let (e, rest) ← readElement expand children l head inner rest
            let (es, rest) ← readItems expand children token inner depth most rest
            return (e :: es, rest)
          else pure ([], ls)

/-- The element of a line, or the outer element of the run that the line starts. -/
def readTree (expand : Expander) (children : Reader) (l : Line) (rest : List SourceLine) :
    CompileM (List Element × List SourceLine) := do
  let head ← readTag l
  match runs.find? (·.tag = head.tag) with
  | none =>
      let (e, rest) ← readElement expand children l head head.tag rest
      return ([e], rest)
  | some run =>
      let (first, rest) ← readElement expand children l head run.inner rest
      let (more, rest) ← readItems expand children (itemToken l.content) run.inner l.depth
        rest.length rest
      return ([(Element.ofTag run.outer [] ∅).withChildren (first :: more)], rest)

/-! ### Other lines -/

/-- The greatest number of units of vertical space, the greatest of 32 bits. -/
def mostMarginUnits : Nat := UInt32.size - 1

/-- The length that a margin asks for: one unit if it says nothing, that many units
if it is a number, or else the text itself. -/
def marginLength (amount : Text) : Text :=
  if amount = [] then "16px".toList
  else match Text.toNat? mostMarginUnits amount with
    | some units => Text.ofNat (units * 16) ++ "px".toList
    | none => amount

/-- Vertical space. -/
def margin (amount : Text) : Element :=
  Element.ofTag "div".toList []
    ((∅ : Table Text).insert "style".toList ("margin-bottom:".toList ++ marginLength amount))

/-- A custom class: its name, and its declarations on the lines that it owns. -/
def readClass (l : Line) (rest : List SourceLine) : CompileM (List SourceLine) := do
  let name := Text.trim (l.content.drop 1)
  if name = [] then .failAt (.directive .unnamedClass) l.number none
  else
    let (body, rest) ← takeBody l.depth rest
    let declarations := Text.join ['\n'] ((body.map Text.trim).filter (· ≠ []))
    .change l.number (·.addClass name declarations)
    return rest

/-- The body of a template whose definition has the given depth: the lines without
the indentation that the definition forces on them. -/
def dedent (unit : Indentation) (depth : Nat) (body : List Text) : Text :=
  Text.join ['\n'] (body.map (Text.dropBytes (unit.unitLength * (depth + 1))))

/-- A template definition: name and parameters, and the body on the lines that it
owns. -/
def readDefinition (l : Line) (signature : Text) (rest : List SourceLine) :
    CompileM (List SourceLine) := do
  match Text.words signature with
  | [] => .failAt (.template .unnamed) l.number none
  | name :: parameters =>
      let unit := (← get).indentation
      let (body, rest) ← takeBody l.depth rest
      .change l.number (·.defineBody name parameters (dedent unit l.depth body))
      return rest

/-- A line about a template: a plus sign defines it, a minus sign removes it, and
anything else is the name of one that is called. -/
def readTemplateLine (expand : Expander) (l : Line) (rest : List SourceLine) :
    CompileM (List Element × List SourceLine) :=
  match l.content with
  | '~' :: '+' :: signature => do return ([], ← readDefinition l signature rest)
  | '~' :: '-' :: name => do
      .change l.number (·.undefine (Text.trim name))
      return ([], rest)
  | _ => do
      return (← expand (l.token.drop 1) (Template.valuesOf l.afterToken) l.number, rest)

/-! ### Blocks -/

/-- The elements that a line stands for, with `children` as the reader of the lines
below it, and the lines that are left. Sections, tabs and inclusions belong to the
top level of a document; directives do too, except in a template's body. -/
def readLineWith (expand : Expander) (children : Reader) (l : Line)
    (rest : List SourceLine) : CompileM (List Element × List SourceLine) :=
  match l.kind with
  | .blank | .comment => pure ([], rest)
  | .sectionStart => .failAt (.structural .nestedSection) l.number none
  | .tabStart => .failAt (.structural .nestedTab) l.number none
  | .inclusion => .failAt (.inclusion .nested) l.number none
  | .directive => do
      if (← get).isExpanding then
        .change l.number (·.readDirective l)
        return ([], rest)
      else .failAt (.directive .nested) l.number none
  | .customClass => do return ([], ← readClass l rest)
  | .template => readTemplateLine expand l rest
  | .margin => pure ([margin (Text.trim (l.content.drop 1))], rest)
  | .tag | .text | .escaped => readTree expand children l rest

/-- The elements at a depth from at most `most` lines, up to the first line that is
less deep. A line that is deeper has no element above it. -/
def readWithin (expand : Expander) : (most : Nat) → Reader
  | 0, _, ls => pure ([], ls)
  | most + 1, depth, ls => do
      match ← next ls with
      | none => pure ([], ls)
      | some (l, rest) =>
          if l.depth < depth then pure ([], ls)
          else if depth < l.depth then .failAt (.tooDeep depth l.depth) l.number none
          else
            let (es, rest) ← readLineWith expand (readWithin expand most) l rest
            let (more, rest) ← readWithin expand most depth rest
            return (es ++ more, rest)

/-- The elements at a depth, up to the first line that is less deep, and the lines
from there on. Every element takes a line, so the lines bound the elements. -/
def readBlock (expand : Expander) : Reader := fun depth ls =>
  readWithin expand ls.length depth ls

/-- The elements that a line stands for, and the lines that are left. -/
def readLine (expand : Expander) (l : Line) (rest : List SourceLine) :
    CompileM (List Element × List SourceLine) :=
  readLineWith expand (readBlock expand) l rest

/-- The elements of a source whose lines start at the margin. -/
def readFragment (expand : Expander) (ls : List SourceLine) : CompileM (List Element) := do
  return (← readBlock expand 0 ls).1

end Block

end IndentMarkup
