import IndentMarkup.Table
import IndentMarkup.Text.Entity

/-!
HTML elements.

An element's text is HTML already: spans inside a text are written out when the
text is formatted, so only lines below a line become children. Writing an element
is then a matter of tags, quoted values and order.

* `Element.ofTag` — an element from the tag that the author wrote.
* `Element.html` — the element written out.
-/

namespace IndentMarkup

/-- An HTML element. -/
structure Element where
  tag : Text
  attributes : Table Text
  /-- HTML written before the children. -/
  text : Text
  children : List Element

/-- The elements that have neither content nor a closing tag. -/
def voidTags : List Text :=
  ["br".toList, "hr".toList, "img".toList, "input".toList, "meta".toList, "link".toList]

/-- The tag names an element without content. -/
def isVoidTag (tag : Text) : Bool := voidTags.contains tag

namespace Element

instance : Inhabited Element := ⟨⟨[], ∅, [], []⟩⟩

/-! ### From the author's tag -/

/-- The text without one leading full stop. -/
def dropDot : Text → Text
  | '.' :: t => t
  | t => t

/-- The attributes with `name` in front of the other classes. -/
def addClassBefore (name : Text) (attributes : Table Text) : Table Text :=
  match attributes.find? "class".toList with
  | none => attributes.insert "class".toList name
  | some others => attributes.insert "class".toList (name ++ ' ' :: others)

/-- The attributes with `name` behind the other classes. -/
def addClassAfter (name : Text) (attributes : Table Text) : Table Text :=
  match attributes.find? "class".toList with
  | none => attributes.insert "class".toList name
  | some others => attributes.insert "class".toList (others ++ ' ' :: name)

/-- A link opens in a page of its own unless it leads to an anchor of this page or
its target is given. -/
def addTarget (attributes : Table Text) : Table Text :=
  match attributes.find? "href".toList with
  | none => attributes
  | some link =>
      if link.head? = some '#' ∨ attributes.contains "target".toList then attributes
      else attributes.insert "target".toList "_blank".toList

/-- The element that a tag stands for, without children. A full stop in front of
the tag is dropped; no tag is a `span` of class `t`, which holds plain text; a
`card` is a `div` of class `card`. -/
def ofTag (tag text : Text) (attributes : Table Text) : Element :=
  let name := dropDot tag
  if name = [] then
    ⟨"span".toList, addTarget (addClassBefore ['t'] attributes), text, []⟩
  else if name = "card".toList then
    ⟨"div".toList, addTarget (addClassAfter "card".toList attributes), text, []⟩
  else ⟨name, addTarget attributes, text, []⟩

/-- The element with the given children in place of its own. -/
def withChildren (e : Element) (children : List Element) : Element :=
  { e with children := children }

/-! ### Writing -/

/-- One attribute, with a space in front. -/
def attributeHtml (a : Text × Text) : Text :=
  ' ' :: a.1 ++ "=\"".toList ++ Text.escapeQuotes a.2 ++ ['"']

/-- The opening tag. -/
def openTag (tag : Text) (attributes : Table Text) : Text :=
  '<' :: tag ++ attributes.entries.flatMap attributeHtml ++ ['>']

/-- The closing tag. -/
def closeTag (tag : Text) : Text := "</".toList ++ tag ++ ['>']

mutual

/-- The element written out: a void element is its opening tag alone, any other has
its text, its children and its closing tag behind it. -/
def html : Element → Text
  | ⟨tag, attributes, text, children⟩ =>
      if isVoidTag tag then openTag tag attributes
      else openTag tag attributes ++ text ++ htmlAll children ++ closeTag tag

/-- The elements written out one after the other. -/
def htmlAll : List Element → Text
  | [] => []
  | e :: es => html e ++ htmlAll es

end

end Element

end IndentMarkup
