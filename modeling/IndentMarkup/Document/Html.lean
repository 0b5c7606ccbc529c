import IndentMarkup.Document
import IndentMarkup.Stylesheet

/-!
Documents as HTML.

The number of a section or tab becomes its `id`, which links lead to. The result is a
fragment; a page for it is made by `IndentMarkup.Document.Page`.

* `Document.html` — the fragment.
* `Document.render` — the fragment with the stylesheet of the custom classes.
-/

namespace IndentMarkup

/-- A description, if there is one, as a paragraph. -/
def Heading.subtitle (h : Heading) : Text :=
  match h.description with
  | none => []
  | some d => "<p class=\"subtitle\">".toList ++ d ++ "</p>".toList

/-- A section: its name if it is shown, its description, and its elements. -/
def Section.html (s : Section) : Text :=
  "<section id=\"".toList ++ Text.ofNat s.id ++ "\">".toList
    ++ (match s.hasTitle, s.heading.name with
      | true, some name => "<h1>".toList ++ name ++ "</h1>".toList
      | _, _ => [])
    ++ s.heading.subtitle ++ Element.htmlAll s.elements ++ "</section>".toList

/-- A tab: its name, its description and its sections, or without a name just the
sections. -/
def Tab.html (t : Tab) : Text :=
  let sections := t.sections.flatMap Section.html
  match t.heading.name with
  | none => sections
  | some name =>
      "<section class=\"tab\" id=\"".toList ++ Text.ofNat t.id ++ "\">".toList
        ++ "<h1 class=\"tab-title\">".toList ++ name ++ "</h1>".toList
        ++ t.heading.subtitle ++ sections ++ "</section>".toList

namespace Document

/-- The fragment of a document. -/
def html (d : Document) : Text := d.tabs.flatMap Tab.html

/-- The stylesheet of a document. -/
def css (d : Document) : Except StylesheetError Text :=
  Stylesheet.ofClasses d.metadata.customClasses

end Document

/-- A document as a browser takes it, without a page around it. -/
structure Rendering where
  html : Text
  css : Text
  deriving DecidableEq, Repr

/-- Render a document; only a custom class without a rule stands against it. -/
def Document.render (d : Document) : Except StylesheetError Rendering :=
  match d.css with
  | .ok css => .ok ⟨d.html, css⟩
  | .error e => .error e

end IndentMarkup
