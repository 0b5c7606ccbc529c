import IndentMarkup.Document
import IndentMarkup.Json

/-!
Documents in JSON.

* `Document.json` — a document with all its parts. Tables become objects with their
  fields in key order.
-/

namespace IndentMarkup

/-- A table of texts. -/
def Table.json (m : Table Text) : Json := .object (m.entries.map fun e => (e.1, .string e.2))

mutual

/-- An element with its children. -/
def Element.json : Element → Json
  | ⟨tag, attributes, text, children⟩ =>
      .object [("tag".toList, .string tag), ("attributes".toList, attributes.json),
        ("text".toList, .string text), ("children".toList, .array (Element.jsonAll children))]

/-- Elements in order. -/
def Element.jsonAll : List Element → List Json
  | [] => []
  | e :: es => Element.json e :: Element.jsonAll es

end

/-- A section. -/
def Section.json (s : Section) : Json :=
  .object [("id".toList, .number s.id),
    ("name".toList, Json.ofOption .string s.heading.name),
    ("description".toList, Json.ofOption .string s.heading.description),
    ("has_title".toList, .bool s.hasTitle),
    ("elements".toList, .array (Element.jsonAll s.elements))]

/-- A tab. -/
def Tab.json (t : Tab) : Json :=
  .object [("id".toList, .number t.id),
    ("name".toList, Json.ofOption .string t.heading.name),
    ("description".toList, Json.ofOption .string t.heading.description),
    ("sections".toList, .array (t.sections.map Section.json))]

/-- A template. -/
def Template.json (m : Template) : Json :=
  .object [("name".toList, .string m.name),
    ("parameters".toList, .array (m.parameters.map .string)),
    ("content".toList, .string m.content)]

/-- The prologue. -/
def Metadata.json (m : Metadata) : Json :=
  .object [("title".toList, Json.ofOption .string m.title),
    ("theme".toList, Json.ofOption (fun t => .string t.name) m.theme),
    ("totop_text".toList, Json.ofOption .string m.topText),
    ("hide_credit".toList, .bool m.hideCredit),
    ("spaces".toList, Json.ofOption .number m.spaces),
    ("font".toList, Json.ofOption .string m.font),
    ("favicon".toList, Json.ofOption .string m.favicon),
    ("initial_hash".toList, Json.ofOption .string m.initialHash),
    ("custom_classes".toList, m.customClasses.json)]

/-- A document. -/
def Document.json (d : Document) : Json :=
  .object [("metadata".toList, d.metadata.json),
    ("tabs".toList, .array (d.tabs.map Tab.json)),
    ("templates".toList,
      .object (d.templates.entries.map fun e => (e.1, Template.json e.2)))]

end IndentMarkup
