import IndentMarkup.Document.Html

/-!
Documents as pages.

A page puts a head around the rendered fragment, with what the prologue says about it,
a link back to its top and a line of credit.

* `Document.page` — the page of a rendered document.
-/

namespace IndentMarkup.Document

/-- Line by line, each with a line feed. -/
def unlines (ls : List Text) : Text := ls.flatMap (· ++ ['\n'])

/-- The style that the page needs: the rules of the custom classes, and the font. -/
def pageCss (m : Metadata) (css : Text) : Text :=
  css ++ (match m.font with
    | none => []
    | some font => unlines ["body \x7b".toList,
        "  font-family: \"".toList ++ font ++ "\", sans-serif;".toList, "\x7d".toList])

/-- The head of a page. -/
def pageHead (m : Metadata) (css : Text) : Text :=
  unlines ["<!DOCTYPE html>".toList, "<html>".toList, "<head>".toList,
      "  <meta charset=\"UTF-8\">".toList,
      "  <meta name=\"viewport\" content=\"width=device-width, initial-scale=1\">".toList,
      "  <title>".toList ++ Text.escapeMarkup (m.title.getD "Untitled".toList)
        ++ "</title>".toList]
    ++ (match m.favicon with
      | none => []
      | some icon => unlines ["  <link rel=\"icon\" href=\"".toList ++ icon ++ "\">".toList])
    ++ (let style := pageCss m css
      if style = [] then []
      else "  <style>\n".toList ++ style ++ "  </style>\n".toList)
    ++ "</head>\n".toList

/-- A text as the content of a string between double quotes in a script: every double
quote gets a backslash. -/
def scriptQuoted (t : Text) : Text :=
  t.flatMap fun
    | '"' => ['\\', '"']
    | c => [c]

/-- The body of a page. -/
def pageBody (m : Metadata) (html : Text) : Text :=
  unlines ["<body class=\"".toList ++ (m.theme.getD .light).name ++ "\">".toList,
      "<main>".toList, html, "</main>".toList,
      "<a class=\"totop\" href=\"#\">".toList ++ m.topText.getD "Back to top".toList
        ++ "</a>".toList]
    ++ (if m.hideCredit then []
      else "<footer class=\"credit\">Made with SMSH</footer>\n".toList)
    ++ (match m.initialHash with
      | none => []
      | some hash => unlines ["<script>if (!location.hash) location.hash = \"".toList
          ++ scriptQuoted hash ++ "\";</script>".toList])
    ++ "</body>\n".toList

/-- The page of a document that has been rendered. -/
def page (d : Document) (r : Rendering) : Text :=
  pageHead d.metadata r.css ++ pageBody d.metadata r.html ++ "</html>\n".toList

end IndentMarkup.Document
