import IndentMarkup.Document.Page
import IndentMarkup.Proofs.Literals
import IndentMarkup.Proofs.Values

/-!
Values between delimiters on a page.

A page writes four values of the prologue into other languages: the title into HTML, the icon into
an attribute, the font into a string of the style sheet, and the initial place into a string of a
script. Only the title is written so that it stays where it is put, whatever it is. The icon and
the font are written as they are, and of the place only the double quotes are escaped and not the
backslashes; so each of these three stays between its delimiters and is read back exactly if it
has no character that the language around it gives a meaning to.

* `Quoted.read?` — what stands in a string between double quotes, and what stands behind it.
* `Quoted.Guarded`, `Quoted.read?_eq_some_iff` — texts that such a string can have in it.
* `Quoted.Spells`, `Quoted.spells_scriptQuoted_iff` — what a string in a script stands for, and
  which texts are read back from one.
* `Document.page_title`, `Document.page_icon`, `Document.page_font`, `Document.page_hash` — where
  the values stand on a page.
* `page_keeps_values` — which values stay between their delimiters.
-/

namespace IndentMarkup

/-! ### Strings between double quotes -/

namespace Quoted

/-- What stands in a string behind its opening quote, and what stands behind the string. A
backslash takes the next character with it, and outside of that no line may break. -/
def read? (isBreak : Char → Bool) : Text → Option (Text × Text)
  | [] => none
  | '"' :: t => some ([], t)
  | '\\' :: c :: t => (read? isBreak t).map fun r => ('\\' :: c :: r.1, r.2)
  | c :: t => if isBreak c then none else (read? isBreak t).map fun r => (c :: r.1, r.2)

/-- The text can stand in a string: it has double quotes and line breaks only behind backslashes,
and no backslash at the end that has nothing behind it. -/
inductive Guarded (isBreak : Char → Bool) : Text → Prop where
  | nil : Guarded isBreak []
  | plain {c : Char} {t : Text} : c ≠ '"' → c ≠ '\\' → isBreak c = false → Guarded isBreak t →
      Guarded isBreak (c :: t)
  | escaped {c : Char} {t : Text} : Guarded isBreak t → Guarded isBreak ('\\' :: c :: t)

variable {isBreak : Char → Bool} {t rest source : Text}

theorem Guarded.read? (h : Guarded isBreak t) (rest : Text) :
    Quoted.read? isBreak (t ++ '"' :: rest) = some (t, rest) := by
  induction h with
  | nil => rfl
  | plain hquote hslash hbreak _ ih =>
      rw [List.cons_append, Quoted.read?, if_neg (by simp [hbreak]), ih]
      · rfl
      · exact hquote
      · exact fun _ _ h _ => hslash h
  | escaped _ ih =>
      rw [List.cons_append, List.cons_append, Quoted.read?, ih]
      rfl

/-- Whatever is read is guarded and stands in front of the quote that ends the string. -/
theorem guarded_of_read? (h : read? isBreak source = some (t, rest)) :
    Guarded isBreak t ∧ source = t ++ '"' :: rest := by
  fun_induction read? isBreak source generalizing t with
  | case1 => cases h
  | case2 behind =>
      cases h
      exact ⟨.nil, rfl⟩
  | case3 c behind ih =>
      obtain ⟨⟨u, v⟩, hread, heq⟩ := Option.map_eq_some_iff.1 h
      cases heq
      obtain ⟨hguarded, rfl⟩ := ih hread
      exact ⟨.escaped hguarded, rfl⟩
  | case4 => cases h
  | case5 c behind hquote hslash hbreak ih =>
      obtain ⟨⟨u, v⟩, hread, heq⟩ := Option.map_eq_some_iff.1 h
      cases heq
      obtain ⟨hguarded, rfl⟩ := ih hread
      refine ⟨.plain hquote ?_ (by simpa using hbreak) hguarded, rfl⟩
      -- a backslash would have taken the next character with it, and there is one
      rintro rfl
      cases u with
      | nil => exact hslash _ _ rfl rfl
      | cons d u => exact hslash _ _ rfl rfl

/-- A text between double quotes is read as it was written exactly if it is guarded. -/
theorem read?_eq_some_iff : read? isBreak (t ++ '"' :: rest) = some (t, rest) ↔ Guarded isBreak t :=
  ⟨fun h => (guarded_of_read? h).1, fun h => h.read? rest⟩

/-! ### Strings in scripts -/

/-- The text stands for another one in a string of a script. An escaped double quote stands for a
double quote. Any other escape, of which there are many kinds, has no double quote in it and
stands for one character at most. -/
inductive Spells : Text → Text → Prop where
  | nil : Spells [] []
  | char {c : Char} {w v : Text} : c ≠ '"' → c ≠ '\\' → Spells w v → Spells (c :: w) (c :: v)
  | quote {w v : Text} : Spells w v → Spells ('\\' :: '"' :: w) ('"' :: v)
  | escape {e o w v : Text} : e ≠ [] → '"' ∉ e → o.length ≤ 1 → Spells w v →
      Spells ('\\' :: (e ++ w)) (o ++ v)

/-- Escapes make a text longer than what it stands for, by one character only if they are all of
double quotes. -/
theorem Spells.length_le {w v : Text} (h : Spells w v) : v.length + w.count '"' ≤ w.length ∧
    (v.length + w.count '"' = w.length → '\\' ∉ v) := by
  induction h with
  | nil => simp
  | char hquote hslash _ ih =>
      obtain ⟨hle, hfree⟩ := ih
      simp only [List.length_cons, List.count_cons_of_ne hquote, List.mem_cons, not_or]
      exact ⟨by omega, fun h => ⟨Ne.symm hslash, hfree (by omega)⟩⟩
  | quote _ ih =>
      obtain ⟨hle, hfree⟩ := ih
      simp only [List.length_cons, List.count_cons_self, List.mem_cons, not_or,
        List.count_cons_of_ne (show '\\' ≠ '"' by decide)]
      exact ⟨by omega, fun h => ⟨by decide, hfree (by omega)⟩⟩
  | escape hsome hquote hlength _ ih =>
      obtain ⟨hle, -⟩ := ih
      have hpos := List.length_pos_iff.2 hsome
      simp only [List.length_cons, List.length_append, List.count_append,
        List.count_cons_of_ne (show '\\' ≠ '"' by decide), List.count_eq_zero.2 hquote]
      exact ⟨by omega, fun h => by omega⟩

open Document

theorem scriptQuoted_quote (t : Text) : scriptQuoted ('"' :: t) = '\\' :: '"' :: scriptQuoted t :=
  rfl

theorem scriptQuoted_cons {c : Char} (hc : c ≠ '"') (t : Text) :
    scriptQuoted (c :: t) = c :: scriptQuoted t := by
  rw [scriptQuoted, List.flatMap_cons]
  split
  · exact absurd rfl hc
  · rfl

/-- Every double quote of the text gets one character longer. -/
theorem length_scriptQuoted (t : Text) :
    (scriptQuoted t).count '"' = t.count '"' ∧
      (scriptQuoted t).length = t.length + (scriptQuoted t).count '"' := by
  induction t with
  | nil => exact ⟨rfl, rfl⟩
  | cons c t ih =>
      obtain ⟨hcount, hlength⟩ := ih
      by_cases hc : c = '"'
      · subst hc
        rw [scriptQuoted_quote, List.count_cons_of_ne (by decide), List.count_cons_self,
          List.count_cons_self]
        simp only [List.length_cons]
        omega
      · rw [scriptQuoted_cons hc, List.count_cons_of_ne hc, List.count_cons_of_ne hc]
        simp only [List.length_cons]
        omega

/-- Without backslashes a text is read back from a string of a script, and nothing else is. -/
theorem spells_scriptQuoted_iff_eq {t v : Text} (ht : '\\' ∉ t) :
    Spells (scriptQuoted t) v ↔ v = t := by
  induction t generalizing v with
  | nil =>
      constructor
      · rintro ⟨⟩
        rfl
      · rintro rfl
        exact .nil
  | cons c t ih =>
      rw [List.mem_cons, not_or] at ht
      obtain ⟨hslash, hfree⟩ := ht
      by_cases hc : c = '"'
      · subst hc
        rw [scriptQuoted_quote]
        constructor
        · generalize hw : '"' :: scriptQuoted t = w
          rintro (_ | ⟨-, hne, -⟩ | hrest | ⟨hsome, hquote, -, -⟩)
          · exact absurd rfl hne
          · cases hw
            rw [(ih hfree).1 hrest]
          · -- the escape would start with the double quote
            obtain ⟨d, e, rfl⟩ := List.exists_cons_of_ne_nil hsome
            rw [List.cons_append, List.cons.injEq] at hw
            exact absurd (hw.1 ▸ List.mem_cons_self) hquote
        · rintro rfl
          exact .quote ((ih hfree).2 rfl)
      · rw [scriptQuoted_cons hc]
        constructor
        · generalize hw : scriptQuoted t = w
          rintro (_ | ⟨-, -, hrest⟩ | _ | _)
          · subst hw
            rw [(ih hfree).1 hrest]
          · exact absurd rfl hslash
          · exact absurd rfl hslash
        · rintro rfl
          exact .char hc (Ne.symm hslash) ((ih hfree).2 rfl)

/-- A text is read back from a string of a script exactly if it has no backslashes. -/
theorem spells_scriptQuoted_iff {t : Text} : Spells (scriptQuoted t) t ↔ '\\' ∉ t := by
  constructor
  · intro h
    obtain ⟨hcount, hlength⟩ := length_scriptQuoted t
    exact h.length_le.2 hlength.symm
  · exact fun h => (spells_scriptQuoted_iff_eq h).2 rfl

theorem guarded_scriptQuoted {isBreak : Char → Bool} {t : Text} (hslash : '\\' ∉ t)
    (hbreak : ∀ c ∈ t, isBreak c = false) : Guarded isBreak (scriptQuoted t) := by
  induction t with
  | nil => exact .nil
  | cons c t ih =>
      rw [List.mem_cons, not_or] at hslash
      obtain ⟨hc, ht⟩ := List.forall_mem_cons.1 hbreak
      by_cases hquote : c = '"'
      · subst hquote
        exact .escaped (ih hslash.2 ht)
      · rw [scriptQuoted_cons hquote]
        exact .plain hquote (Ne.symm hslash.1) hc (ih hslash.2 ht)

end Quoted

/-! ### Places on a page -/

namespace Document

variable (d : Document) (r : Rendering)

theorem infix_unlines {l : Text} {ls : List Text} (h : l ∈ ls) : l ++ ['\n'] <:+: unlines ls := by
  obtain ⟨front, back, rfl⟩ := List.append_of_mem h
  exact ⟨unlines front, unlines back, by simp [unlines]⟩

theorem infix_pageHead : pageHead d.metadata r.css <:+: d.page r :=
  List.infix_append_left.trans List.infix_append_left

theorem infix_pageBody : pageBody d.metadata r.html <:+: d.page r :=
  List.infix_append_right.trans List.infix_append_left

/-- The title stands on the page with its markup escaped. -/
theorem page_title : "<title>".toList ++ Text.escapeMarkup (d.metadata.title.getD "Untitled".toList)
    ++ "</title>".toList <:+: d.page r := by
  refine List.IsInfix.trans ?_ (infix_pageHead d r)
  have hline : ("  <title>".toList ++ Text.escapeMarkup (d.metadata.title.getD "Untitled".toList)
      ++ "</title>".toList) ++ ['\n'] <:+: pageHead d.metadata r.css :=
    (infix_unlines (by simp)).trans
      (List.infix_append_left.trans (List.infix_append_left.trans List.infix_append_left))
  exact List.IsInfix.trans ⟨"  ".toList, ['\n'], rfl⟩ hline

/-- The icon stands on the page as it was given. -/
theorem page_icon {icon : Text} (h : d.metadata.favicon = some icon) :
    "<link rel=\"icon\" href=\"".toList ++ icon ++ "\">".toList <:+: d.page r := by
  refine List.IsInfix.trans ?_ (infix_pageHead d r)
  rw [pageHead, h]
  have hline : ("  <link rel=\"icon\" href=\"".toList ++ icon ++ "\">".toList) ++ ['\n']
      <:+: unlines ["  <link rel=\"icon\" href=\"".toList ++ icon ++ "\">".toList] :=
    infix_unlines (by simp)
  refine List.IsInfix.trans ?_ (hline.trans (List.infix_append_right.trans
    (List.infix_append_left.trans List.infix_append_left)))
  exact ⟨"  ".toList, ['\n'], rfl⟩

/-- The font stands in the style sheet of the page as it was given. -/
theorem page_font {font : Text} (h : d.metadata.font = some font) :
    "font-family: \"".toList ++ font ++ "\", sans-serif;".toList <:+: d.page r := by
  refine List.IsInfix.trans ?_ (infix_pageHead d r)
  have hline : ("  font-family: \"".toList ++ font ++ "\", sans-serif;".toList) ++ ['\n']
      <:+: pageCss d.metadata r.css := by
    rw [pageCss, h]
    exact (infix_unlines (by simp)).trans List.infix_append_right
  have hstyle : pageCss d.metadata r.css ≠ [] := by
    rintro hnil
    rw [hnil] at hline
    exact absurd (List.eq_nil_of_infix_nil hline) (by simp)
  rw [pageHead]
  dsimp only
  rw [if_neg hstyle]
  refine List.IsInfix.trans ?_ (hline.trans (List.infix_append_right.trans
    (List.infix_append_left.trans (List.infix_append_right.trans List.infix_append_left))))
  exact ⟨"  ".toList, ['\n'], rfl⟩

/-- The initial place stands in the script of the page with its double quotes escaped. -/
theorem page_hash {hash : Text} (h : d.metadata.initialHash = some hash) :
    "location.hash = \"".toList ++ scriptQuoted hash ++ "\";</script>".toList <:+: d.page r := by
  refine List.IsInfix.trans ?_ (infix_pageBody d r)
  rw [pageBody, h]
  have hline : ("<script>if (!location.hash) location.hash = \"".toList ++ scriptQuoted hash
      ++ "\";</script>".toList) ++ ['\n'] <:+: unlines
        ["<script>if (!location.hash) location.hash = \"".toList ++ scriptQuoted hash
          ++ "\";</script>".toList] := infix_unlines (by simp)
  refine List.IsInfix.trans ?_ (hline.trans
    (List.infix_append_right.trans List.infix_append_left))
  exact ⟨"<script>if (!location.hash) ".toList, ['\n'], rfl⟩

end Document

/-! ### Values that stay where they are put -/

open Document

namespace Quoted

/-- A line of a style sheet ends in front of the character. -/
def breaksStyle (c : Char) : Bool := c = '\n' || c = '\r' || c = '\x0c'

/-- A line of a script that holds a string ends in front of the character. -/
def breaksScript (c : Char) : Bool := c = '\n' || c = '\r'

/-- A text on one line is read back from a string of a script, with the string ending at the quote
behind it, exactly if it has no backslashes. -/
theorem read?_spells_iff {t : Text} (hline : OneLine t) (rest : Text) :
    (read? breaksScript (scriptQuoted t ++ '"' :: rest) = some (scriptQuoted t, rest) ∧
      Spells (scriptQuoted t) t) ↔ '\\' ∉ t := by
  rw [read?_eq_some_iff, spells_scriptQuoted_iff]
  refine ⟨fun h => h.2, fun h => ⟨guarded_scriptQuoted h fun c hc => ?_, h⟩⟩
  simp only [breaksScript, Bool.or_eq_false_iff, decide_eq_false_iff_not]
  exact ⟨fun heq => hline.1 (heq ▸ hc), fun heq => hline.2 (heq ▸ hc)⟩

theorem takeWhile_quote_iff {t rest : Text} :
    (t ++ '"' :: rest).takeWhile (· ≠ '"') = t ↔ '"' ∉ t := by
  constructor
  · intro h hmem
    rw [← h] at hmem
    simpa using List.all_eq_true.1 List.all_takeWhile _ hmem
  · intro h
    have hplain : ∀ c ∈ t, decide (c ≠ '"') = true := by
      intro c hc
      simpa using fun heq : c = '"' => h (heq ▸ hc)
    rw [List.takeWhile_append_of_pos hplain]
    simp

end Quoted

open Quoted

/-- On the page of a document whose values are those of directives, the title has no markup and
decodes to the value. The icon ends at the quote that is written behind it exactly if it has no
double quotes. The font does exactly if it is guarded. The initial place does and is read back
exactly if it has no backslashes, and then as nothing else. The values of every compiled document
are such values. -/
theorem page_keeps_values (d : Document) (r : Rendering) :
    ((∀ t ∈ d.metadata.texts, Solid t) →
      (∃ front back title : Text,
        d.page r = front ++ "<title>".toList ++ title ++ "</title>".toList ++ back ∧
        '<' ∉ title ∧
        Text.replace "&amp;".toList ['&'] (Text.replace "&gt;".toList ['>']
          (Text.replace "&lt;".toList ['<'] title)) = d.metadata.title.getD "Untitled".toList) ∧
      (∀ icon ∈ d.metadata.favicon, ∃ front back : Text,
        d.page r = front ++ "<link rel=\"icon\" href=\"".toList ++ (icon ++ '"' :: back) ∧
        ((icon ++ '"' :: back).takeWhile (· ≠ '"') = icon ↔ '"' ∉ icon)) ∧
      (∀ font ∈ d.metadata.font, ∃ front back : Text,
        d.page r = front ++ "font-family: \"".toList ++ (font ++ '"' :: back) ∧
        (read? breaksStyle (font ++ '"' :: back) = some (font, back) ↔
          Guarded breaksStyle font)) ∧
      ∀ hash ∈ d.metadata.initialHash, ∃ front back : Text,
        d.page r
          = front ++ "location.hash = \"".toList ++ (scriptQuoted hash ++ '"' :: back) ∧
        ((read? breaksScript (scriptQuoted hash ++ '"' :: back) = some (scriptQuoted hash, back) ∧
          Spells (scriptQuoted hash) hash) ↔ '\\' ∉ hash) ∧
        ('\\' ∉ hash → ∀ v, Spells (scriptQuoted hash) v → v = hash)) ∧
    ∀ (loader : Loader) (depth : Nat),
      ((∃ source, Document.compileText loader depth source = .ok d) ∨
        ∃ path, Document.compileFile loader depth path = .ok d) →
      ∀ t ∈ d.metadata.texts, Solid t := by
  refine ⟨fun hd => ⟨?_, fun icon hicon => ?_, fun font hfont => ?_, fun hash hhash => ?_⟩,
    fun loader depth => metadata_of_compile Metadata.lasting_texts nofun⟩
  · obtain ⟨front, back, h⟩ := page_title d r
    refine ⟨front, back, _, ?_, (Text.notMem_escapeMarkup _).1, Text.replace_escapeMarkup _⟩
    simpa using h.symm
  · obtain ⟨front, back, h⟩ := page_icon d r hicon
    exact ⟨front, '>' :: back, by simpa using h.symm, takeWhile_quote_iff⟩
  · obtain ⟨front, back, h⟩ := page_font d r hfont
    exact ⟨front, ", sans-serif;".toList ++ back, by simpa using h.symm, read?_eq_some_iff⟩
  · obtain ⟨front, back, h⟩ := page_hash d r hhash
    have hline : OneLine hash := (hd hash (by simp [Metadata.texts, hhash.symm])).oneLine
    exact ⟨front, ";</script>".toList ++ back, by simpa using h.symm,
      read?_spells_iff hline _, fun hfree v => (spells_scriptQuoted_iff_eq hfree).1⟩

/-- A document without classes is rendered. -/
theorem Document.render_of_no_classes {d : Document} (h : d.metadata.customClasses.entries = []) :
    d.render = .ok ⟨d.html, []⟩ := by
  rw [Document.render, Document.css, Stylesheet.ofClasses, h]
  rfl

/-- Values that need their delimiters, and have what is guarded. -/
def guardedSource : Text :=
  ":title a<b\n:favicon i.png\n:font \\\"Fira\\\"\n:initialhash x\"y".toList

theorem page_keeps_values_guardedSource :
    ∃ (d : Document) (r : Rendering),
      Document.compileText Library.empty.loader 0 guardedSource = .ok d ∧ d.render = .ok r ∧
      (∀ t ∈ d.metadata.texts, Solid t) ∧
      (∃ front back : Text,
        d.page r = front ++ "font-family: \"".toList ++ ("\\\"Fira\\\"".toList ++ '"' :: back) ∧
        read? breaksStyle ("\\\"Fira\\\"".toList ++ '"' :: back)
          = some ("\\\"Fira\\\"".toList, back)) ∧
      ∃ front back : Text,
        d.page r = front ++ "location.hash = \"".toList ++ ("x\\\"y".toList ++ '"' :: back) ∧
        read? breaksScript ("x\\\"y".toList ++ '"' :: back) = some ("x\\\"y".toList, back) ∧
        ∀ v, Spells "x\\\"y".toList v → v = "x\"y".toList := by
  obtain ⟨d, hd, hclasses, hfont, hhash⟩ : ∃ d,
      Document.compileText Library.empty.loader 0 guardedSource = .ok d ∧
      d.metadata.customClasses.entries = [] ∧
      d.metadata.font = some "\\\"Fira\\\"".toList ∧
      d.metadata.initialHash = some "x\"y".toList := by
    decide +kernel
  obtain ⟨hkeeps, haccepted⟩ := page_keeps_values d ⟨d.html, []⟩
  have hvalues := haccepted _ _ (.inl ⟨_, hd⟩)
  obtain ⟨-, -, hfonts, hhashes⟩ := hkeeps hvalues
  refine ⟨d, _, hd, Document.render_of_no_classes hclasses, hvalues, ?_, ?_⟩
  · obtain ⟨front, back, hpage, hread⟩ := hfonts _ hfont
    exact ⟨front, back, hpage, hread.2 (.escaped (.plain (by decide) (by decide) rfl
      (.plain (by decide) (by decide) rfl (.plain (by decide) (by decide) rfl
        (.plain (by decide) (by decide) rfl (.escaped .nil))))))⟩
  · obtain ⟨front, back, hpage, hread, hback⟩ := hhashes _ hhash
    exact ⟨front, back, hpage, (hread.2 (by decide)).1, hback (by decide)⟩

/-- Values that end too early, or not at all. -/
def leakingSource : Text := ":favicon a\"b\n:font c\\\n:initialhash d\\".toList

theorem page_leaks_leakingSource :
    ∃ (d : Document) (r : Rendering),
      Document.compileText Library.empty.loader 0 leakingSource = .ok d ∧ d.render = .ok r ∧
      (∃ front back : Text,
        d.page r = front ++ "<link rel=\"icon\" href=\"".toList ++ ("a\"b".toList ++ '"' :: back) ∧
        ("a\"b".toList ++ '"' :: back).takeWhile (· ≠ '"') = ['a']) ∧
      (∃ front back : Text,
        d.page r = front ++ "font-family: \"".toList ++ ("c\\".toList ++ '"' :: back) ∧
        read? breaksStyle ("c\\".toList ++ '"' :: back) ≠ some ("c\\".toList, back)) ∧
      ∃ front back : Text,
        d.page r = front ++ "location.hash = \"".toList ++ ("d\\".toList ++ '"' :: back) ∧
        read? breaksScript ("d\\".toList ++ '"' :: back) ≠ some ("d\\".toList, back) := by
  obtain ⟨d, hd, hclasses, hicon, hfont, hhash⟩ : ∃ d,
      Document.compileText Library.empty.loader 0 leakingSource = .ok d ∧
      d.metadata.customClasses.entries = [] ∧ d.metadata.favicon = some "a\"b".toList ∧
      d.metadata.font = some "c\\".toList ∧ d.metadata.initialHash = some "d\\".toList := by
    decide +kernel
  -- a backslash at the end takes the quote that the page writes behind it
  have hopen (c : Char) (hc : c ≠ '"' ∧ c ≠ '\\') {isBreak : Char → Bool} :
      ¬ Guarded isBreak [c, '\\'] := by
    rintro (_ | ⟨-, -, -, _ | ⟨-, hslash, -, -⟩⟩ | _)
    · exact hslash rfl
    · exact hc.2 rfl
  refine ⟨d, _, hd, Document.render_of_no_classes hclasses, ?_, ?_, ?_⟩
  · obtain ⟨front, back, h⟩ := page_icon d ⟨d.html, []⟩ hicon
    exact ⟨front, '>' :: back, by simpa using h.symm, rfl⟩
  · obtain ⟨front, back, h⟩ := page_font d ⟨d.html, []⟩ hfont
    refine ⟨front, ", sans-serif;".toList ++ back, by simpa using h.symm, ?_⟩
    exact fun hread => hopen 'c' (by decide) (read?_eq_some_iff.1 hread)
  · obtain ⟨front, back, h⟩ := page_hash d ⟨d.html, []⟩ hhash
    have hsame : scriptQuoted "d\\".toList = "d\\".toList := rfl
    rw [hsame] at h
    refine ⟨front, ";</script>".toList ++ back, by simpa using h.symm, ?_⟩
    exact fun hread => hopen 'd' (by decide) (read?_eq_some_iff.1 hread)

end IndentMarkup
