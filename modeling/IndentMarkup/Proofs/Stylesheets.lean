import IndentMarkup.Document.Html
import IndentMarkup.Proofs.Values

/-!
What can be read from a stylesheet.

A stylesheet opens each rule on a line of its own and closes it on another one, and indents the
declarations in between. No line of declarations can therefore open or close a rule, and no name
of a class can close the line that it stands on, so the classes can be read back from the lines of
the stylesheet, provided that no line feed or carriage return is lost on the way. The custom
classes of a compiled document have such declarations.

* `Stylesheet.ofEntries_eq_ok` — when there is a stylesheet, and which.
* `Stylesheet.count_rules` — as many braces of each kind as there are rules.
* `Stylesheet.read` — the rules that a text spells.
* `Stylesheet.read_rules` — all classes are read back.
* `stylesheet_faithful` — stylesheets are faithful to the classes.
-/

namespace IndentMarkup

/-! ### Lines that end -/

namespace Text

/-- The lines of lines that are all ended, with any text behind them. -/
theorem splitLines_ended {ls : List Text} (h : ∀ l ∈ ls, '\n' ∉ l) (t : Text) :
    splitLines (ls.flatMap (· ++ ['\n']) ++ t) = ls ++ splitLines t := by
  induction ls with
  | nil => rfl
  | cons l ls ih =>
      obtain ⟨hl, hls⟩ := List.forall_mem_cons.1 h
      have hsplit : (l :: ls).flatMap (· ++ ['\n']) ++ t
          = l ++ '\n' :: (ls.flatMap (· ++ ['\n']) ++ t) := by simp
      rw [hsplit, splitLines_append, splitLines_of_notMem hl, ih hls]
      rfl

end Text

namespace Stylesheet

/-! ### Classes with a rule -/

/-- The name is a class name in CSS without escapes: ASCII letters, digits, hyphens and underscores,
and no digit at the start. -/
def ClassName (name : Text) : Prop :=
  (∀ c ∈ name, c.isAlphanum = true ∨ c = '-' ∨ c = '_') ∧ ∀ c ∈ name.head?, c.isDigit = false

theorem isClassName_iff {name : Text} : isClassName name = true ↔ ClassName name := by
  have hletter (c : Char) : isAlphanumeric c = c.isAlphanum := by
    have hupper : c.isUpper = (decide ('A' ≤ c) && decide (c ≤ 'Z')) := Bool.decide_and _ _
    have hlower : c.isLower = (decide ('a' ≤ c) && decide (c ≤ 'z')) := rfl
    change _ = ((c.isUpper || c.isLower) || (decide ('0' ≤ c) && decide (c ≤ '9')))
    rw [hupper, hlower, isAlphanumeric, Bool.or_comm (decide ('A' ≤ c) && decide (c ≤ 'Z'))]
  have hdigit (c : Char) : (decide ('0' ≤ c) && decide (c ≤ '9')) = c.isDigit := rfl
  simp only [isClassName, ClassName, hletter, hdigit, Bool.and_eq_true, List.all_eq_true,
    Bool.or_eq_true, decide_eq_true_eq, or_assoc, Bool.not_eq_true', Option.any_eq_false,
    Option.mem_def]

theorem ClassName.notMem {name : Text} (h : ClassName name) {c : Char}
    (hc : c.isAlphanum = false ∧ c ≠ '-' ∧ c ≠ '_') : c ∉ name := by
  intro hmem
  rcases h.1 c hmem with hletter | rfl | rfl
  · rw [hc.1] at hletter
    cases hletter
  · exact hc.2.1 rfl
  · exact hc.2.2 rfl

theorem any_isBrace_eq_false_iff {t : Text} :
    t.any isBrace = false ↔ '\x7b' ∉ t ∧ '\x7d' ∉ t := by
  simp only [List.any_eq_false, isBrace, Bool.or_eq_true, decide_eq_true_eq, not_or]
  exact ⟨fun h => ⟨fun hmem => (h _ hmem).1 rfl, fun hmem => (h _ hmem).2 rfl⟩,
    fun h c hc => ⟨fun heq => h.1 (heq ▸ hc), fun heq => h.2 (heq ▸ hc)⟩⟩

/-- There is a stylesheet if every class has a rule, and it is these rules. -/
theorem ofEntries_eq_ok {es : List (Text × Text)} {css : Text} :
    ofEntries es = .ok css ↔
      (∀ e ∈ es, ClassName e.1 ∧ '\x7b' ∉ e.2 ∧ '\x7d' ∉ e.2) ∧
        css = es.flatMap fun e => rule e.1 e.2 := by
  induction es generalizing css with
  | nil => simp [ofEntries, eq_comm]
  | cons e es ih =>
      obtain ⟨name, declarations⟩ := e
      rw [List.forall_mem_cons, ofEntries, ← isClassName_iff, ← any_isBrace_eq_false_iff]
      cases hname : isClassName name with
      | false => simp
      | true =>
          cases hbrace : declarations.any isBrace with
          | true => simp
          | false =>
              cases hes : ofEntries es with
              | error e =>
                  refine iff_of_false nofun ?_
                  rintro ⟨⟨-, hall⟩, -⟩
                  have hrules := ih.2 ⟨hall, rfl⟩
                  rw [hes] at hrules
                  cases hrules
              | ok rules =>
                  obtain ⟨hall, rfl⟩ := ih.1 hes
                  rw [List.flatMap_cons]
                  exact ⟨fun h => ⟨⟨⟨rfl, rfl⟩, hall⟩, (Except.ok.inj h).symm⟩, fun h => h.2 ▸ rfl⟩

/-! ### Lines of a rule -/

/-- The line that opens the rule of a class. -/
def opening (name : Text) : Text := '.' :: name ++ " \x7b".toList

/-- The line that closes a rule. -/
def closing : Text := ['\x7d']

/-- The lines of the rule of a class. -/
def ruleLines (name : Text) (declarations : List Text) : List Text :=
  opening name :: (declarations.map ("  ".toList ++ ·) ++ [closing])

theorem rule_eq (name declarations : Text) :
    rule name declarations
      = (ruleLines name (linesOf declarations)).flatMap (· ++ ['\n']) := by
  simp [rule, ruleLines, opening, closing, List.flatMap_map, List.append_assoc]

/-- A line of declarations is cut out of them. -/
theorem subset_of_mem_linesOf {line declarations : Text} (h : line ∈ linesOf declarations) :
    '\n' ∉ line ∧ line ⊆ declarations := by
  have hlines : ∃ whole ∈ Text.splitLines declarations, line ⊆ whole := by
    unfold linesOf at h
    extract_lets all dropReturn at h
    rcases List.mem_append.1 h with h | h
    · obtain ⟨whole, hwhole, rfl⟩ := List.mem_map.1 h
      refine ⟨whole, List.dropLast_subset _ hwhole, ?_⟩
      dsimp only [dropReturn]
      split
      · exact List.dropLast_subset _
      · exact List.Subset.refl _
    · split at h
      · cases h
      · cases h
      · next last _ hlast =>
          obtain rfl := List.mem_singleton.1 h
          exact ⟨line, List.mem_of_getLast? hlast, List.Subset.refl _⟩
  obtain ⟨whole, hwhole, hsubset⟩ := hlines
  exact ⟨fun hmem => Text.notMem_of_mem_splitLines hwhole (hsubset hmem),
    List.Subset.trans hsubset (Text.subset_of_mem_pieces hwhole)⟩

/-- A rule has a brace of each kind, whatever its declarations are if they have none. -/
theorem count_rule {c : Char} (hc : isBrace c = true) {name declarations : Text}
    (hname : ClassName name) (hfree : c ∉ declarations) :
    (rule name declarations).count c = 1 := by
  replace hc : c = '\x7b' ∨ c = '\x7d' := by simpa [isBrace] using hc
  have hbody : ((linesOf declarations).flatMap
      fun line => "  ".toList ++ line ++ ['\n']).count c = 0 := by
    rw [List.count_eq_zero, List.mem_flatMap]
    rintro ⟨line, hline, hmem⟩
    have hnot : c ∉ line := fun h => hfree ((subset_of_mem_linesOf hline).2 h)
    have hwritten : c ∉ "  ".toList ++ ['\n'] := by rcases hc with rfl | rfl <;> decide
    simp only [List.mem_append, not_or] at hmem hwritten
    tauto
  have hzero : name.count c = 0 :=
    List.count_eq_zero.2 (hname.notMem (by rcases hc with rfl | rfl <;> decide))
  rw [rule, List.count_append, List.count_append, List.count_append, hbody, List.count_cons, hzero]
  rcases hc with rfl | rfl <;> decide

theorem count_rules {c : Char} (hc : isBrace c = true) {es : List (Text × Text)}
    (h : ∀ e ∈ es, ClassName e.1 ∧ c ∉ e.2) :
    (es.flatMap fun e => rule e.1 e.2).count c = es.length := by
  induction es with
  | nil => rfl
  | cons e es ih =>
      obtain ⟨he, hes⟩ := List.forall_mem_cons.1 h
      rw [List.flatMap_cons, List.count_append, count_rule hc he.1 he.2, ih hes, List.length_cons,
        Nat.add_comm]

/-! ### Reading rules -/

/-- The name in a line that opens a rule. -/
def opened? (line : Text) : Option Text :=
  let name := (line.drop 1).dropLast.dropLast
  if line = opening name then some name else none

/-- The rules that lines spell behind those of `current`, the rule that is open: its name and its
lines so far. -/
def readFrom : Option (Text × List Text) → List Text → List (Text × Text)
  | _, [] => []
  | current, line :: ls =>
      match opened? line with
      | some name => readFrom (some (name, [])) ls
      | none =>
          if line = closing then
            (current.map fun r => (r.1, Text.join ['\n'] r.2)).toList ++ readFrom none ls
          else readFrom (current.map fun r => (r.1, r.2 ++ [line.drop 2])) ls

/-- The rules that a text spells. A line that opens a rule and a line that closes one do so
wherever they stand, and any other line belongs to the rule that is open and is indented. -/
def read (css : Text) : List (Text × Text) := readFrom none (Text.splitLines css)

theorem opened?_opening (name : Text) : opened? (opening name) = some name := by
  have hname : ((opening name).drop 1).dropLast.dropLast = name := by
    have hends : (opening name).drop 1 = (name ++ [' ']) ++ ['\x7b'] := by simp [opening]
    rw [hends, List.dropLast_concat, List.dropLast_concat]
  rw [opened?, hname, if_pos rfl]

theorem opened?_indented (line : Text) : opened? ("  ".toList ++ line) = none := by
  rw [opened?, if_neg]
  exact fun h => absurd (congrArg List.head? h) (by simp [opening])

/-- Lines that are indented stay in the rule that is open. -/
theorem readFrom_indented (name : Text) (before ls rest : List Text) :
    readFrom (some (name, before)) (ls.map ("  ".toList ++ ·) ++ rest)
      = readFrom (some (name, before ++ ls)) rest := by
  induction ls generalizing before with
  | nil => simp
  | cons l ls ih =>
      have hclosing : "  ".toList ++ l ≠ closing :=
        fun h => absurd (congrArg List.head? h) (by simp [closing])
      have hline : ("  ".toList ++ l).drop 2 = l := rfl
      rw [List.map_cons, List.cons_append, readFrom, opened?_indented]
      dsimp only
      rw [if_neg hclosing, Option.map_some, hline, ih, List.append_assoc, List.singleton_append]

theorem readFrom_ruleLines (name : Text) (ls rest : List Text) :
    readFrom none (ruleLines name ls ++ rest)
      = (name, Text.join ['\n'] ls) :: readFrom none rest := by
  have hclosing : opened? closing = none := by decide
  rw [ruleLines, List.cons_append, readFrom, opened?_opening]
  dsimp only
  rw [List.append_assoc, readFrom_indented, List.singleton_append, readFrom, hclosing]
  simp

theorem readFrom_rules (es : List (Text × List Text)) :
    readFrom none (es.flatMap (fun e => ruleLines e.1 e.2) ++ [[]])
      = es.map fun e => (e.1, Text.join ['\n'] e.2) := by
  induction es with
  | nil => rfl
  | cons e es ih =>
      rw [List.flatMap_cons, List.append_assoc, readFrom_ruleLines, ih, List.map_cons]

theorem notMem_ruleLines {name : Text} (hname : '\n' ∉ name) {declarations l : Text}
    (hl : l ∈ ruleLines name (linesOf declarations)) : '\n' ∉ l := by
  simp only [ruleLines, List.mem_cons, List.mem_append, List.mem_map, List.not_mem_nil,
    or_false] at hl
  rcases hl with rfl | ⟨line, hline, rfl⟩ | rfl
  · simp [opening, hname]
  · simp [(subset_of_mem_linesOf hline).1]
  · decide

/-- All rules are read back, with the lines of their declarations. -/
theorem read_rules {es : List (Text × Text)} (h : ∀ e ∈ es, '\n' ∉ e.1) :
    read (es.flatMap fun e => rule e.1 e.2)
      = es.map fun e => (e.1, Text.join ['\n'] (linesOf e.2)) := by
  have hrules : (es.flatMap fun e => rule e.1 e.2)
      = (es.flatMap fun e => ruleLines e.1 (linesOf e.2)).flatMap (· ++ ['\n']) := by
    simp only [rule_eq, List.flatMap_assoc]
  have hended : ∀ l ∈ es.flatMap fun e => ruleLines e.1 (linesOf e.2), '\n' ∉ l := by
    intro l hl
    obtain ⟨e, he, hmem⟩ := List.mem_flatMap.1 hl
    exact notMem_ruleLines (h e he) hmem
  have hsplit := Text.splitLines_ended hended []
  have hread := readFrom_rules (es.map fun e => (e.1, linesOf e.2))
  rw [List.append_nil] at hsplit
  rw [List.flatMap_map, List.map_map] at hread
  rw [read, hrules, hsplit]
  exact hread

/-! ### Declarations -/

/-- The lines that declarations are made of are those that are written in their rule. -/
theorem linesOf_join {ls : List Text} (h : ∀ l ∈ ls, Solid l) :
    linesOf (Text.join ['\n'] ls) = ls := by
  rcases List.eq_nil_or_concat' ls with rfl | ⟨front, last, rfl⟩
  · rfl
  · have hsplit : Text.splitLines (Text.join ['\n'] (front ++ [last])) = front ++ [last] :=
      Text.pieces_join (by simp) fun l hl => (h l hl).oneLine.1
    have hlast : last ≠ [] := (h last (by simp)).nonempty
    have hkept : front.map (fun l => if l.getLast? = some '\r' then l.dropLast else l) = front := by
      refine (List.map_congr_left (g := id) fun l hl => if_neg fun hreturn => ?_).trans
        (List.map_id _)
      exact (h l (List.mem_append_left _ hl)).oneLine.2 (List.mem_of_getLast? hreturn)
    rw [linesOf, hsplit]
    simp [hkept]

theorem join_linesOf {t : Text} (h : Declarations t) : Text.join ['\n'] (linesOf t) = t := by
  obtain ⟨ls, hls, rfl⟩ := h
  rw [linesOf_join hls]

end Stylesheet

/-! ### The stylesheet of a document -/

open Stylesheet

/-- A document has a stylesheet exactly if the names of its classes are class names and their
declarations have no braces. It has as many braces of each kind as there are classes. From that of
a document whose declarations are made of lines, as those of compiled documents are, the classes
can be read back in the order of their names, so different classes have different stylesheets. -/
theorem stylesheet_faithful (d : Document) :
    ((∃ css, d.css = .ok css) ↔
      ∀ e ∈ d.metadata.customClasses.entries, ClassName e.1 ∧ '\x7b' ∉ e.2 ∧ '\x7d' ∉ e.2) ∧
    (∀ css, d.css = .ok css →
      css.count '\x7b' = d.metadata.customClasses.entries.length ∧
      css.count '\x7d' = d.metadata.customClasses.entries.length) ∧
    (∀ css, d.css = .ok css → d.metadata.Declared →
      (Stylesheet.read css = d.metadata.customClasses.entries ∧
        (Stylesheet.read css).Pairwise fun a b => a.1 < b.1) ∧
      ∀ d' : Document, d'.metadata.Declared → d'.css = .ok css →
        d'.metadata.customClasses = d.metadata.customClasses) ∧
    ∀ (loader : Loader) (depth : Nat),
      ((∃ source, Document.compileText loader depth source = .ok d) ∨
        ∃ path, Document.compileFile loader depth path = .ok d) → d.metadata.Declared := by
  have hread (d : Document) {css : Text} (hd : d.metadata.Declared) (hcss : d.css = .ok css) :
      Stylesheet.read css = d.metadata.customClasses.entries := by
    obtain ⟨hall, rfl⟩ := ofEntries_eq_ok.1 hcss
    rw [read_rules fun e he => (hall e he).1.notMem (by decide)]
    refine (List.map_congr_left (g := id) fun e he => ?_).trans (List.map_id _)
    rw [join_linesOf (hd e he)]
    rfl
  refine ⟨⟨?_, fun h => ⟨_, ofEntries_eq_ok.2 ⟨h, rfl⟩⟩⟩, fun css hcss => ?_,
    fun css hcss hd => ⟨⟨hread d hd hcss, ?_⟩, fun d' hd' hcss' => ?_⟩,
    fun loader depth => metadata_of_compile Metadata.lasting_declared nofun⟩
  · rintro ⟨css, hcss⟩
    exact (ofEntries_eq_ok.1 hcss).1
  · obtain ⟨hall, rfl⟩ := ofEntries_eq_ok.1 hcss
    exact ⟨count_rules (c := '\x7b') rfl fun e he => ⟨(hall e he).1, (hall e he).2.1⟩,
      count_rules (c := '\x7d') rfl fun e he => ⟨(hall e he).1, (hall e he).2.2⟩⟩
  · rw [hread d hd hcss]
    exact d.metadata.customClasses.ascending
  · exact Table.ext_entries ((hread d' hd' hcss').symm.trans (hread d hd hcss))

/-- Two classes, one of them without declarations. -/
def classSource : Text := "$warn\n\tcolor: red;\n\n\t\tmargin: 0;\n$note\n# s".toList

theorem stylesheet_faithful_classSource :
    ∃ (d : Document) (css : Text), Document.compileText Library.empty.loader 0 classSource = .ok d ∧
      d.metadata.Declared ∧ d.css = .ok css ∧ css.count '\x7b' = 2 ∧
      Stylesheet.read css
        = [("note".toList, []), ("warn".toList, "color: red;\nmargin: 0;".toList)] := by
  obtain ⟨d, hd, hentries⟩ : ∃ d, Document.compileText Library.empty.loader 0 classSource = .ok d ∧
      d.metadata.customClasses.entries
        = [("note".toList, []), ("warn".toList, "color: red;\nmargin: 0;".toList)] := by
    decide +kernel
  obtain ⟨hsome, hcount, hread, hdeclared⟩ := stylesheet_faithful d
  have hall := hdeclared _ _ (.inl ⟨_, hd⟩)
  obtain ⟨css, hcss⟩ := hsome.2 (by
    rw [hentries, ← List.forall_iff_forall_mem]
    simp only [List.Forall, ← isClassName_iff]
    decide)
  refine ⟨d, css, hd, hall, hcss, ?_, ?_⟩
  · rw [(hcount css hcss).1, hentries]
    rfl
  · rw [(hread css hcss hall).1.1, hentries]

end IndentMarkup
