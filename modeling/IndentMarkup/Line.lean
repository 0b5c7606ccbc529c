import IndentMarkup.Text.Blank

/-!
Lines of a document: how they are indented and what they start.

A document is read line by line. Each line is measured against the unit of
indentation in force when the reader reaches it, and its first character after
the indentation says what the line is.

* `Indentation.scan` — measure one line and take its indentation off.
* `LineKind.ofContent` — the classes of lines, one for each leading character.
* `SourceLine.isSilent` — the lines that are passed over between elements.
-/

namespace IndentMarkup

/-! ### Indentation -/

/-- How one level of indentation is written. -/
inductive Indentation where
  /-- One tab per level. -/
  | tabs
  /-- The same number of spaces for every level. -/
  | spaces (width : Nat)
  deriving DecidableEq, Repr, Inhabited

namespace Indentation

/-- A width of zero stands for tabs. -/
def ofWidth (width : Nat) : Indentation :=
  if width = 0 then tabs else spaces width

/-- The number of characters in one level. -/
def unitLength : Indentation → Nat
  | tabs => 1
  | spaces width => width

/-- The character that indents. -/
def unitChar : Indentation → Char
  | tabs => '\t'
  | spaces _ => ' '

end Indentation

/-! ### Kinds of lines -/

/-- What a line is, by the first character after its indentation. -/
inductive LineKind where
  /-- Nothing but blank characters. -/
  | blank
  /-- A number sign: a section starts. -/
  | sectionStart
  /-- An at sign: a tab starts. -/
  | tabStart
  /-- An exclamation mark: another file is included. -/
  | inclusion
  /-- A colon: a value of the prologue. -/
  | directive
  /-- A dollar sign: a custom class with its declarations below. -/
  | customClass
  /-- A greater-than sign: a comment. -/
  | comment
  /-- A comma: vertical space. -/
  | margin
  /-- A full stop: an element with a tag. -/
  | tag
  /-- A tilde: a template is defined, removed or called. -/
  | template
  /-- A backslash: text whose first character is not read as a marker. -/
  | escaped
  /-- Any other character: plain text. -/
  | text
  deriving DecidableEq, Repr, Inhabited

/-- The kind of a line whose indentation has been taken off. -/
def LineKind.ofContent : Text → LineKind
  | [] => .blank
  | '#' :: _ => .sectionStart
  | '@' :: _ => .tabStart
  | '!' :: _ => .inclusion
  | ':' :: _ => .directive
  | '$' :: _ => .customClass
  | '>' :: _ => .comment
  | ',' :: _ => .margin
  | '.' :: _ => .tag
  | '~' :: _ => .template
  | '\\' :: _ => .escaped
  | _ :: _ => .text

/-- The first character of all lines of a kind, if there is one. -/
def LineKind.marker? : LineKind → Option Char
  | sectionStart => some '#'
  | tabStart => some '@'
  | inclusion => some '!'
  | directive => some ':'
  | customClass => some '$'
  | comment => some '>'
  | margin => some ','
  | tag => some '.'
  | template => some '~'
  | escaped => some '\\'
  | blank | text => none

theorem LineKind.head?_of_ofContent {t : Text} {k : LineKind} {c : Char} (h : ofContent t = k)
    (hc : k.marker? = some c) : t.head? = some c := by
  subst h
  unfold ofContent at hc
  split at hc <;> cases hc <;> rfl

/-- The characters that give a line its kind and lose it after a backslash. -/
def markers : List Char := ['.', ',', '>', '@', '#', ':', '$', '!', '~']

/-! ### Measured lines -/

/-- A line of a document, its indentation measured and taken off. -/
structure Line where
  /-- The position among the lines read, from zero. -/
  number : Nat
  /-- The levels of indentation. -/
  depth : Nat
  /-- The characters of indentation. -/
  width : Nat
  /-- The line without its indentation and without blank characters at its end. -/
  content : Text
  deriving DecidableEq, Repr

namespace Line

/-- What the line is. -/
def kind (l : Line) : LineKind := .ofContent l.content

/-- The character that a line at the margin starts with gives its kind. -/
theorem kind_of_head {c : Char} (hblank : Text.isBlank c = false) {k : LineKind}
    (h : ∀ t, LineKind.ofContent (c :: t) = k) (n : Nat) (t : Text) :
    kind ⟨n, 0, 0, Text.trimEnd (c :: t)⟩ = k := by
  obtain ⟨u, hu⟩ := Text.trimEnd_cons_of_not_isBlank hblank t
  rw [kind, hu, h]

/-- The content up to its first space. -/
def token (l : Line) : Text := l.content.takeWhile (· ≠ ' ')

/-- The content from its first space on. -/
def afterToken (l : Line) : Text := l.content.dropWhile (· ≠ ' ')

end Line

/-- What can be wrong with the indentation of a line. -/
inductive IndentFault where
  /-- A space where tabs indent. -/
  | spaceAmongTabs
  /-- A tab where `unit` spaces indent. -/
  | tabAmongSpaces (unit : Nat)
  /-- The last level is not complete. -/
  | partialLevel (width unit : Nat)
  deriving DecidableEq, Repr

/-- What the reader of a document is told about the fault. -/
def IndentFault.message : IndentFault → Text
  | .spaceAmongTabs => "Invalid indentation (expected tab, not space)".toList
  | .tabAmongSpaces unit =>
      "Invalid indentation (expected ".toList ++ Text.ofNat unit
        ++ " spaces per level, not tab)".toList
  | .partialLevel width unit =>
      "Invalid indentation (".toList ++ Text.ofNat width ++ " spaces is not a multiple of ".toList
        ++ Text.ofNat unit ++ ")".toList

/-- A fault in the indentation of a line, at the character that shows it. -/
structure IndentError where
  fault : IndentFault
  line : Nat
  column : Nat
  deriving DecidableEq, Repr

/-- The error with its place, counted from one, when no file is known. -/
def IndentError.report (e : IndentError) : Text :=
  "Lexer error at line ".toList ++ Text.ofNat (e.line + 1) ++ ", column ".toList
    ++ Text.ofNat (e.column + 1) ++ ": ".toList ++ e.fault.message

namespace Indentation

/-- Measure a line and take its indentation off. The unit's characters are
counted; a space or a tab after them is the wrong one of the two, and their
number has to fill whole levels. A line of blank characters has depth zero
whatever they are. -/
def scan (unit : Indentation) (number : Nat) (raw : Text) : Except IndentError Line :=
  let t := raw.trimEnd
  if t = [] then .ok ⟨number, 0, 0, []⟩
  else
    let width := (t.takeWhile (· = unit.unitChar)).length
    let content := t.dropWhile (· = unit.unitChar)
    if content.head? = some ' ' ∨ content.head? = some '\t' then
      match unit with
      | .tabs => .error ⟨.spaceAmongTabs, number, width⟩
      | .spaces n => .error ⟨.tabAmongSpaces n, number, width⟩
    else if width % unit.unitLength ≠ 0 then
      .error ⟨.partialLevel width unit.unitLength, number, width⟩
    else .ok ⟨number, width / unit.unitLength, width, content⟩

theorem isBlank_unitChar (unit : Indentation) : Text.isBlank unit.unitChar = true := by
  cases unit with
  | tabs => decide
  | spaces width => exact (by decide : Text.isBlank ' ' = true)

/-- The line one level deeper. -/
def indent (unit : Indentation) (t : Text) : Text :=
  List.replicate unit.unitLength unit.unitChar ++ t

/-- Taking off the bytes of one level undoes its indentation. -/
theorem dropBytes_indent (unit : Indentation) (t : Text) :
    Text.dropBytes unit.unitLength (unit.indent t) = t := by
  cases unit <;> exact Text.dropBytes_replicate rfl _ t

theorem allBlank_indent (unit : Indentation) (t : Text) :
    Text.allBlank (unit.indent t) = Text.allBlank t := by
  have hunit := isBlank_unitChar unit
  simp [indent, Text.allBlank, hunit]

/-- What a line is measured as, one level deeper and with another number. -/
theorem scan_indent {unit : Indentation} (hunit : unit ≠ .spaces 0) {number : Nat} {raw : Text}
    {l : Line} (hraw : Text.allBlank raw = false) (h : unit.scan number raw = .ok l)
    (number' : Nat) : unit.scan number' (unit.indent raw)
      = .ok ⟨number', l.depth + 1, unit.unitLength + l.width, l.content⟩ := by
  have hpos : 0 < unit.unitLength := by
    cases unit with
    | tabs => exact Nat.one_pos
    | spaces width => exact Nat.pos_of_ne_zero fun h => hunit (h ▸ rfl)
  have hsolid : raw.trimEnd ≠ [] := by
    rw [ne_eq, Text.trimEnd_eq_nil_iff, hraw]
    exact Bool.false_ne_true
  have hindent : (unit.indent raw).trimEnd
      = List.replicate unit.unitLength unit.unitChar ++ raw.trimEnd :=
    Text.trimEnd_append_of_not_allBlank _ hraw
  have hchars : ∀ c ∈ List.replicate unit.unitLength unit.unitChar,
      decide (c = unit.unitChar) = true := by
    intro c hc
    rw [List.eq_of_mem_replicate hc, decide_eq_true rfl]
  unfold scan at h ⊢
  simp only [hindent, List.takeWhile_append_of_pos hchars, List.dropWhile_append_of_pos hchars,
    List.append_eq_nil_iff, hsolid, and_false, if_false, List.length_append,
    List.length_replicate, Nat.add_mod_left, Nat.add_div_left _ hpos] at h ⊢
  split at h
  · cases unit <;> cases h
  · next hhead =>
      rw [if_neg hhead]
      split at h
      · cases h
      · next hwidth =>
          rw [if_neg hwidth]
          cases h
          rfl

/-- What is measured: whole levels of the unit's character, and the content behind them. -/
theorem scan_ok {unit : Indentation} {number : Nat} {raw : Text} {l : Line}
    (h : unit.scan number raw = .ok l) :
    Text.trimEnd raw = List.replicate l.width unit.unitChar ++ l.content ∧
      l.width = unit.unitLength * l.depth ∧ l.content.head? ≠ some ' ' ∧
      l.content.head? ≠ some '\t' := by
  unfold scan at h
  by_cases hblank : Text.trimEnd raw = []
  · rw [if_pos hblank] at h
    cases h
    exact ⟨hblank, rfl, nofun, nofun⟩
  · rw [if_neg hblank] at h
    dsimp only at h
    split at h
    · cases unit <;> cases h
    · next hhead =>
        split at h
        · cases h
        · next hwhole =>
            cases h
            dsimp only
            have hmargin := Text.takeWhile_eq_replicate unit.unitChar (Text.trimEnd raw)
            refine ⟨?_, ?_, fun h => hhead (.inl h), fun h => hhead (.inr h)⟩
            · rw [← hmargin, List.takeWhile_append_dropWhile]
            · exact (Nat.mul_div_cancel' (Nat.dvd_of_mod_eq_zero (Decidable.not_not.1 hwhole))).symm

/-- A line with whole levels of the unit's character in front of its content is measured so. -/
theorem scan_of_trimEnd (unit : Indentation) (hunit : 0 < unit.unitLength) {raw : Text}
    {depth : Nat} {content : Text}
    (hraw : Text.trimEnd raw
      = List.replicate (unit.unitLength * depth) unit.unitChar ++ content)
    (hne : content ≠ []) (hspace : content.head? ≠ some ' ') (htab : content.head? ≠ some '\t')
    (number : Nat) :
    unit.scan number raw = .ok ⟨number, depth, unit.unitLength * depth, content⟩ := by
  have hhead : content.head? ≠ some unit.unitChar := by
    cases unit
    · exact htab
    · exact hspace
  have hchars : ∀ c ∈ List.replicate (unit.unitLength * depth) unit.unitChar,
      decide (c = unit.unitChar) = true := by
    intro c hc
    rw [List.eq_of_mem_replicate hc, decide_eq_true rfl]
  obtain ⟨c, t, rfl⟩ := List.exists_cons_of_ne_nil hne
  have hne_some {d : Char} (h : (c :: t).head? ≠ some d) : c ≠ d := fun heq => h (congrArg some heq)
  unfold scan
  simp [hraw, List.takeWhile_append_of_pos hchars, List.dropWhile_append_of_pos hchars,
    hne_some hhead, hne_some hspace, hne_some htab, Nat.mul_div_cancel_left depth hunit]

theorem scan_renumber {unit : Indentation} {number : Nat} {raw : Text} {l : Line}
    (h : unit.scan number raw = .ok l) (number' : Nat) :
    unit.scan number' raw = .ok { l with number := number' } := by
  unfold scan at h ⊢
  grind

/-- A measured line keeps its number. -/
theorem number_of_scan {unit : Indentation} {number : Nat} {raw : Text} {l : Line}
    (h : unit.scan number raw = .ok l) : l.number = number := by
  unfold scan at h
  grind

/-- A fault is found on the line that is measured. -/
theorem line_of_scan {unit : Indentation} {number : Nat} {raw : Text} {e : IndentError}
    (h : unit.scan number raw = .error e) : e.line = number := by
  unfold scan at h
  grind

/-- A line that starts with a character that is not blank is not indented, whatever the
unit is. -/
theorem scan_of_head {c : Char} (h : Text.isBlank c = false) (unit : Indentation) (number : Nat)
    (t : Text) : unit.scan number (c :: t) = .ok ⟨number, 0, 0, Text.trimEnd (c :: t)⟩ := by
  obtain ⟨u, hu⟩ := Text.trimEnd_cons_of_not_isBlank h t
  have hc : ∀ d, Text.isBlank d = true → c ≠ d := by
    rintro d hd rfl
    simp [h] at hd
  have hunit : c ≠ unit.unitChar := hc _ (isBlank_unitChar unit)
  have hspace : c ≠ ' ' := hc _ (by decide)
  have htab : c ≠ '\t' := hc _ (by decide)
  simp [scan, hu, hunit, hspace, htab]

theorem scan_error_renumber {unit : Indentation} {number : Nat} {raw : Text} {e : IndentError}
    (h : unit.scan number raw = .error e) (number' : Nat) :
    unit.scan number' raw = .error { e with line := number' } := by
  unfold scan at h ⊢
  grind

end Indentation

/-! ### Numbered lines -/

/-- A line as it was written, with its number. -/
structure SourceLine where
  number : Nat
  text : Text
  deriving DecidableEq, Repr

namespace SourceLine

/-- Number texts upwards from `first`. -/
def numberFrom (first : Nat) : List Text → List SourceLine
  | [] => []
  | t :: ts => ⟨first, t⟩ :: numberFrom (first + 1) ts

theorem numberFrom_append (first : Nat) (ts us : List Text) :
    numberFrom first (ts ++ us) = numberFrom first ts ++ numberFrom (first + ts.length) us := by
  induction ts generalizing first with
  | nil => rfl
  | cons t ts ih =>
      rw [List.cons_append, numberFrom, numberFrom, ih, List.length_cons, List.cons_append,
        Nat.add_right_comm]
      rfl

theorem length_numberFrom (first : Nat) (ts : List Text) :
    (numberFrom first ts).length = ts.length := by
  induction ts generalizing first with
  | nil => rfl
  | cons t ts ih => rw [numberFrom, List.length_cons, List.length_cons, ih]

theorem getElem?_of_mem_numberFrom {first : Nat} {ts : List Text} {l : SourceLine}
    (h : l ∈ numberFrom first ts) : ∃ i, l.number = first + i ∧ ts[i]? = some l.text := by
  induction ts generalizing first with
  | nil => cases h
  | cons t ts ih =>
      rcases List.mem_cons.1 h with rfl | h
      · exact ⟨0, rfl, rfl⟩
      · obtain ⟨i, hnumber, htext⟩ := ih h
        exact ⟨i + 1, by omega, htext⟩

/-- The lines of a source. Carriage returns are dropped, and a line feed is added
at the end, so that the last line is always empty. -/
def textsOf (source : Text) : List Text :=
  Text.splitLines (source.filter (· ≠ '\r') ++ ['\n'])

/-- The lines of a source, numbered from zero. -/
def ofSource (source : Text) : List SourceLine := numberFrom 0 (textsOf source)

theorem getElem?_of_mem_ofSource {source : Text} {l : SourceLine} (h : l ∈ ofSource source) :
    (textsOf source)[l.number]? = some l.text := by
  obtain ⟨i, hnumber, htext⟩ := getElem?_of_mem_numberFrom h
  rwa [hnumber, Nat.zero_add]

/-- The line has nothing but blank characters. -/
def isBlank (l : SourceLine) : Bool := Text.allBlank l.text

/-- The line is blank or a comment, so that the readers of elements pass over it
without measuring it. -/
def isSilent (l : SourceLine) : Bool :=
  match Text.trim l.text with
  | [] => true
  | c :: _ => c = '>'

theorem isSilent_of_head {c : Char} (hblank : Text.isBlank c = false) (hcomment : c ≠ '>')
    (n : Nat) (t : Text) : isSilent ⟨n, c :: t⟩ = false := by
  obtain ⟨u, hu⟩ := Text.trimEnd_cons_of_not_isBlank hblank t
  simp [isSilent, Text.trim, Text.trimStart, hblank, hu, hcomment]

/-- Measure the line in the given unit. -/
def scan (unit : Indentation) (l : SourceLine) : Except IndentError Line :=
  unit.scan l.number l.text

/-- The line is blank, or deeper than `depth`. -/
def DeeperThan (unit : Indentation) (depth : Nat) (l : SourceLine) : Prop :=
  l.isBlank = true ∨ l.isBlank = false ∧ ∃ m, l.scan unit = .ok m ∧ depth < m.depth

end SourceLine

/-- The lines from the first on that is neither blank nor a comment. -/
def skipSilent (ls : List SourceLine) : List SourceLine := ls.dropWhile (·.isSilent)

/-- The lines from the first on that is not blank. -/
def skipBlank (ls : List SourceLine) : List SourceLine := ls.dropWhile (·.isBlank)

end IndentMarkup
