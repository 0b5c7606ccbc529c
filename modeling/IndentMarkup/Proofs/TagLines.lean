import IndentMarkup.Expansion

/-!
Lines with a plain tag.

A row is a tag with a text at a depth. If the tag is a plain name and the text has no markup,
its line is measured at that depth, and what is read is the tag, no attributes and the text.

* `Row` — a tag and a text at a depth; `Row.content` and `Row.line` write it.
* `Row.Plain` — the tag is a plain name, and the text has no markup.
* `Row.readWithin_line`, `Row.readWithin_of_lt`, `Row.readWithin_of_gt` — how a block is read
  whose next line is that of a row.
-/

namespace IndentMarkup

/-! ### Texts without markup -/

namespace Text

theorem trim_append_left {s : Text} (h : allBlank s = true) (t : Text) :
    trim (s ++ t) = trim t := by
  rw [trim, trimStart, List.dropWhile_append_of_pos (List.all_eq_true.1 h)]
  rfl

theorem trimEnd_of_trim {t : Text} (h : trim t = t) : trimEnd t = t := by
  obtain ⟨blanks, hblanks, hstart⟩ := exists_eq_trimEnd_append (trimStart t)
  calc trimEnd t = trimEnd (trim t) := by rw [h]
    _ = trimEnd (trim t ++ blanks) := (trimEnd_append_of_allBlank _ hblanks).symm
    _ = trimEnd (trimStart t) := congrArg trimEnd hstart.symm
    _ = t := h

end Text

namespace Shorthand

/-- A name without spaces and brackets is read up to the first space. -/
theorem readToken_name {name rest : Text} (hname : ∀ c ∈ name, c ≠ ' ' ∧
      Bracket.opening? c = none ∧ Bracket.closing? c = none)
    (hrest : rest = [] ∨ rest.head? = some ' ') :
    readToken (name ++ rest) = .ok ⟨name, [], rest⟩ := by
  -- the automaton stays in the name, whatever it has read of it before
  have from_name (before : Text) (column : Nat) :
      readFrom .token ⟨before, [], .name⟩ column (name ++ rest)
        = .ok ⟨before ++ name, [], rest⟩ := by
    induction name generalizing before column with
    | nil =>
        rcases hrest with rfl | hspace
        · simp [readFrom, Progress.finish]
        · obtain ⟨t, rfl⟩ := List.head?_eq_some_iff.1 hspace
          simp [readFrom, Progress.isOutside]
    | cons c name ih =>
        obtain ⟨⟨hspace, hopening, hclosing⟩, hname⟩ := List.forall_mem_cons.1 hname
        simp only [List.cons_append, readFrom, hspace, Progress.step, Progress.stepOutside,
          hopening, hclosing]
        simp [ih hname]
  exact from_name [] 0

end Shorthand

namespace Inline

/-- A text without markup is written as it is. -/
theorem format_plain (e : Expander) {t : Text} (h : ∀ c ∈ t, c ∉ ['\\', '<', '>'])
    (n column : Nat) (ctx : Context) : format e t n column ctx = .ok t ctx := by
  have after (span : Text → Nat → CompileM Text) (last : Nat) :
      formatAfter e span n last 0 t ctx = .ok t ctx := by
    induction t with
    | nil => rfl
    | cons c t ih =>
        obtain ⟨hc, ht⟩ := List.forall_mem_cons.1 h
        simp only [List.mem_cons, List.not_mem_nil, or_false, not_or] at hc
        have hescape : escapeAt? (c :: t) = none := by
          unfold escapeAt?
          split
          · next heq => exact absurd (List.cons.inj heq).1 hc.1
          · rfl
        rw [formatAfter, hescape]
        dsimp only
        rw [if_neg hc.2.1, if_neg hc.2.2, CompileM.bind_run_ok (ih ht)]
        rfl
  unfold format
  cases t.count '<' with
  | zero => exact after _ _
  | succ nesting => exact after _ _

end Inline

/-! ### Rows -/

/-- A tag and a text at a depth. -/
structure Row where
  depth : Nat
  tag : Text
  text : Text
  deriving DecidableEq, Repr

namespace Row

/-- The row without its indentation. -/
def content (r : Row) : Text := '.' :: r.tag ++ if r.text = [] then [] else ' ' :: r.text

/-- The row as a line. -/
def line (unit : Indentation) (r : Row) : Text :=
  List.replicate (unit.unitLength * r.depth) unit.unitChar ++ r.content

/-- What a text is in its element: it ends in a line break. -/
def html (text : Text) : Text := if text = [] then [] else text ++ "<br>".toList

/-- The characters that end the name of a tag, or give it another meaning. -/
def nameBreakers : List Char := ['.', '~', '(', ')', '[', ']', '\x7b', '\x7d', '<', '>']

/-- The characters that have a meaning in a text, or end it. -/
def markup : List Char := ['\n', '\r', '\\', '<', '>']

/-- The tags that stand for other elements, or have no text. -/
def reservedTags : List Text :=
  ["uli".toList, "oli".toList, "trow".toList, "img".toList, "card".toList]

/-- The tag is a plain name, not one that stands for something else, and the text has no
markup and is trimmed. -/
structure Plain (r : Row) : Prop where
  tag_ne : r.tag ≠ []
  tag_chars : ∀ c ∈ r.tag, Text.isBlank c = false ∧ c ∉ nameBreakers
  tag_free : r.tag ∉ reservedTags
  text_trim : Text.trim r.text = r.text
  text_chars : ∀ c ∈ r.text, c ∉ markup

/-- The test for plain rows. -/
def isPlain (r : Row) : Bool :=
  !r.tag.isEmpty && r.tag.all (fun c => !Text.isBlank c && !nameBreakers.contains c)
    && !reservedTags.contains r.tag && Text.trim r.text == r.text
    && r.text.all (!markup.contains ·)

theorem isPlain_iff {r : Row} : r.isPlain = true ↔ r.Plain := by
  simp only [isPlain, Bool.and_eq_true, Bool.not_eq_true', List.isEmpty_eq_false_iff,
    List.all_eq_true, List.contains_eq_mem, decide_eq_false_iff_not, beq_iff_eq]
  constructor
  · rintro ⟨⟨⟨⟨hne, hchars⟩, hfree⟩, htrim⟩, htext⟩
    exact ⟨hne, hchars, hfree, htrim, htext⟩
  · exact fun h => ⟨⟨⟨⟨h.tag_ne, h.tag_chars⟩, h.tag_free⟩, h.text_trim⟩, h.text_chars⟩

instance (r : Row) : Decidable r.Plain := decidable_of_iff _ isPlain_iff

/-- The line is that of the row, with blank characters behind it. -/
def Shown (unit : Indentation) (r : Row) (l : SourceLine) : Prop :=
  ∃ blanks, Text.allBlank blanks = true ∧ l.text = r.line unit ++ blanks

namespace Plain

variable {r : Row} (hr : r.Plain)
include hr

theorem isBlank_dot_tag : ∀ c ∈ '.' :: r.tag, Text.isBlank c = false :=
  List.forall_mem_cons.2 ⟨by decide, fun c hc => (hr.tag_chars c hc).1⟩

theorem trimEnd_content : Text.trimEnd r.content = r.content := by
  unfold content
  split
  · rw [List.append_nil]
    exact Text.trimEnd_of_no_blank hr.isBlank_dot_tag
  · next htext =>
      have hsolid : Text.allBlank r.text = false := by
        rw [← Bool.not_eq_true, ← Text.trim_eq_nil_iff, hr.text_trim]
        exact htext
      rw [List.append_cons, Text.trimEnd_append_of_not_allBlank _ hsolid,
        Text.trimEnd_of_trim hr.text_trim]

theorem trimEnd_line (unit : Indentation) {blanks : Text} (h : Text.allBlank blanks = true) :
    Text.trimEnd (r.line unit ++ blanks)
      = List.replicate (unit.unitLength * r.depth) unit.unitChar ++ r.content := by
  have hsolid : Text.allBlank r.content = false := rfl
  rw [Text.trimEnd_append_of_allBlank _ h, line, Text.trimEnd_append_of_not_allBlank _ hsolid,
    hr.trimEnd_content]

theorem scan {unit : Indentation} (hunit : 0 < unit.unitLength) {l : SourceLine}
    (hl : Shown unit r l) :
    l.scan unit = .ok ⟨l.number, r.depth, unit.unitLength * r.depth, r.content⟩ := by
  obtain ⟨blanks, hblanks, htext⟩ := hl
  rw [SourceLine.scan, htext]
  exact unit.scan_of_trimEnd hunit (hr.trimEnd_line unit hblanks) (by simp [content])
    (by simp [content]) (by simp [content]) l.number

theorem isSilent {unit : Indentation} {l : SourceLine} (hl : Shown unit r l) :
    l.isSilent = false := by
  obtain ⟨blanks, hblanks, htext⟩ := hl
  have hmargin : Text.allBlank
      (List.replicate (unit.unitLength * r.depth) unit.unitChar) = true := by
    rw [Text.allBlank, List.all_eq_true]
    intro c hc
    rw [List.eq_of_mem_replicate hc, unit.isBlank_unitChar]
  have hcontent : Text.trim r.content = r.content := hr.trimEnd_content
  rw [SourceLine.isSilent, htext, Text.trim_append_of_allBlank _ hblanks, line,
    Text.trim_append_left hmargin, hcontent]
  rfl

/-- The tag and the text of the row are read, and no attributes. -/
theorem readTag (n width : Nat) : ∃ column, Block.readTag ⟨n, r.depth, width, r.content⟩
    = pure ⟨r.tag, ∅, r.text, column, false⟩ := by
  have htoken : Shorthand.readToken r.content
      = .ok ⟨'.' :: r.tag, [], if r.text = [] then [] else ' ' :: r.text⟩ := by
    refine Shorthand.readToken_name ?_ ?_
    · refine List.forall_mem_cons.2 ⟨by decide, fun c hc => ?_⟩
      obtain ⟨hblank, hplain⟩ := hr.tag_chars c hc
      simp only [nameBreakers, List.mem_cons, List.not_mem_nil, or_false, not_or] at hplain
      refine ⟨?_, ?_, ?_⟩
      · rintro rfl
        cases hblank
      · simp [Bracket.opening?, Bracket.all, Bracket.opener, eq_comm, hplain]
      · simp [Bracket.closing?, Bracket.all, Bracket.closer, eq_comm, hplain]
    · split
      · exact .inl rfl
      · exact .inr rfl
  have htrim : Text.trim (if r.text = [] then [] else ' ' :: r.text) = r.text := by
    split
    · next hempty => rw [hempty]; rfl
    · exact (Text.trim_append_left (s := [' ']) rfl r.text).trans hr.text_trim
  have htilde : ∀ t, r.tag ≠ '~' :: t := by
    intro t ht
    have hplain := (hr.tag_chars '~' (ht ▸ List.mem_cons_self)).2
    exact hplain (by decide)
  refine ⟨width + (r.content.length
    - (Text.trimStart (if r.text = [] then [] else ' ' :: r.text)).length), ?_⟩
  change Block.readTagged ⟨n, r.depth, width, r.content⟩ = _
  rw [Block.readTagged, htoken]
  dsimp only [Element.dropDot]
  rw [htrim]
  split
  · next htag => exact absurd htag (htilde _)
  · rfl

theorem ne_of_mem_reservedTags {t : Text} (ht : t ∈ reservedTags) : r.tag ≠ t :=
  fun h => hr.tag_free (h ▸ ht)

theorem ofTag (text : Text) : Element.ofTag r.tag text ∅ = ⟨r.tag, ∅, text, []⟩ := by
  have hcard : r.tag ≠ "card".toList := hr.ne_of_mem_reservedTags (by decide)
  have hdot : Element.dropDot r.tag = r.tag := by
    unfold Element.dropDot
    split
    · next t htag =>
        exact absurd (by decide) (hr.tag_chars '.' (htag ▸ List.mem_cons_self)).2
    · rfl
  rw [Element.ofTag, hdot, if_neg hr.tag_ne, if_neg hcard]
  rfl

/-- The row is an element of its tag, with its text and no attributes. -/
theorem readElement (e : Expander) (children : Block.Reader) (n width column : Nat)
    (ls : List SourceLine) (ctx : Context) :
    Block.readElement e children ⟨n, r.depth, width, r.content⟩
        ⟨r.tag, ∅, r.text, column, false⟩ r.tag ls ctx
      = (children (r.depth + 1) ls >>= fun below =>
          pure (⟨r.tag, ∅, html r.text, below.1⟩, below.2)) ctx := by
  have himg : r.tag ≠ "img".toList := hr.ne_of_mem_reservedTags (by decide)
  have hplain : ∀ c ∈ r.text, c ∉ ['\\', '<', '>'] := by
    intro c hc hmem
    exact hr.text_chars c hc (List.mem_cons_of_mem _ (List.mem_cons_of_mem _ hmem))
  have hhtml : (if r.text = [] then r.text else r.text ++ "<br>".toList) = html r.text := by
    unfold html
    split
    · next hempty => exact hempty
    · rfl
  rw [Block.readElement, if_neg himg]
  dsimp only
  rw [if_neg Bool.false_ne_true, CompileM.bind_run_ok (Inline.format_plain e hplain n column ctx),
    hhtml]
  simp only [hr.ofTag, Element.withChildren]

theorem readTree (e : Expander) (children : Block.Reader) (n width : Nat)
    (ls : List SourceLine) (ctx : Context) :
    Block.readTree e children ⟨n, r.depth, width, r.content⟩ ls ctx
      = (children (r.depth + 1) ls >>= fun below =>
          pure ([⟨r.tag, ∅, html r.text, below.1⟩], below.2)) ctx := by
  obtain ⟨column, htag⟩ := hr.readTag n width
  have hrun : Block.runs.find? (·.tag = r.tag) = none := by
    rw [List.find?_eq_none]
    intro run hmem heq
    have hreserved : ∀ run ∈ Block.runs, run.tag ∈ reservedTags := by decide
    exact hr.ne_of_mem_reservedTags (hreserved run hmem) (of_decide_eq_true heq).symm
  rw [Block.readTree, htag, pure_bind]
  dsimp only
  rw [hrun]
  dsimp only
  rw [CompileM.bind_run, hr.readElement, ← CompileM.bind_run, bind_assoc]
  rfl

/-! ### Blocks -/

section Block

variable {c : Context} (hunit : 0 < c.indentation.unitLength) {front : List SourceLine}
  (hfront : ∀ l ∈ front, l.isSilent = true) {l : SourceLine} (hl : Shown c.indentation r l)
include hunit hfront hl

theorem next_line (back : List SourceLine) :
    Block.next (front ++ l :: back) c = .ok (some (⟨l.number, r.depth,
      c.indentation.unitLength * r.depth, r.content⟩, back)) c := by
  have hskip : skipSilent (front ++ l :: back) = l :: back := by
    rw [skipSilent, List.dropWhile_append_of_pos hfront,
      List.dropWhile_cons_of_neg (by simp [hr.isSilent hl])]
  rw [Block.next, hskip]
  dsimp only
  rw [CompileM.bind_run, CompileM.scan, hr.scan hunit hl]
  rfl

/-- A row at the depth of the block is an element; the deeper lines below it are its children. -/
theorem readWithin_line (e : Expander) (most : Nat) (back : List SourceLine) :
    Block.readWithin e (most + 1) r.depth (front ++ l :: back) c
      = (Block.readWithin e most (r.depth + 1) back >>= fun below =>
          Block.readWithin e most r.depth below.2 >>= fun more =>
            pure (⟨r.tag, ∅, html r.text, below.1⟩ :: more.1, more.2)) c := by
  have hline (children : Block.Reader) (n width : Nat) :
      Block.readLineWith e children ⟨n, r.depth, width, r.content⟩ back
        = Block.readTree e children ⟨n, r.depth, width, r.content⟩ back := rfl
  rw [Block.readWithin, CompileM.bind_run_ok (hr.next_line hunit hfront hl back)]
  dsimp only
  rw [if_neg (Nat.lt_irrefl _), if_neg (Nat.lt_irrefl _), hline, CompileM.bind_run, hr.readTree,
    ← CompileM.bind_run, bind_assoc]
  rfl

/-- A row that is less deep ends the block. -/
theorem readWithin_of_lt {depth : Nat} (hdepth : r.depth < depth) (e : Expander) (most : Nat)
    (back : List SourceLine) :
    Block.readWithin e (most + 1) depth (front ++ l :: back) c
      = .ok ([], front ++ l :: back) c := by
  rw [Block.readWithin, CompileM.bind_run_ok (hr.next_line hunit hfront hl back)]
  dsimp only
  rw [if_pos hdepth]
  rfl

/-- A row that is too deep is refused. -/
theorem readWithin_of_gt {depth : Nat} (hdepth : depth < r.depth) (e : Expander) (most : Nat)
    (back : List SourceLine) :
    Block.readWithin e (most + 1) depth (front ++ l :: back) c
      = .error (.error (c.errorAt (.tooDeep depth r.depth) l.number none)) c := by
  rw [Block.readWithin, CompileM.bind_run_ok (hr.next_line hunit hfront hl back)]
  dsimp only
  rw [if_neg (Nat.lt_asymm hdepth), if_pos hdepth]
  rfl

end Block

end Plain

end Row

end IndentMarkup
