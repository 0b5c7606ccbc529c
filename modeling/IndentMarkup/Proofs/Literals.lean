import IndentMarkup.Proofs.Boundary
import IndentMarkup.Proofs.Calls
import IndentMarkup.Proofs.Linewise
import IndentMarkup.Proofs.Nesting

/-!
Literal text.

Every text can be written on a line so that the line shows it: with its markup escaped, or as it
stands behind a tag with a tilde. A backslash in front of the line means one thing to the reader of
lines and another one to the formatter, and the text comes back from both, with references for what
HTML would read as markup.

* `Text.escapeMarkup_eq_replace`, `Text.replace_escapeMarkup` — references are written by replacing
  one character after the other, and read back by replacing one reference after the other.
* `Literal.line`, `Literal.rawLine` — a text as it is written on a line.
* `Block.ReadsAs` — a line is one element, wherever it stands.
* `Literal.readsAs` — the lines that are written for a text are elements with that text.
-/

namespace IndentMarkup

/-! ### Replacing characters -/

namespace Text

/-- What is replaced character by character is replaced as a whole. -/
theorem replace_flatMap {old new : Text} {g g' : Char → Text}
    (h : ∀ c t, replace old new (g c ++ t) = g' c ++ replace old new t) (t : Text) :
    replace old new (t.flatMap g) = t.flatMap g' := by
  induction t with
  | nil => exact replace_nil old new
  | cons c t ih => rw [List.flatMap_cons, h, ih, List.flatMap_cons]

/-- How a character stands in a text whose markup is escaped. -/
def shown (c : Char) : Text := escapeMarkup [c]

theorem escapeMarkup_eq_flatMap (t : Text) : escapeMarkup t = t.flatMap shown :=
  List.flatMap_congr fun _ _ => (List.append_nil _).symm

theorem shown_of_plain {c : Char} (h : c ∉ ['&', '<', '>']) : shown c = [c] := by
  simp only [List.mem_cons, List.not_mem_nil, or_false, not_or] at h
  simp [shown, escapeMarkup, h]

theorem replace_char (a : Char) (new t : Text) :
    replace [a] new t = t.flatMap fun c => if c = a then new else [c] := by
  induction t with
  | nil => exact replace_nil [a] new
  | cons c t ih =>
      by_cases hc : c = a
      · subst hc
        rw [replace_cons_of_match (by simp [List.isPrefixOf]), List.flatMap_cons, if_pos rfl, ← ih]
        rfl
      · have hmatch : List.isPrefixOf [a] (c :: t) = false := by
          simp [List.isPrefixOf, Ne.symm hc]
        rw [replace_cons_of_not_match hmatch, List.flatMap_cons, if_neg hc, ih]
        rfl

/-- Markup is escaped by three replacements, one after the other. -/
theorem escapeMarkup_eq_replace (t : Text) :
    escapeMarkup t = replace ['>'] "&gt;".toList
      (replace ['<'] "&lt;".toList (replace ['&'] "&amp;".toList t)) := by
  simp only [replace_char, List.flatMap_assoc, escapeMarkup_eq_flatMap]
  refine List.flatMap_congr fun c _ => ?_
  by_cases hc : c ∈ ['&', '<', '>']
  · simp only [List.mem_cons, List.not_mem_nil, or_false] at hc
    rcases hc with rfl | rfl | rfl <;> rfl
  · rw [shown_of_plain hc]
    simp only [List.mem_cons, List.not_mem_nil, or_false, not_or] at hc
    simp [hc]

/-- A text in which the first character of `old` does not stand is passed over. -/
theorem replace_append_of_notMem {a : Char} {u : Text} (h : a ∉ u) (old new t : Text) :
    replace (a :: old) new (u ++ t) = u ++ replace (a :: old) new t := by
  induction u with
  | nil => rfl
  | cons c u ih =>
      rw [List.mem_cons, not_or] at h
      have hmatch : List.isPrefixOf (a :: old) (c :: (u ++ t)) = false := by
        simp [List.isPrefixOf, h.1]
      rw [List.cons_append, replace_cons_of_not_match hmatch, ih h.2, List.cons_append]

/-- The references of two characters do not start alike. -/
theorem shown_not_prefix {c d : Char} (hc : c ∈ ['&', '<', '>']) (hd : d ∈ ['&', '<', '>'])
    (hne : c ≠ d) (t : Text) : (shown d).isPrefixOf (shown c ++ t) = false := by
  simp only [List.mem_cons, List.not_mem_nil, or_false] at hc hd
  rcases hc with rfl | rfl | rfl <;> rcases hd with rfl | rfl | rfl <;>
    first
    | exact absurd rfl hne
    | rfl

/-- What a text is whose markup is escaped, once the characters in `done` are read back. -/
def readBack (done : List Char) (t : Text) : Text :=
  t.flatMap fun c => if c ∈ done then [c] else shown c

theorem replace_readBack {d : Char} (hd : d ∈ ['&', '<', '>']) {done : List Char}
    (hdone : d ∉ done) (hamp : '&' ∉ done) (t : Text) :
    replace (shown d) [d] (readBack done t) = readBack (d :: done) t := by
  have reference : ∀ c ∈ ['&', '<', '>'], ∃ u, shown c = '&' :: u ∧ '&' ∉ u := by
    simp only [List.forall_mem_cons]
    exact ⟨⟨_, rfl, by decide⟩, ⟨_, rfl, by decide⟩, ⟨_, rfl, by decide⟩, nofun⟩
  obtain ⟨name, hname, -⟩ := reference d hd
  refine replace_flatMap (fun c t => ?_) t
  by_cases hcd : c = d
  · subst hcd
    have hmatch : (shown c).isPrefixOf (shown c ++ t) = true := by simp
    rw [if_neg hdone, if_pos List.mem_cons_self]
    rw [hname] at hmatch ⊢
    rw [List.cons_append] at hmatch ⊢
    rw [replace_cons_of_match hmatch]
    simp
  · have hmem : c ∈ d :: done ↔ c ∈ done := by simp [hcd]
    simp only [hmem]
    by_cases hc : c ∈ ['&', '<', '>'] ∧ c ∉ done
    · obtain ⟨u, hu, hfree⟩ := reference c hc.1
      have hmatch := shown_not_prefix hc.1 hd hcd t
      rw [if_neg hc.2]
      rw [hu] at hmatch ⊢
      rw [hname, List.cons_append] at hmatch ⊢
      rw [replace_cons_of_not_match hmatch, replace_append_of_notMem hfree, List.cons_append]
    · have hplain : (if c ∈ done then [c] else shown c) = [c] := by
        split
        · rfl
        · next hnot => exact shown_of_plain fun h => hc ⟨h, hnot⟩
      have hne : c ≠ '&' := by
        rintro rfl
        exact hc ⟨by decide, hamp⟩
      rw [hplain, hname]
      exact replace_append_of_notMem (by simpa using hne.symm) name [d] t

/-- The references of a text whose markup is escaped are read back, one kind after the other. -/
theorem replace_escapeMarkup (t : Text) :
    replace "&amp;".toList ['&'] (replace "&gt;".toList ['>']
      (replace "&lt;".toList ['<'] (escapeMarkup t))) = t := by
  have hnone : escapeMarkup t = readBack [] t := escapeMarkup_eq_flatMap t
  have hall : readBack ['&', '>', '<'] t = t := by
    refine (List.flatMap_congr fun c _ => ?_).trans (List.flatMap_singleton' t)
    split
    · rfl
    · next hplain => exact shown_of_plain fun h => hplain (by revert h; simp; tauto)
  calc _ = replace (shown '&') ['&'] (replace (shown '>') ['>']
        (replace (shown '<') ['<'] (readBack [] t))) := by rw [hnone]; rfl
    _ = readBack ['&', '>', '<'] t := by
        rw [replace_readBack (by decide) (by decide) (by decide),
          replace_readBack (by decide) (by decide) (by decide),
          replace_readBack (by decide) (by decide) (by decide)]
    _ = t := hall

theorem notMem_escapeMarkup (t : Text) : '<' ∉ escapeMarkup t ∧ '>' ∉ escapeMarkup t := by
  have shown_free (c : Char) : '<' ∉ shown c ∧ '>' ∉ shown c := by
    by_cases hc : c ∈ ['&', '<', '>']
    · simp only [List.mem_cons, List.not_mem_nil, or_false] at hc
      rcases hc with rfl | rfl | rfl <;> decide
    · rw [shown_of_plain hc]
      simp only [List.mem_cons, List.not_mem_nil, or_false, not_or] at hc ⊢
      exact ⟨Ne.symm hc.2.1, Ne.symm hc.2.2⟩
  rw [escapeMarkup_eq_flatMap]
  constructor
  · intro h
    obtain ⟨c, -, hc⟩ := List.mem_flatMap.1 h
    exact (shown_free c).1 hc
  · intro h
    obtain ⟨c, -, hc⟩ := List.mem_flatMap.1 h
    exact (shown_free c).2 hc

/-- A trimmed text ends in a character that is not blank. -/
theorem exists_concat_of_trim {t : Text} (h : trim t = t) (hsome : t ≠ []) :
    ∃ front d, t = front ++ [d] ∧ isBlank d = false := by
  have hend := trimEnd_of_trim h
  rcases List.eq_nil_or_concat' t with rfl | ⟨front, d, rfl⟩
  · exact absurd rfl hsome
  · refine ⟨front, d, rfl, ?_⟩
    cases hd : isBlank d with
    | false => rfl
    | true =>
        have hblank : allBlank [d] = true := by simp [allBlank, hd]
        rw [trimEnd_append_of_allBlank front hblank] at hend
        obtain ⟨blanks, -, hfront⟩ := exists_eq_trimEnd_append front
        have hlength := congrArg List.length hfront
        rw [hend] at hlength
        simp at hlength

/-- A text is trimmed if it starts and ends with characters that are not blank. -/
theorem trim_of_ends {t : Text} (front : Text) {c d : Char} (hhead : t.head? = some c)
    (hlast : t = front ++ [d]) (hc : isBlank c = false) (hd : isBlank d = false) : trim t = t := by
  have hstart : trimStart t = t := by
    obtain ⟨u, rfl⟩ := List.head?_eq_some_iff.1 hhead
    rw [trimStart, List.dropWhile_cons_of_neg (by simp [hc])]
  rw [trim, hstart, hlast, trimEnd_append_of_not_allBlank front (by simp [allBlank, hd]),
    trimEnd_of_no_blank (by simpa using hd)]

end Text

/-! ### Texts written on lines -/

namespace Literal

/-- How a character is written in formatted text: with a backslash in front if it would mean
something else. -/
def written (c : Char) : Text := if (Text.escapable? c).isSome then ['\\', c] else [c]

/-- A text with its markup escaped. -/
def escaped (t : Text) : Text := t.flatMap written

/-- A text as HTML shows it, with references for its markup. -/
def referenced (t : Text) : Text := t.flatMap fun c => (Text.escapable? c).getD [c]

/-- A text on a line: its markup escaped, and its first character too if it is a marker that the
formatter does not know as an escape. -/
def line (t : Text) : Text :=
  match t with
  | [] => []
  | c :: _ => if c ∈ markers ∧ c ≠ '>' then '\\' :: escaped t else escaped t

/-- A text on a line behind a tag, as it stands. -/
def rawLine (tag t : Text) : Text := '.' :: '~' :: (tag ++ ' ' :: t)

theorem formats (t : Text) : Inline.Formats (escaped t) (referenced t) := by
  induction t with
  | nil => exact .nil
  | cons c t ih =>
      rw [escaped, referenced, List.flatMap_cons, List.flatMap_cons, written]
      cases hentity : Text.escapable? c with
      | some entity => exact .escape hentity ih
      | none =>
          have hplain : c ≠ '\\' ∧ c ≠ '<' ∧ c ≠ '>' := by
            refine ⟨?_, ?_, ?_⟩ <;>
              · rintro rfl
                cases hentity
          exact .char (Inline.escapeAt?_of_ne hplain.1 _) hplain.2.1 hplain.2.2 ih

/-- How the line of a text starts: with a marker behind a backslash, with an escape, or with a
character that means nothing. -/
theorem line_cons_cases (c : Char) (t : Text) :
    ((c ∈ markers ∧ c ≠ '>') ∧ escaped (c :: t) = c :: escaped t ∧
        line (c :: t) = '\\' :: c :: escaped t) ∨
      (¬(c ∈ markers ∧ c ≠ '>') ∧ escaped (c :: t) = '\\' :: c :: escaped t ∧
        line (c :: t) = '\\' :: c :: escaped t) ∨
      (c ∉ markers ∧ c ≠ '\\') ∧ escaped (c :: t) = c :: escaped t ∧
        line (c :: t) = c :: escaped t := by
  have hcons : escaped (c :: t) = written c ++ escaped t := List.flatMap_cons
  by_cases hmarker : c ∈ markers ∧ c ≠ '>'
  · rw [written, Inline.escapable?_of_marker hmarker.1 hmarker.2, Option.isSome_none,
      if_neg Bool.false_ne_true] at hcons
    refine .inl ⟨hmarker, hcons, ?_⟩
    rw [line, if_pos hmarker, hcons]
    rfl
  · rw [line, if_neg hmarker]
    cases hescape : (Text.escapable? c).isSome with
    | true =>
        rw [written, if_pos hescape] at hcons
        exact .inr (.inl ⟨hmarker, hcons, hcons⟩)
    | false =>
        have hne : c ≠ '>' ∧ c ≠ '\\' := by
          constructor <;>
            · rintro rfl
              cases hescape
        rw [written, hescape, if_neg Bool.false_ne_true] at hcons
        exact .inr (.inr ⟨⟨fun h => hmarker ⟨h, hne.1⟩, hne.2⟩, hcons, hcons⟩)

/-- The reader of lines finds a text without a tag. -/
theorem readTag_line {t : Text} (hsome : t ≠ []) (n depth width : Nat) :
    ∃ column, LineKind.ofContent (line t) ∈ [.tag, .text, .escaped] ∧
      Block.readTag ⟨n, depth, width, line t⟩ = pure (.plain (escaped t) column) := by
  obtain ⟨c, t, rfl⟩ := List.exists_cons_of_ne_nil hsome
  rcases line_cons_cases c t with ⟨hmarker, hescaped, hline⟩ | ⟨hmarker, hescaped, hline⟩ |
    ⟨⟨hmarker, hslash⟩, hescaped, hline⟩
  · rw [hline, hescaped]
    exact ⟨width + 1, (by decide : LineKind.escaped ∈ _), if_pos hmarker⟩
  · rw [hline, hescaped]
    exact ⟨width, (by decide : LineKind.escaped ∈ _), if_neg hmarker⟩
  · have hkind : LineKind.ofContent (c :: escaped t) = .text := by
      have hstart : c ∉ '\\' :: markers := by simp [hmarker, hslash]
      simp only [markers, List.mem_cons, List.not_mem_nil, or_false, not_or] at hstart
      simp [LineKind.ofContent, hstart]
    rw [hline, hescaped]
    refine ⟨width, by simp [hkind], ?_⟩
    unfold Block.readTag
    rw [Line.kind, hkind]

theorem exists_escaped_concat {t : Text} (htrim : Text.trim t = t) (hsome : t ≠ []) :
    ∃ front d, escaped t = front ++ [d] ∧ Text.isBlank d = false := by
  obtain ⟨front, d, rfl, hd⟩ := Text.exists_concat_of_trim htrim hsome
  by_cases hwritten : (Text.escapable? d).isSome
  · exact ⟨escaped front ++ ['\\'], d, by simp [escaped, written, hwritten], hd⟩
  · exact ⟨escaped front, d, by simp [escaped, written, hwritten], hd⟩

/-- The line of a trimmed text is trimmed, and it is no comment. -/
theorem trim_line {t : Text} (htrim : Text.trim t = t) (hsome : t ≠ []) :
    Text.trim (line t) = line t ∧ ∃ c u, line t = c :: u ∧ c ≠ '>' := by
  obtain ⟨front, d, hlast, hd⟩ := exists_escaped_concat htrim hsome
  obtain ⟨c, t, rfl⟩ := List.exists_cons_of_ne_nil hsome
  have hc := Text.isBlank_of_trimStart (Text.trimStart_of_trim htrim)
  rcases line_cons_cases c t with ⟨-, hescaped, hline⟩ | ⟨-, hescaped, hline⟩ |
    ⟨⟨hmarker, -⟩, hescaped, hline⟩
  · rw [hescaped] at hlast
    refine ⟨Text.trim_of_ends ('\\' :: front) (by rw [hline]; rfl) ?_ (by decide) hd,
      _, _, hline, by decide⟩
    rw [hline, hlast, List.cons_append]
  · rw [hescaped, ← hline] at hlast
    exact ⟨Text.trim_of_ends front (by rw [hline]; rfl) hlast (by decide) hd, _, _, hline,
      by decide⟩
  · rw [hescaped, ← hline] at hlast
    refine ⟨Text.trim_of_ends front (by rw [hline]; rfl) hlast hc hd, _, _, hline, ?_⟩
    rintro rfl
    exact hmarker (by decide)

section Raw

variable {tag t : Text} (htag : ∀ c ∈ tag, c ≠ ' ' ∧ Bracket.opening? c = none ∧
  Bracket.closing? c = none)
include htag

/-- The reader of lines finds the tag and the text, and that the text is literal. -/
theorem readTag_rawLine (htrim : Text.trim t = t) (n depth width : Nat) :
    ∃ column, Block.readTag ⟨n, depth, width, rawLine tag t⟩
      = pure ⟨tag, ∅, t, column, true⟩ := by
  have hname : ∀ c ∈ '.' :: '~' :: tag, c ≠ ' ' ∧ Bracket.opening? c = none ∧
      Bracket.closing? c = none :=
    List.forall_mem_cons.2 ⟨by decide, List.forall_mem_cons.2 ⟨by decide, htag⟩⟩
  have hread : Shorthand.readToken (rawLine tag t)
      = .ok ⟨'.' :: '~' :: tag, [], ' ' :: t⟩ :=
    Shorthand.readToken_name hname (.inr rfl)
  have htext : Text.trim (' ' :: t) = t := (Text.trim_append_left (s := [' ']) rfl t).trans htrim
  refine ⟨width + ((rawLine tag t).length - (Text.trimStart (' ' :: t)).length), ?_⟩
  change Block.readTagged ⟨n, depth, width, rawLine tag t⟩ = _
  rw [Block.readTagged, hread]
  dsimp only [Element.dropDot]
  rw [htext]
  rfl

omit htag in
theorem trim_rawLine (tag : Text) (htrim : Text.trim t = t) (hsome : t ≠ []) :
    Text.trim (rawLine tag t) = rawLine tag t := by
  obtain ⟨front, d, rfl, hd⟩ := Text.exists_concat_of_trim htrim hsome
  exact Text.trim_of_ends ('.' :: '~' :: (tag ++ ' ' :: front)) (c := '.') rfl
    (by simp [rawLine]) (by decide) hd

end Raw

end Literal

/-! ### Lines that are one element -/

namespace Block

/-- A line is one element at a depth, with the deeper lines below it as its children: in a block
of that depth, where the elements of the lines behind them follow, and, if the line stands at
the margin, in the section that is open at the top level of a source. -/
structure ReadsAs (e : Expander) (c : Context) (l : SourceLine) (depth : Nat)
    (element : List Element → Element) : Prop where
  block (back : List SourceLine) : readBlock e depth (l :: back) c = (do
    let (below, rest) ← readBlock e (depth + 1) back
    let (more, rest) ← readBlock e depth rest
    return (element below :: more, rest)) c
  top (hmargin : depth = 0) (x : Line → CompileM (List Tab)) (o : Outline)
    (back : List SourceLine) : Document.readTop e x o (l :: back) c = (do
      let (below, rest) ← readBlock e 1 back
      match o.push? [element below] with
      | some o => Document.readTop e x o rest
      | none => .failAt (.structural .noSection) l.number none) c

variable {e : Expander} {c : Context}

/-- A line with one element has its text, formatted or not, with a line break behind it. -/
theorem readTree_of_head {l : Line} {head : TagLine} (hhead : readTag l = pure head)
    (hrun : runs.find? (·.tag = head.tag) = none) (himg : head.tag ≠ "img".toList)
    (hsome : head.text ≠ []) {html : Text}
    (hhtml : (if head.raw then pure (Text.escapeMarkup head.text)
      else Inline.format e head.text l.number head.column) c = .ok html c)
    (children : Reader) (back : List SourceLine) :
    readTree e children l back c = (do
      let (below, rest) ← children (l.depth + 1) back
      return ([(Element.ofTag head.tag (html ++ "<br>".toList) head.attributes).withChildren
        below], rest)) c := by
  have helement : readElement e children l head head.tag back c = (do
      let (below, rest) ← children (l.depth + 1) back
      return ((Element.ofTag head.tag (html ++ "<br>".toList) head.attributes).withChildren below,
        rest)) c := by
    rw [readElement, if_neg himg]
    cases hraw : head.raw with
    | true =>
        rw [hraw, if_pos rfl] at hhtml
        rw [if_pos rfl, CompileM.bind_run_ok hhtml]
        dsimp only
        rw [if_neg hsome]
    | false =>
        rw [hraw, if_neg Bool.false_ne_true] at hhtml
        rw [if_neg Bool.false_ne_true, CompileM.bind_run_ok hhtml]
        dsimp only
        rw [if_neg hsome]
  rw [readTree, hhead, pure_bind]
  dsimp only
  rw [hrun]
  dsimp only
  rw [CompileM.bind_run, helement, ← CompileM.bind_run, bind_assoc]
  rfl

theorem readLineWith_of_kind {l : Line} (hkind : l.kind ∈ [.tag, .text, .escaped])
    (children : Reader) (back : List SourceLine) :
    readLineWith e children l back = readTree e children l back := by
  simp only [List.mem_cons, List.not_mem_nil, or_false] at hkind
  unfold readLineWith
  rcases hkind with h | h | h <;> rw [h]

theorem readTopLine_of_kind {l : Line} (hmargin : l.depth = 0)
    (hkind : l.kind ∈ [.tag, .text, .escaped]) (x : Line → CompileM (List Tab)) (o : Outline)
    (back : List SourceLine) :
    Document.readLine e x o l back = Document.readElements e o l back := by
  simp only [List.mem_cons, List.not_mem_nil, or_false] at hkind
  unfold Document.readLine
  rw [if_neg (by omega)]
  rcases hkind with h | h | h <;> rw [h]

/-- A line is one element if it has a text, with a tag that does not stand for something else. -/
theorem readsAs_of_head {l : SourceLine} {m : Line} (hsilent : l.isSilent = false)
    (hscan : l.scan c.indentation = .ok m) (hkind : m.kind ∈ [.tag, .text, .escaped])
    {head : TagLine} (hhead : readTag m = pure head)
    (hrun : runs.find? (·.tag = head.tag) = none) (himg : head.tag ≠ "img".toList)
    (hsome : head.text ≠ []) {html : Text}
    (hhtml : (if head.raw then pure (Text.escapeMarkup head.text)
      else Inline.format e head.text m.number head.column) c = .ok html c) :
    ReadsAs e c l m.depth fun es =>
      (Element.ofTag head.tag (html ++ "<br>".toList) head.attributes).withChildren es where
  block back := by
    have hnext : next (l :: back) c = .ok (some (m, back)) c := by
      rw [next, skipSilent, List.dropWhile_cons_of_neg (by simp [hsilent])]
      dsimp only
      rw [CompileM.bind_run, CompileM.scan, hscan]
      rfl
    rw [readBlock, List.length_cons, readWithin, CompileM.bind_run_ok hnext]
    dsimp only
    rw [if_neg (Nat.lt_irrefl _), if_neg (Nat.lt_irrefl _), readLineWith_of_kind hkind,
      CompileM.bind_run, readTree_of_head hhead hrun himg hsome hhtml, CompileM.bind_run,
      CompileM.bind_run]
    -- what is below the line may be read with a count of its own, since no more lines are there
    have hbelow : readWithin e back.length (m.depth + 1) back = readBlock e (m.depth + 1) back :=
      rfl
    rw [hbelow]
    cases hbelow : readBlock e (m.depth + 1) back c with
    | error s after => rfl
    | ok r after =>
        have hle := (suffix_of_readBlock hbelow).length_le
        simp only [CompileM.pure_run, readWithin_of_length_le hle, CompileM.bind_run]
        rfl
  top hmargin x o back := by
    have hread : CompileM.scan l c = .ok m c := by rw [CompileM.scan, hscan]
    rw [Document.readTop_cons hsilent, CompileM.bind_run_ok hread,
      readTopLine_of_kind hmargin hkind, Document.readElements, readLine,
      readLineWith_of_kind hkind, bind_assoc, CompileM.bind_run,
      readTree_of_head hhead hrun himg hsome hhtml, hmargin, CompileM.bind_run, CompileM.bind_run]
    cases readBlock e 1 back c with
    | error s after => rfl
    | ok r after =>
        dsimp only [CompileM.pure_run, CompileM.bind_run]
        rw [if_neg (by simp)]
        rw [show m.number = l.number from Indentation.number_of_scan hscan]
        cases o.push? [(Element.ofTag head.tag (html ++ "<br>".toList)
          head.attributes).withChildren r.1] with
        | none => rfl
        | some o => rfl

end Block

namespace Literal

/-- A line with the given content at a depth. -/
def sourceLine (unit : Indentation) (n depth : Nat) (content : Text) : SourceLine :=
  ⟨n, List.replicate (unit.unitLength * depth) unit.unitChar ++ content⟩

/-- A line with a trimmed content that is no comment is measured at its depth. -/
theorem measured_sourceLine {unit : Indentation} (hunit : 0 < unit.unitLength) {content : Text}
    (htrim : Text.trim content = content) {d : Char} {u : Text} (hcontent : content = d :: u)
    (hcomment : d ≠ '>') (n depth : Nat) :
    (sourceLine unit n depth content).isSilent = false ∧
      (sourceLine unit n depth content).scan unit
        = .ok ⟨n, depth, unit.unitLength * depth, content⟩ := by
  have hd : Text.isBlank d = false := by
    rw [hcontent] at htrim
    exact Text.isBlank_of_trimStart (Text.trimStart_of_trim htrim)
  have hhead (b : Char) (hb : Text.isBlank b = true) : content.head? ≠ some b := by
    rw [hcontent, List.head?_cons, ne_eq, Option.some.injEq]
    rintro rfl
    simp [hd] at hb
  -- the margin is trimmed off, and then the content starts with a character that marks no comment
  constructor
  · have hmargin : Text.allBlank
        (List.replicate (unit.unitLength * depth) unit.unitChar) = true := by
      simp [Text.allBlank, unit.isBlank_unitChar]
    rw [SourceLine.isSilent, sourceLine, Text.trim_append_left hmargin, htrim, hcontent]
    exact decide_eq_false hcomment
  · have hsolid : Text.allBlank content = false := by simp [hcontent, Text.allBlank, hd]
    refine unit.scan_of_trimEnd hunit ?_ (hcontent ▸ List.cons_ne_nil _ _)
      (hhead ' ' (by decide)) (hhead '\t' (by decide)) n
    rw [sourceLine, Text.trimEnd_append_of_not_allBlank _ hsolid, Text.trimEnd_of_trim htrim]

/-- What is written has no line ends if the text has none. -/
theorem textsOf_sourceLine (unit : Indentation) (n depth : Nat) {content : Text}
    (h : ∀ d ∈ content, d ∉ ['\n', '\r']) :
    SourceLine.textsOf (sourceLine unit n depth content).text
      = [(sourceLine unit n depth content).text, []] := by
  have hunit : unit.unitChar ∉ ['\n', '\r'] := by
    cases unit with
    | tabs => decide
    | spaces width => exact (by decide : ' ' ∉ ['\n', '\r'])
  have hfree : ∀ d ∈ (sourceLine unit n depth content).text, d ∉ ['\n', '\r'] := by
    intro d hd
    rcases List.mem_append.1 hd with hd | hd
    · rwa [List.eq_of_mem_replicate hd]
    · exact h d hd
  refine SourceLine.textsOf_join (List.cons_ne_nil _ []) ?_
  rw [List.forall_mem_singleton]
  exact ⟨fun hmem => hfree _ hmem (by decide), fun hmem => hfree _ hmem (by decide)⟩

theorem mem_of_mem_line {t : Text} {d : Char} (h : d ∈ line t) : d = '\\' ∨ d ∈ t := by
  have hescaped (u : Text) (hu : d ∈ escaped u) : d = '\\' ∨ d ∈ u := by
    obtain ⟨c, hc, hd⟩ := List.mem_flatMap.1 hu
    unfold written at hd
    split at hd <;> simp at hd <;> grind
  cases t with
  | nil => cases h
  | cons c t =>
      unfold line at h
      dsimp only at h
      split at h
      · rcases List.mem_cons.1 h with rfl | h
        · exact .inl rfl
        · exact hescaped _ h
      · exact hescaped _ h

/-- Every text can be written on a line and read back, at every depth and in every context. With
its markup escaped it is the text of a span, which has references for the markup. Behind a tag
with a tilde it is the text of an element of that tag; nothing in it is markup, and once the
references in it are read back it is the text that was written. -/
theorem readsAs (e : Expander) (c : Context) (hunit : 0 < c.indentation.unitLength) {t : Text}
    (htrim : Text.trim t = t) (hsome : t ≠ []) (hends : ∀ d ∈ t, d ∉ ['\n', '\r'])
    (n depth : Nat) :
    let escapedLine := sourceLine c.indentation n depth (line t)
    (SourceLine.textsOf escapedLine.text = [escapedLine.text, []] ∧
      Block.ReadsAs e c escapedLine depth fun es =>
        ⟨"span".toList, (∅ : Table Text).insert "class".toList ['t'],
          referenced t ++ "<br>".toList, es⟩) ∧
    ∀ tag, (∀ d ∈ tag, d ∉ [' ', '\n', '\r'] ∧ Bracket.opening? d = none ∧
        Bracket.closing? d = none) → tag ≠ "img".toList → (∀ run ∈ Block.runs, run.tag ≠ tag) →
      let literalLine := sourceLine c.indentation n depth (rawLine tag t)
      let text := Text.escapeMarkup t ++ "<br>".toList
      SourceLine.textsOf literalLine.text = [literalLine.text, []] ∧
        Block.ReadsAs e c literalLine depth (fun es => (Element.ofTag tag text ∅).withChildren es) ∧
        (∀ es, ((Element.ofTag tag text ∅).withChildren es).text = text) ∧
        '<' ∉ Text.escapeMarkup t ∧ '>' ∉ Text.escapeMarkup t ∧
        Text.replace "&amp;".toList ['&'] (Text.replace "&gt;".toList ['>']
          (Text.replace "&lt;".toList ['<'] (Text.escapeMarkup t))) = t := by
  refine ⟨⟨?_, ?_⟩, fun tag htag himg hrun => ⟨?_, ?_, fun es => Element.text_ofTag _ _ _,
    (Text.notMem_escapeMarkup t).1, (Text.notMem_escapeMarkup t).2, Text.replace_escapeMarkup t⟩⟩
  · refine textsOf_sourceLine _ _ _ fun d hd => ?_
    rcases mem_of_mem_line hd with rfl | hd
    · decide
    · exact hends d hd
  · obtain ⟨htrimmed, d, u, hline, hcomment⟩ := trim_line htrim hsome
    obtain ⟨hsilent, hscan⟩ := measured_sourceLine hunit htrimmed hline hcomment n depth
    obtain ⟨column, hkind, hhead⟩ := readTag_line hsome n depth (c.indentation.unitLength * depth)
    obtain ⟨front, b, hescaped, -⟩ := exists_escaped_concat htrim hsome
    have hescaped : escaped t ≠ [] := by simp [hescaped]
    exact Block.readsAs_of_head hsilent hscan hkind hhead rfl (List.cons_ne_nil _ _).symm hescaped
      (Inline.format_of_formats (formats t) column)
  · refine textsOf_sourceLine _ _ _ fun d hd => ?_
    simp only [rawLine, List.mem_cons, List.mem_append] at hd
    rcases hd with rfl | rfl | hd | rfl | hd
    · decide
    · decide
    · exact fun hmem => (htag d hd).1 (List.mem_cons_of_mem _ hmem)
    · decide
    · exact hends d hd
  -- the tag's full stop and tilde, and the space behind it, are not part of the text
  · have htrimmed := trim_rawLine tag htrim hsome
    obtain ⟨hsilent, hscan⟩ := measured_sourceLine hunit htrimmed rfl (by decide) n depth
    have hname : ∀ d ∈ tag, d ≠ ' ' ∧ Bracket.opening? d = none ∧ Bracket.closing? d = none :=
      fun d hd => ⟨fun h => (htag d hd).1 (h ▸ List.mem_cons_self), (htag d hd).2⟩
    obtain ⟨column, hhead⟩ :=
      readTag_rawLine hname htrim n depth (c.indentation.unitLength * depth)
    have hplain : Block.runs.find? (·.tag = tag) = none := by
      rw [List.find?_eq_none]
      intro run hmem heq
      exact hrun run hmem (of_decide_eq_true heq)
    exact Block.readsAs_of_head hsilent hscan (by decide : LineKind.tag ∈ _) hhead hplain himg
      hsome rfl

/-- A marker, a backslash, brackets, an ampersand, and a character that is none of these. -/
def sample : Text := "~\\<a> &é".toList

theorem readsAs_sample :
    0 < Context.start.indentation.unitLength ∧ Text.trim sample = sample ∧ sample ≠ [] ∧
    (∀ d ∈ sample, d ∉ ['\n', '\r']) ∧
    Block.ReadsAs (expander 0) .start ⟨3, "\t\\~\\\\\\<a\\> &é".toList⟩ 1 (fun es =>
      ⟨"span".toList, (∅ : Table Text).insert "class".toList ['t'],
        "~&#92;&lt;a&gt; &é<br>".toList, es⟩) ∧
    Block.ReadsAs (expander 0) .start ⟨3, "\t.~p ~\\<a> &é".toList⟩ 1 fun es =>
      ⟨"p".toList, ∅, "~\\&lt;a&gt; &amp;é<br>".toList, es⟩ := by
  have hunit : 0 < Context.start.indentation.unitLength := Nat.one_pos
  have htrim : Text.trim sample = sample := by decide +kernel
  have hsome : sample ≠ [] := by decide +kernel
  have hends : ∀ d ∈ sample, d ∉ ['\n', '\r'] := by
    intro d hd hmem
    simp only [List.mem_cons, List.not_mem_nil, or_false] at hmem
    rcases hmem with rfl | rfl <;> exact absurd hd (by decide)
  have htag : ∀ d ∈ "p".toList, d ∉ [' ', '\n', '\r'] ∧ Bracket.opening? d = none ∧
      Bracket.closing? d = none := by
    intro d hd
    obtain rfl : d = 'p' := List.mem_singleton.1 hd
    decide
  have hrun : ∀ run ∈ Block.runs, run.tag ≠ "p".toList := by decide +kernel
  obtain ⟨hspan, helement⟩ := readsAs (expander 0) .start hunit htrim hsome hends 3 1
  exact ⟨hunit, htrim, hsome, hends, hspan.2, (helement _ htag (by decide +kernel) hrun).2.1⟩

end Literal

end IndentMarkup
