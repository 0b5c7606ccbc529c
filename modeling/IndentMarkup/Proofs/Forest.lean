import IndentMarkup.Proofs.Linewise
import IndentMarkup.Proofs.TagLines
import Mathlib.Data.List.TakeWhile

/-!
The tree of elements is the outline of the lines.

Nested elements are read by readers that call one another and share what is left of the lines:
each of them stops in front of the line that ends its block. The rows of a forest, printed with
one unit of indentation for each level, are read back as that forest, and a sequence of rows is
refused exactly at the first one that is more than one level deeper than the one before.

* `Node`, `Node.rowsAll` — forests, and their rows from top to bottom.
* `Shows` — lines that show rows, with lines in between that are passed over.
* `Row.Steady` — no row is more than one level deeper than the one before.
* `readFragment_outline` — what is read of lines that show rows.
-/

namespace IndentMarkup

/-! ### Forests -/

/-- A tree of tags and texts. -/
structure Node where
  tag : Text
  text : Text
  children : List Node

namespace Node

mutual

/-- The rows of a tree whose root is at a depth. -/
def rows (depth : Nat) : Node → List Row
  | ⟨tag, text, children⟩ => ⟨depth, tag, text⟩ :: rowsAll (depth + 1) children

/-- The rows of trees whose roots are at a depth. -/
def rowsAll (depth : Nat) : List Node → List Row
  | [] => []
  | n :: ns => rows depth n ++ rowsAll depth ns

end

mutual

/-- The tree as an element. -/
def element : Node → Element
  | ⟨tag, text, children⟩ => ⟨tag, ∅, Row.html text, elements children⟩

/-- The trees as elements. -/
def elements : List Node → List Element
  | [] => []
  | n :: ns => element n :: elements ns

end

end Node

/-! ### Outlines -/

namespace Row

/-- No row is deeper than its limit: that of the first row is given, and that of any other is
one more than the depth of the row before. -/
def Steady : (limit : Nat) → List Row → Prop
  | _, [] => True
  | limit, r :: rs => r.depth ≤ limit ∧ Steady (r.depth + 1) rs

/-- The limit for a row behind the given ones. -/
def limitAfter : (limit : Nat) → List Row → Nat
  | limit, [] => limit
  | _, r :: rs => limitAfter (r.depth + 1) rs

/-- A part of steady rows is steady from its own limit on. -/
theorem Steady.of_append {limit : Nat} {rs rs' : List Row} (h : Steady limit (rs ++ rs')) :
    Steady limit rs ∧ Steady (limitAfter limit rs) rs' := by
  induction rs generalizing limit with
  | nil => exact ⟨trivial, h⟩
  | cons r rs ih =>
      obtain ⟨hr, hrs⟩ := h
      exact ⟨⟨hr, (ih hrs).1⟩, (ih hrs).2⟩

/-- Rows that are not steady have a first one that is too deep. -/
theorem exists_first_of_not_steady {limit : Nat} {rs : List Row} (h : ¬ Steady limit rs) :
    ∃ above r below, rs = above ++ r :: below ∧ Steady limit above ∧
      limitAfter limit above < r.depth := by
  induction rs generalizing limit with
  | nil => exact absurd trivial h
  | cons r rs ih =>
      by_cases hr : r.depth ≤ limit
      · obtain ⟨above, r', below, rfl, hsteady, hdeep⟩ := ih fun hrs => h ⟨hr, hrs⟩
        exact ⟨r :: above, r', below, rfl, ⟨hr, hsteady⟩, hdeep⟩
      · exact ⟨[], r, rs, rfl, trivial, Nat.lt_of_not_le hr⟩

end Row

/-- Steady rows begin with those of a forest; what is left begins less deep. -/
theorem Node.exists_forest (rs : List Row) (depth : Nat) (h : Row.Steady depth rs) :
    ∃ nodes rest, rs = rowsAll depth nodes ++ rest ∧ ∀ r ∈ rest.head?, r.depth < depth := by
  -- on the number of rows, since the trees beside are no part of the rows behind the first one
  induction hn : rs.length using Nat.strongRecOn generalizing rs depth with
  | ind n ih =>
      subst hn
      cases rs with
      | nil => exact ⟨[], [], rfl, nofun⟩
      | cons r rs =>
          obtain ⟨hr, hrs⟩ := h
          by_cases hless : r.depth < depth
          · exact ⟨[], r :: rs, rfl, fun r' hr' => Option.some.inj hr' ▸ hless⟩
          · obtain rfl : depth = r.depth := Nat.le_antisymm (Nat.le_of_not_lt hless) hr
            -- the children first, then the trees beside
            obtain ⟨children, middle, rfl, hmiddle⟩ :=
              ih rs.length (Nat.lt_succ_self _) rs _ hrs rfl
            have hsteady : Row.Steady r.depth middle := by
              have hafter := hrs.of_append.2
              cases middle with
              | nil => trivial
              | cons m ms => exact ⟨Nat.le_of_lt_succ (hmiddle m rfl), hafter.2⟩
            have hshorter :
                middle.length < (r :: (rowsAll (r.depth + 1) children ++ middle)).length := by
              simp only [List.length_cons, List.length_append]
              omega
            obtain ⟨nodes, rest, rfl, hrest⟩ := ih middle.length hshorter middle _ hsteady rfl
            refine ⟨⟨r.tag, r.text, children⟩ :: nodes, rest, ?_, hrest⟩
            simp only [rowsAll, rows, List.cons_append, List.append_assoc]

/-! ### Lines that show rows -/

/-- The lines show the rows, in order; the other lines are passed over. -/
inductive Shows (unit : Indentation) : List SourceLine → List Row → Prop where
  | nil : Shows unit [] []
  | aside {l : SourceLine} {ls : List SourceLine} {rs : List Row} : l.isSilent = true →
      Shows unit ls rs → Shows unit (l :: ls) rs
  | row {r : Row} {l : SourceLine} {ls : List SourceLine} {rs : List Row} : r.Plain →
      r.Shown unit l → Shows unit ls rs → Shows unit (l :: ls) (r :: rs)

namespace Shows

variable {unit : Indentation}

/-- Lines that show no rows are silent. -/
theorem isSilent {ls : List SourceLine} (h : Shows unit ls []) : ∀ l ∈ ls, l.isSilent = true := by
  generalize hrs : ([] : List Row) = rs at h
  induction h with
  | nil => exact nofun
  | aside hl _ ih => exact List.forall_mem_cons.2 ⟨hl, ih hrs⟩
  | row => cases hrs

/-- The first row is shown by a line behind silent ones. -/
theorem exists_row {ls : List SourceLine} {r : Row} {rs : List Row} (h : Shows unit ls (r :: rs)) :
    ∃ front l back, ls = front ++ l :: back ∧ (∀ a ∈ front, a.isSilent = true) ∧ r.Plain ∧
      r.Shown unit l ∧ Shows unit back rs := by
  generalize hrs : r :: rs = all at h
  induction h with
  | nil => cases hrs
  | aside hl _ ih =>
      obtain ⟨front, l, back, rfl, hfront, hrow⟩ := ih hrs
      exact ⟨_ :: front, l, back, rfl, List.forall_mem_cons.2 ⟨hl, hfront⟩, hrow⟩
  | row hr hl hls =>
      cases hrs
      exact ⟨[], _, _, rfl, nofun, hr, hl, hls⟩

end Shows

/-! ### Blocks -/

section Blocks

variable {c : Context} (hunit : 0 < c.indentation.unitLength) (e : Expander)

/-- Silent lines are read as nothing. -/
theorem readWithin_silent {ls : List SourceLine} (h : ∀ l ∈ ls, l.isSilent = true)
    (most depth : Nat) : Block.readWithin e most depth ls c = .ok ([], ls) c := by
  cases most with
  | zero => rfl
  | succ most =>
      have hskip : skipSilent ls = [] := List.dropWhile_eq_nil_iff.2 h
      rw [Block.readWithin, Block.next, hskip]
      rfl

include hunit

/-- The rows of a forest are read as its elements, up to a row that is less deep. -/
theorem readWithin_rowsAll (most : Nat) {depth : Nat} {ls : List SourceLine} {nodes : List Node}
    {rest : List Row} (hls : Shows c.indentation ls (Node.rowsAll depth nodes ++ rest))
    (hrest : ∀ r ∈ rest.head?, r.depth < depth) (hmost : ls.length ≤ most) :
    ∃ left, Shows c.indentation left rest ∧ left.length ≤ ls.length ∧
      Block.readWithin e most depth ls c = .ok (Node.elements nodes, left) c := by
  -- on the bound for lines; the children and the trees beside are both read with one less
  induction most generalizing depth ls nodes rest with
  | zero =>
      obtain rfl : ls = [] := List.length_eq_zero_iff.1 (Nat.le_zero.1 hmost)
      generalize hrows : Node.rowsAll depth nodes ++ rest = rs at hls
      cases hls
      obtain ⟨hnodes, rfl⟩ := List.append_eq_nil_iff.1 hrows
      cases nodes with
      | nil => exact ⟨[], .nil, Nat.le_refl _, rfl⟩
      | cons n ns => cases n; cases hnodes
  | succ most ih =>
      cases nodes with
      | nil =>
          -- without trees the block ends at the first row that is left, which is less deep
          refine ⟨ls, hls, Nat.le_refl _, ?_⟩
          cases rest with
          | nil => exact readWithin_silent e hls.isSilent _ _
          | cons r rest =>
              obtain ⟨front, l, back, rfl, hfront, hr, hl, -⟩ := Shows.exists_row hls
              exact hr.readWithin_of_lt hunit hfront hl (hrest r rfl) e most back
      -- the line of the root, its children, and then the trees beside in what the children leave
      | cons n ns =>
          obtain ⟨tag, text, children⟩ := n
          simp only [Node.rowsAll, Node.rows, List.cons_append, List.append_assoc] at hls
          obtain ⟨front, l, back, rfl, hfront, hr, hl, hback⟩ := hls.exists_row
          have hlength : back.length ≤ most := by
            simp only [List.length_append, List.length_cons] at hmost
            omega
          -- a tree beside is less deep than the children, and so is what is left
          have hbeside : ∀ r ∈ (Node.rowsAll depth ns ++ rest).head?, r.depth < depth + 1 := by
            intro r hhead
            cases ns with
            | nil => exact Nat.lt_succ_of_lt (hrest r hhead)
            | cons n ns =>
                cases n
                cases hhead
                exact Nat.lt_succ_self depth
          obtain ⟨middle, hmiddle, hshorter, hchildren⟩ := ih hback hbeside hlength
          obtain ⟨left, hleft, hleast, hnodes⟩ := ih hmiddle hrest (Nat.le_trans hshorter hlength)
          refine ⟨left, hleft, ?_, ?_⟩
          · simp only [List.length_append, List.length_cons]
            omega
          · have hread := hr.readWithin_line hunit hfront hl e most back
            dsimp only at hread
            rw [hread, CompileM.bind_run_ok hchildren, CompileM.bind_run_ok hnodes]
            rfl

/-- A row that is too deep behind steady ones is refused, unless the block ends before it. -/
theorem readWithin_tooDeep (most : Nat) {depth limit : Nat} {above : List Row}
    {front back : List SourceLine} {r : Row} {l : SourceLine} (hr : r.Plain)
    (hl : r.Shown c.indentation l) (habove : Shows c.indentation front above)
    (hsteady : Row.Steady depth above) (hlimit : Row.limitAfter depth above = limit)
    (hdeep : limit < r.depth) (hmost : (front ++ l :: back).length ≤ most) :
    Block.readWithin e most depth (front ++ l :: back) c
        = .error (.error (c.errorAt (.tooDeep limit r.depth) l.number none)) c ∨
      ∃ es front' a as, Block.readWithin e most depth (front ++ l :: back) c
          = .ok (es, front' ++ l :: back) c ∧ front'.length ≤ front.length ∧ a.depth < depth ∧
        Shows c.indentation front' (a :: as) ∧ Row.Steady (a.depth + 1) as ∧
        Row.limitAfter (a.depth + 1) as = limit := by
  -- on the bound for lines, for all blocks that the deep row can stand in: it is refused in the one
  -- where the rows in front end, and a block that ends before it leaves it to the block around
  induction most generalizing depth above front with
  | zero => simp at hmost
  | succ most ih =>
      cases above with
      -- no row stands in front, so the deep one is the next
      | nil =>
          cases hlimit
          exact .inl (hr.readWithin_of_gt hunit habove.isSilent hl hdeep e most back)
      | cons a as =>
          obtain ⟨ha, has⟩ := hsteady
          obtain ⟨asides, m, behind, rfl, hasides, haplain, hm, hbehind⟩ := habove.exists_row
          rw [List.append_assoc, List.cons_append]
          -- the first row ends this block, or is a root in it
          rcases Nat.lt_or_eq_of_le ha with hless | rfl
          · refine .inr ⟨[], asides ++ m :: behind, a, as, ?_, Nat.le_refl _, hless, habove, has,
              hlimit⟩
            rw [haplain.readWithin_of_lt hunit hasides hm hless, List.append_assoc,
              List.cons_append]
          · rw [haplain.readWithin_line hunit hasides hm]
            have hlength : (behind ++ l :: back).length ≤ most := by
              simp only [List.length_append, List.length_cons] at hmost ⊢
              omega
            -- its children come to the deep row, or leave it to the trees beside
            rcases ih hbehind has hlimit hlength with
              herror | ⟨es, front', b, bs, hchildren, hshorter, hb, hfront', hbs, hlimit'⟩
            · exact .inl (CompileM.bind_run_error herror _)
            · rw [CompileM.bind_run_ok hchildren]
              dsimp only
              have hlength' : (front' ++ l :: back).length ≤ most := by
                simp only [List.length_append, List.length_cons] at hlength ⊢
                omega
              rcases ih hfront' ⟨Nat.le_of_lt_succ hb, hbs⟩ hlimit' hlength' with
                herror | ⟨es', front'', d, ds, hbeside, hleast, hrest⟩
              · exact .inl (CompileM.bind_run_error herror _)
              · refine .inr ⟨⟨a.tag, ∅, Row.html a.text, es⟩ :: es', front'', d, ds, ?_, ?_, hrest⟩
                · rw [CompileM.bind_run_ok hbeside]
                  rfl
                · simp only [List.length_append, List.length_cons]
                  omega

end Blocks

/-! ### Sources -/

/-- A line of an outline. -/
inductive Entry where
  /-- The line of a row, with blank characters behind it. -/
  | row (r : Row) (blanks : Text)
  | blank (t : Text)
  /-- A comment behind a margin. -/
  | comment (margin t : Text)

namespace Entry

/-- The line as it is written. -/
def text (unit : Indentation) : Entry → Text
  | row r blanks => r.line unit ++ blanks
  | blank t => t
  | comment margin t => margin ++ '>' :: t

/-- A row is plain, and what should be blank is. -/
def Proper : Entry → Prop
  | row r blanks => r.Plain ∧ Text.allBlank blanks = true
  | blank t => Text.allBlank t = true
  | comment margin _ => Text.allBlank margin = true

instance : (x : Entry) → Decidable x.Proper
  | row r blanks => inferInstanceAs (Decidable (r.Plain ∧ Text.allBlank blanks = true))
  | blank t => inferInstanceAs (Decidable (Text.allBlank t = true))
  | comment margin _ => inferInstanceAs (Decidable (Text.allBlank margin = true))

/-- The row that the line shows. -/
def row? : Entry → Option Row
  | row r _ => some r
  | blank _ | comment .. => none

/-- The lines, numbered from zero. -/
def lines (unit : Indentation) (entries : List Entry) : List SourceLine :=
  SourceLine.numberFrom 0 (entries.map (·.text unit))

/-- The rows that the lines show, in order. -/
def rows (entries : List Entry) : List Row := entries.filterMap row?

/-- The lines as a source: each of them is ended. -/
def source (unit : Indentation) (entries : List Entry) : Text :=
  Text.join ['\n'] (entries.map (·.text unit) ++ [[]])

/-- A source is read in its lines, with the blank ones that are at the end of every source. -/
theorem ofSource_source (unit : Indentation) {entries : List Entry}
    (h : ∀ x ∈ entries, '\n' ∉ x.text unit ∧ '\r' ∉ x.text unit) :
    SourceLine.ofSource (source unit entries)
      = lines unit (entries ++ [.blank [], .blank []]) := by
  have hlines : ∀ t ∈ entries.map (·.text unit) ++ [[]], '\n' ∉ t ∧ '\r' ∉ t := by
    refine List.forall_mem_append.2 ⟨List.forall_mem_map.2 h, ?_⟩
    exact List.forall_mem_singleton.2 ⟨List.not_mem_nil, List.not_mem_nil⟩
  rw [SourceLine.ofSource, source, SourceLine.textsOf_join (by simp) hlines, lines,
    List.map_append, List.append_assoc]
  rfl

/-- A blank line is silent. -/
theorem isSilent_blank {t : Text} (h : Text.allBlank t = true) (n : Nat) :
    SourceLine.isSilent ⟨n, t⟩ = true := by
  rw [SourceLine.isSilent, Text.trim_eq_nil_iff.2 h]

/-- So is a comment behind a margin. -/
theorem isSilent_comment {margin : Text} (h : Text.allBlank margin = true) (t : Text) (n : Nat) :
    SourceLine.isSilent ⟨n, margin ++ '>' :: t⟩ = true := by
  obtain ⟨u, hu⟩ := Text.trimEnd_cons_of_not_isBlank (by decide : Text.isBlank '>' = false) t
  have htrim : Text.trim (margin ++ '>' :: t) = '>' :: u := (Text.trim_append_left h _).trans hu
  rw [SourceLine.isSilent, htrim]
  rfl

/-- The lines of an outline show its rows. -/
theorem shows (unit : Indentation) {entries : List Entry} (h : ∀ x ∈ entries, x.Proper)
    (n : Nat) : Shows unit (SourceLine.numberFrom n (entries.map (·.text unit)))
      (rows entries) := by
  induction entries generalizing n with
  | nil => exact .nil
  | cons x entries ih =>
      obtain ⟨hx, hentries⟩ := List.forall_mem_cons.1 h
      have hrest := ih hentries (n + 1)
      cases x with
      | row r blanks => exact .row hx.1 ⟨blanks, hx.2, rfl⟩ hrest
      | blank t => exact .aside (isSilent_blank hx n) hrest
      | comment margin t => exact .aside (isSilent_comment hx t n) hrest

end Entry

/-- Rows of a forest are read as that forest. -/
theorem readFragment_forest {c : Context} (hunit : 0 < c.indentation.unitLength) (e : Expander)
    {ls : List SourceLine} {nodes : List Node}
    (hls : Shows c.indentation ls (Node.rowsAll 0 nodes)) :
    Block.readFragment e ls c = .ok (Node.elements nodes) c := by
  rw [← List.append_nil (Node.rowsAll 0 nodes)] at hls
  obtain ⟨left, -, -, hread⟩ := readWithin_rowsAll hunit e ls.length hls nofun (Nat.le_refl _)
  exact CompileM.bind_run_ok hread _

/-- A row that is too deep behind steady ones is refused, as no block ends before the margin. -/
theorem readFragment_tooDeep {c : Context} (hunit : 0 < c.indentation.unitLength) (e : Expander)
    {front back : List SourceLine} {above : List Row} {r : Row} {l : SourceLine} (hr : r.Plain)
    (hl : r.Shown c.indentation l) (habove : Shows c.indentation front above)
    (hsteady : Row.Steady 0 above) (hdeep : Row.limitAfter 0 above < r.depth) :
    Block.readFragment e (front ++ l :: back) c = .error (.error
      (c.errorAt (.tooDeep (Row.limitAfter 0 above) r.depth) l.number none)) c := by
  rcases readWithin_tooDeep hunit e _ hr hl habove hsteady rfl hdeep
    (Nat.le_refl (front ++ l :: back).length) with herror | ⟨_, _, a, _, _, _, ha, _⟩
  · exact CompileM.bind_run_error herror _
  · exact absurd ha (Nat.not_lt_zero _)

/-- Lines that show the rows of a forest are read as that forest, also when they are written
one below the other as a source. Lines that show any rows are refused if and only if these are
not steady, and then at the first row that is too deep. -/
theorem readFragment_outline (e : Expander) (c : Context) (hunit : 0 < c.indentation.unitLength)
    (entries : List Entry) (hentries : ∀ x ∈ entries, x.Proper) :
    (∀ nodes, Entry.rows entries = Node.rowsAll 0 nodes →
      Block.readFragment e (Entry.lines c.indentation entries) c
        = .ok (Node.elements nodes) c ∧
      ((∀ x ∈ entries, '\n' ∉ x.text c.indentation ∧ '\r' ∉ x.text c.indentation) →
        Block.readFragment e (SourceLine.ofSource (Entry.source c.indentation entries)) c
          = .ok (Node.elements nodes) c)) ∧
    (∀ above r blanks below, entries = above ++ .row r blanks :: below →
      Row.Steady 0 (Entry.rows above) → Row.limitAfter 0 (Entry.rows above) < r.depth →
      ∃ error, Block.readFragment e (Entry.lines c.indentation entries) c
          = .error (.error error) c ∧ error.kind = .indentation ∧
        error = c.errorAt (.tooDeep (Row.limitAfter 0 (Entry.rows above)) r.depth) above.length
          none) ∧
    ((∃ s d, Block.readFragment e (Entry.lines c.indentation entries) c = .error s d) ↔
      ¬ Row.Steady 0 (Entry.rows entries)) := by
  -- all rows of a forest, the first row that is too deep, and the same lines as a source
  have hforest (nodes : List Node) (hrows : Entry.rows entries = Node.rowsAll 0 nodes) :
      Block.readFragment e (Entry.lines c.indentation entries) c
        = .ok (Node.elements nodes) c :=
    readFragment_forest hunit e (hrows ▸ Entry.shows c.indentation hentries 0)
  have hfirst (above : List Entry) (r : Row) (blanks : Text) (below : List Entry)
      (hsplit : entries = above ++ .row r blanks :: below)
      (hsteady : Row.Steady 0 (Entry.rows above))
      (hdeep : Row.limitAfter 0 (Entry.rows above) < r.depth) :
      Block.readFragment e (Entry.lines c.indentation entries) c = .error (.error
        (c.errorAt (.tooDeep (Row.limitAfter 0 (Entry.rows above)) r.depth) above.length none))
          c := by
    -- the lines above are numbered from zero, so the row stands on the line of their number
    subst hsplit
    obtain ⟨habove, hr, -⟩ := List.forall_mem_append.1 hentries |>.imp_right List.forall_mem_cons.1
    have hlines : Entry.lines c.indentation (above ++ .row r blanks :: below)
        = Entry.lines c.indentation above ++ ⟨above.length, r.line c.indentation ++ blanks⟩ ::
          SourceLine.numberFrom (above.length + 1) (below.map (·.text c.indentation)) := by
      rw [Entry.lines, List.map_append, SourceLine.numberFrom_append, List.length_map,
        Nat.zero_add]
      rfl
    rw [hlines]
    exact readFragment_tooDeep hunit e hr.1 ⟨blanks, hr.2, rfl⟩
      (Entry.shows c.indentation habove 0) hsteady hdeep
  have hsource (nodes : List Node) (hrows : Entry.rows entries = Node.rowsAll 0 nodes)
      (hlines : ∀ x ∈ entries, '\n' ∉ x.text c.indentation ∧ '\r' ∉ x.text c.indentation) :
      Block.readFragment e (SourceLine.ofSource (Entry.source c.indentation entries)) c
        = .ok (Node.elements nodes) c := by
    -- a source has two blank lines more at its end
    have hproper : ∀ x ∈ entries ++ [.blank [], .blank []], x.Proper :=
      List.forall_mem_append.2 ⟨hentries, by decide⟩
    have hshown : Entry.rows (entries ++ [.blank [], .blank []]) = Node.rowsAll 0 nodes := by
      rw [Entry.rows, List.filterMap_append]
      exact (List.append_nil _).trans hrows
    rw [Entry.ofSource_source _ hlines]
    exact readFragment_forest hunit e (hshown ▸ Entry.shows c.indentation hproper 0)
  refine ⟨fun nodes hrows => ⟨hforest nodes hrows, hsource nodes hrows⟩,
    fun above r blanks below hsplit hsteady hdeep =>
      ⟨_, hfirst above r blanks below hsplit hsteady hdeep, rfl, rfl⟩, ?_⟩
  constructor
  -- steady rows are those of a forest, which would have been read
  · rintro ⟨s, d, herror⟩ hsteady
    obtain ⟨nodes, rest, hrows, hrest⟩ := Node.exists_forest _ 0 hsteady
    cases rest with
    | nil =>
        rw [hforest nodes (hrows.trans (List.append_nil _))] at herror
        cases herror
    | cons r rest => exact absurd (hrest r rfl) (Nat.not_lt_zero _)
  · intro hjump
    -- the row that is too deep is shown by an entry, with blank ones and comments in front of it
    obtain ⟨above, r, below, hrows, hsteady, hdeep⟩ := Row.exists_first_of_not_steady hjump
    obtain ⟨before, behind, rfl, rfl, hbehind⟩ := List.filterMap_eq_append_iff.1 hrows
    obtain ⟨asides, x, last, rfl, hasides, hx, -⟩ := List.filterMap_eq_cons_iff.1 hbehind
    have habove : Entry.rows (before ++ asides) = Entry.rows before := by
      rw [Entry.rows, List.filterMap_append, List.filterMap_eq_nil_iff.2 hasides, List.append_nil]
      rfl
    cases x with
    | blank t => cases hx
    | comment margin t => cases hx
    | row r' blanks =>
        cases hx
        exact ⟨_, _, hfirst (before ++ asides) r blanks last (List.append_assoc _ _ _).symm
          (habove ▸ hsteady) (habove ▸ hdeep)⟩

/-- A context whose lines are indented by two spaces. -/
def twoSpaces : Context := { Context.start with indentation := .ofWidth 2 }

/-- Two levels close at once, with a blank line and a comment between them. -/
def closingEntries : List Entry :=
  [.row ⟨0, "div".toList, []⟩ [], .row ⟨1, ['p'], "x & y".toList⟩ [' '], .blank ['\t'],
    .row ⟨2, ['b'], ['z']⟩ [], .comment "   ".toList " note".toList, .row ⟨0, "hr".toList, []⟩ []]

/-- A row two levels below the one before. -/
def jumpingEntries : List Entry :=
  [.row ⟨0, "div".toList, []⟩ [], .row ⟨2, ['b'], ['x']⟩ [], .row ⟨5, ['i'], []⟩ [], .blank []]

theorem readFragment_outline_twoSpaces :
    Entry.source twoSpaces.indentation closingEntries
        = ".div\n  .p x & y \n\t\n    .b z\n   > note\n.hr\n".toList ∧
      Block.readFragment (expander 0)
          (SourceLine.ofSource (Entry.source twoSpaces.indentation closingEntries)) twoSpaces
        = .ok (Node.elements [⟨"div".toList, [], [⟨['p'], "x & y".toList, [⟨['b'], ['z'], []⟩]⟩]⟩,
          ⟨"hr".toList, [], []⟩]) twoSpaces ∧
      (∃ error, Block.readFragment (expander 0)
          (Entry.lines twoSpaces.indentation jumpingEntries) twoSpaces
            = .error (.error error) twoSpaces ∧ error.kind = .indentation ∧ error.line = 1) ∧
      ¬ Row.Steady 0 (Entry.rows jumpingEntries) := by
  have hunit : 0 < twoSpaces.indentation.unitLength := by decide
  have hclosing := readFragment_outline (expander 0) twoSpaces hunit closingEntries (by decide)
  have hjumping := readFragment_outline (expander 0) twoSpaces hunit jumpingEntries (by decide)
  obtain ⟨error, herror, hkind, hplace⟩ := hjumping.2.1 [.row ⟨0, "div".toList, []⟩ []]
    ⟨2, ['b'], ['x']⟩ [] [.row ⟨5, ['i'], []⟩ [], .blank []] rfl ⟨Nat.le_refl _, trivial⟩
    (by decide)
  refine ⟨by decide, (hclosing.1 _ rfl).2 (by decide), ⟨error, herror, hkind, hplace ▸ rfl⟩, ?_⟩
  exact hjumping.2.2.1 ⟨_, _, herror⟩

end IndentMarkup
