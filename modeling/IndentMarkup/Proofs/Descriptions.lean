import IndentMarkup.Proofs.Boundary
import IndentMarkup.Proofs.Grammar
import IndentMarkup.Proofs.Independence
import IndentMarkup.Proofs.Literals

/-!
Headings with a description.

The line of a section or a tab is a name with a description behind it in round brackets. Where the
brackets start is found by a scan for brackets outside spans and a search backwards; what stands
in them is read by the automaton of the shorthand. If the name has no brackets outside its spans,
and the description is written with its special characters escaped, both find the same brackets,
and the line gives back name and description.

* `Heading.ownsBrackets` — the spans of a text are closed, and its brackets stand in them.
* `Heading.escaped` — a description as it is written in brackets.
* `Heading.split_written`, `Heading.readAll_group` — the brackets are found, and read.
* `Heading.readTop_written` — what a line with a name, and with a description or without one, opens.
-/

namespace IndentMarkup

namespace Heading

/-! ### Names and descriptions as they are written -/

/-- The spans of a text are closed, from a place on that is in `depth` of them, there is no
backslash, and all brackets stand in spans. -/
def ownsBrackets : (depth : Nat) → Text → Bool
  | depth, [] => depth = 0
  | depth, c :: t =>
      if c = '\\' then false
      else if c = '<' then ownsBrackets (depth + 1) t
      else if c = '>' then depth ≠ 0 && ownsBrackets (depth - 1) t
      else (depth ≠ 0 || (Bracket.opening? c).isNone && (Bracket.closing? c).isNone)
        && ownsBrackets depth t

/-- The character means something in a heading: it is a backslash, an angle bracket or a
bracket. -/
def isSpecial (c : Char) : Bool :=
  c ∈ ['\\', '<', '>'] || (Bracket.opening? c).isSome || (Bracket.closing? c).isSome

/-- A description as it is written in brackets: its special characters stand behind
backslashes. -/
def escaped (d : Text) : Text := d.flatMap fun c => if isSpecial c then ['\\', c] else [c]

theorem escaped_cons (c : Char) (d : Text) :
    escaped (c :: d) = (if isSpecial c then ['\\', c] else [c]) ++ escaped d := List.flatMap_cons

/-- A description in its brackets. -/
def group (d : Text) : Text := '(' :: (escaped d ++ [')'])

/-! ### The brackets outside spans -/

/-- A name has no brackets outside spans. -/
theorem bracketsFrom_name {depth : Nat} {n : Text} (h : ownsBrackets depth n = true)
    (offset : Nat) (t : Text) :
    bracketsFrom 0 depth offset (n ++ t) = bracketsFrom 0 0 (offset + n.length) t := by
  induction n generalizing depth offset with
  | nil =>
      obtain rfl : depth = 0 := by simpa [ownsBrackets] using h
      rfl
  | cons c n ih =>
      rw [List.length_cons, Nat.add_comm n.length, ← Nat.add_assoc]
      rw [ownsBrackets] at h
      by_cases hslash : c = '\\'
      · simp [hslash] at h
      rw [if_neg hslash] at h
      rw [List.cons_append, bracketsFrom, if_neg hslash]
      by_cases hopen : c = '<'
      · rw [if_pos hopen] at h ⊢
        exact ih h _
      rw [if_neg hopen] at h ⊢
      by_cases hclose : c = '>'
      · rw [if_pos hclose] at h ⊢
        exact ih (Bool.and_eq_true_iff.1 h).2 _
      rw [if_neg hclose] at h ⊢
      obtain ⟨hbracket, h⟩ := Bool.and_eq_true_iff.1 h
      have hnone : ¬(depth = 0 ∧ ((Bracket.opening? c).isSome ∨ (Bracket.closing? c).isSome)) := by
        rintro ⟨rfl, hsome⟩
        cases hopening : Bracket.opening? c <;> cases hclosing : Bracket.closing? c <;>
          simp_all
      rw [if_neg hnone]
      exact ih h _

/-- A description has no brackets but those behind backslashes. -/
theorem bracketsFrom_escaped (d : Text) (offset : Nat) (t : Text) :
    bracketsFrom 0 0 offset (escaped d ++ t)
      = bracketsFrom 0 0 (offset + (escaped d).length) t := by
  induction d generalizing offset with
  | nil => rfl
  | cons c d ih =>
      rw [escaped_cons, List.append_assoc, List.length_append, ← Nat.add_assoc]
      cases hspecial : isSpecial c with
      | true =>
          rw [if_pos rfl, List.cons_append, List.cons_append, bracketsFrom, if_pos rfl]
          exact ih _
      | false =>
          rw [if_neg Bool.false_ne_true, List.cons_append, bracketsFrom]
          simp only [isSpecial, Bool.or_eq_false_iff, decide_eq_false_iff_not, List.mem_cons,
            List.not_mem_nil, or_false, not_or] at hspecial
          obtain ⟨⟨⟨hslash, hopen, hclose⟩, hopening⟩, hclosing⟩ := hspecial
          rw [if_neg hslash, if_neg hopen, if_neg hclose,
            if_neg (by simp [hopening, hclosing])]
          exact ih _

section Split

variable {n : Text} (hn : ownsBrackets 0 n = true)
include hn

theorem split_name : split n = (n, []) := by
  have hnone : bracketsFrom 0 0 0 n = [] := by
    rw [← List.append_nil n, bracketsFrom_name hn]
    rfl
  rw [split, hnone]
  simp [groupsStart]

/-- The brackets of a description are found at the end. -/
theorem split_written (d : Text) : split (n ++ group d) = (n, group d) := by
  have hbrackets : bracketsFrom 0 0 0 (n ++ group d)
      = [(n.length, '('), (n.length + 1 + (escaped d).length, ')')] := by
    rw [bracketsFrom_name hn, Nat.zero_add, group, bracketsFrom, if_neg (by decide),
      if_neg (by decide), if_neg (by decide), if_pos ⟨rfl, by decide⟩, bracketsFrom_escaped,
      bracketsFrom, if_neg (by decide), if_neg (by decide), if_neg (by decide),
      if_pos ⟨rfl, by decide⟩, bracketsFrom]
  have hlength : (n ++ group d).length = n.length + 1 + (escaped d).length + 1 := by
    simp only [group, List.length_append, List.length_cons, List.length_nil]
    omega
  have hstart : groupsStart (n ++ group d).length none (bracketsFrom 0 0 0 (n ++ group d)).reverse
      = n.length := by
    rw [hbrackets, hlength]
    simp [groupsStart, Bracket.closing?, Bracket.all, Bracket.closer, Bracket.opener]
  rw [split, hstart, List.splitAt_eq]
  simp

end Split

/-! ### What stands in the brackets -/

/-- The automaton reads a description back. -/
theorem readAll_group (d : Text) : Shorthand.readAll (group d) = .ok ⟨[], [⟨.round, d⟩], []⟩ := by
  have hbody : Shorthand.Body (escaped d) d := by
    induction d with
    | nil => exact .nil
    | cons c d ih =>
        rw [escaped_cons]
        cases hspecial : isSpecial c with
        | true => exact .escaped ih
        | false =>
            simp only [isSpecial, Bool.or_eq_false_iff, decide_eq_false_iff_not, List.mem_cons,
              List.not_mem_nil, or_false, not_or] at hspecial
            exact .plain hspecial.1.1.1 (by simpa using hspecial.2) ih
  refine Shorthand.read_of_written ⟨.nil, ⟨_, .cons (b := .round) hbody .nil .nil, ?_⟩, .inl rfl⟩
  simp [group, Bracket.opener, Bracket.closer]

theorem readDescription_group (d : Text) (line column : Nat) :
    readDescription (group d) line column = pure (some d) := by
  have hvalue : Shorthand.value? ⟨[], [⟨.round, d⟩], []⟩ .round = some d := by
    rw [Shorthand.value?_eq_some_iff]
    refine ⟨⟨_, List.mem_singleton_self _, rfl⟩, ?_⟩
    by_cases hd : d = []
    · subst hd
      rfl
    · simp [hd, Text.join]
  have hsome : group d ≠ [] := List.cons_ne_nil _ _
  rw [readDescription, if_neg hsome, readAll_group]
  dsimp only
  rw [hvalue]
  rfl

/-! ### Lines -/

/-- What a line at the top level can open: a section whose name is shown or is not, or a tab. -/
inductive Mark where
  | titled
  | untitled
  | tab
  deriving DecidableEq, Repr

namespace Mark

/-- What the line starts with. -/
def text : Mark → Text
  | titled => ['#']
  | untitled => ['#', '#']
  | tab => ['@']

/-- What the line does to the outline. -/
def opens : Mark → Outline → Heading → CompileM Outline
  | titled, o, h => Document.openSection o h true
  | untitled, o, h => Document.openSection o h false
  | tab, o, h => Document.openTab o h

variable {e : Expander} {x : Line → CompileM (List Tab)}

theorem readLine_mark (mark : Mark) {l : Line} {t : Text} (hmargin : l.depth = 0)
    (hcontent : l.content = mark.text ++ t) (ht : t.head? ≠ some '#') (o : Outline)
    (back : List SourceLine) :
    Document.readLine e x o l back = (do
      let h ← Heading.read e l mark.text.length
      return (← mark.opens o h, back)) := by
  have hdepth : ¬ 0 < l.depth := by omega
  rw [Document.readLine, if_neg hdepth, Line.kind, hcontent]
  cases mark with
  | titled =>
      have hmarker : Document.sectionMarker ('#' :: t) = 1 := by
        unfold Document.sectionMarker
        split
        · next u heq =>
            rw [(List.cons.inj heq).2] at ht
            exact absurd rfl ht
        · rfl
      change (do
        let heading ← Heading.read e l (Document.sectionMarker ('#' :: t))
        return (← Document.openSection o heading
          (decide (Document.sectionMarker ('#' :: t) = 1)), back)) = _
      rw [hmarker]
      rfl
  | untitled => rfl
  | tab => rfl

/-- A line with a trimmed text behind its mark. -/
theorem readTop_mark (mark : Mark) {u : Text} (hu : Text.trim u = u) (k : Nat) (o : Outline)
    (back : List SourceLine) : ∃ l : Line, l.number = k ∧
      Text.trim (l.content.drop mark.text.length) = u ∧
      Document.readTop e x o (⟨k, mark.text ++ ' ' :: u⟩ :: back) = (do
        let h ← Heading.read e l mark.text.length
        let o ← mark.opens o h
        Document.readTop e x o back) := by
  obtain ⟨d, t, hmark, hd, hcomment⟩ : ∃ d t, mark.text = d :: t ∧ Text.isBlank d = false ∧
      d ≠ '>' := by
    cases mark <;> exact ⟨_, _, rfl, by decide, by decide⟩
  obtain ⟨v, hend, hv, hhead⟩ : ∃ v, Text.trimEnd (mark.text ++ ' ' :: u) = mark.text ++ v ∧
      Text.trim v = u ∧ v.head? ≠ some '#' := by
    by_cases hsome : u = []
    · subst hsome
      refine ⟨[], ?_, rfl, nofun⟩
      rw [Text.trimEnd_append_of_allBlank _ (by decide), List.append_nil]
      cases mark <;> decide
    · have hsolid : Text.allBlank u = false := by
        rw [← Bool.not_eq_true, ← Text.trim_eq_nil_iff, hu]
        exact hsome
      refine ⟨' ' :: u, ?_, (Text.trim_append_left (s := [' ']) rfl u).trans hu, by simp⟩
      rw [List.append_cons, Text.trimEnd_append_of_not_allBlank _ hsolid,
        Text.trimEnd_of_trim hu, ← List.append_cons]
  refine ⟨⟨k, 0, 0, mark.text ++ v⟩, rfl, by rw [List.drop_left]; exact hv, ?_⟩
  have hline := readLine_mark (e := e) (x := x) mark (l := ⟨k, 0, 0, mark.text ++ v⟩) rfl rfl hhead
    o back
  rw [hmark, List.cons_append] at hend ⊢
  rw [Document.readTop_of_head hd hcomment, hend, ← hmark, hline]
  simp only [bind_assoc, pure_bind]

end Mark

/-- A heading is read from the name and the description that its text is split into. -/
theorem read_of_split {e : Expander} {l : Line} {marker column : Nat} {n groups html : Text}
    {description : Option Text} {c after : Context}
    (hraw : Text.trim (l.content.drop marker) = n ++ groups)
    (hsplit : split (n ++ groups) = (n, groups)) (htrim : Text.trim n = n)
    (hdescription : ∀ line column, readDescription groups line column = pure description)
    (hformat : Inline.format e n l.number column c = .ok html after) :
    read e l marker c = .ok ⟨if n = [] then none else some html, description⟩ after := by
  rw [read]
  dsimp only
  rw [hraw, hsplit]
  dsimp only
  rw [hdescription, pure_bind, htrim]
  by_cases hn : n = []
  · subst hn
    rw [if_pos rfl, if_pos rfl]
    cases hformat
    rfl
  · rw [if_neg hn, if_neg hn, CompileM.bind_run_ok ((Coupling.elsewhere_ok
      (Inline.elsewhere_format n column _ c c rfl)).1 hformat)]
    rfl

/-- Name and description of a section or a tab are read back. The name is trimmed, its spans are
closed, and it has no backslash and no brackets outside its spans; it becomes what the formatter
makes of it, and none if it is empty. The description may be any text. -/
theorem readTop_written {n : Text} (hn : ownsBrackets 0 n = true) (htrim : Text.trim n = n)
    {e : Expander} {k column : Nat} {html : Text} {c after : Context}
    (hformat : Inline.format e n k column c = .ok html after)
    (x : Line → CompileM (List Tab)) (mark : Mark) (d : Text) (o : Outline)
    (back : List SourceLine) :
    let name := if n = [] then none else some html
    Document.readTop e x o (⟨k, mark.text ++ ' ' :: (n ++ group d)⟩ :: back) c
      = (mark.opens o ⟨name, some d⟩ >>= fun o => Document.readTop e x o back) after ∧
    Document.readTop e x o (⟨k, mark.text ++ ' ' :: n⟩ :: back) c
      = (mark.opens o ⟨name, none⟩ >>= fun o => Document.readTop e x o back) after := by
  have hgroup : Text.trim (n ++ group d) = n ++ group d := by
    have hlast : n ++ group d = (n ++ '(' :: escaped d) ++ [')'] := by simp [group]
    cases n with
    | nil => exact Text.trim_of_ends _ (c := '(') rfl hlast (by decide) (by decide)
    | cons b n =>
        have hb := Text.isBlank_of_trimStart (Text.trimStart_of_trim htrim)
        exact Text.trim_of_ends _ (c := b) rfl hlast hb (by decide)
  constructor
  · obtain ⟨l, rfl, hraw, hread⟩ := mark.readTop_mark hgroup k o back (e := e) (x := x)
    rw [hread, CompileM.bind_run_ok (read_of_split hraw (split_written hn d) htrim
      (readDescription_group d) hformat)]
  · obtain ⟨l, rfl, hraw, hread⟩ := mark.readTop_mark htrim k o back (e := e) (x := x)
    rw [← List.append_nil n] at hraw
    have hsplit : split (n ++ []) = (n, []) := by rw [List.append_nil, split_name hn]
    rw [hread, CompileM.bind_run_ok (read_of_split hraw hsplit htrim (fun _ _ => rfl) hformat)]

theorem readTop_written_bold :
    let name := "a <b(x) [c]>é".toList
    let html := "a <b class=\"x\">[c]</b>é".toList
    let opens (h : Heading) := (Document.openSection ∅ h true >>= fun o =>
      Document.readTop (expander 0) (fun _ => pure []) o []) .start
    ownsBrackets 0 name = true ∧ Text.trim name = name ∧
    Inline.format (expander 0) name 4 2 .start = .ok html .start ∧
    Document.readTop (expander 0) (fun _ => pure []) ∅
        [⟨4, "# a <b(x) [c]>é(x\\) \\\\ \\<y\\>)".toList⟩] .start
      = opens ⟨some html, some "x) \\ <y>".toList⟩ ∧
    Document.readTop (expander 0) (fun _ => pure []) ∅ [⟨4, "# a <b(x) [c]>é".toList⟩] .start
      = opens ⟨some html, none⟩ := by
  have hn : ownsBrackets 0 "a <b(x) [c]>é".toList = true := by decide
  have htrim : Text.trim "a <b(x) [c]>é".toList = "a <b(x) [c]>é".toList := by decide
  have hformat : Inline.format (expander 0) "a <b(x) [c]>é".toList 4 2 .start
      = .ok "a <b class=\"x\">[c]</b>é".toList .start :=
    Inline.format_of_run' (by decide +kernel) (by decide +kernel)
  obtain ⟨hboth, hname⟩ := readTop_written hn htrim hformat (fun _ => pure []) .titled
    "x) \\ <y>".toList ∅ []
  exact ⟨hn, htrim, hformat, hboth, hname⟩

end Heading

end IndentMarkup
