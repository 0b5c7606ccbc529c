import IndentMarkup.Proofs.Columns.Surplus
import IndentMarkup.Proofs.Effects

/-!
The columns that readers report.

Every error with a column is found at some character of what a reader has in hand: in a line, in
the text behind its tag, in the body of a span. So if all columns up to the end of a line, with the
surplus that is counted inside of it, are places that may be reported, then all that is reported on
it is at such a place.

* `Points` — what an action gives, and where it fails.
* `Inline.points_format` — a text is reported on up to its end and its surplus.
* `Line.Within`, `SourceLine.Within` — lines whose columns may be reported.
* `Heading.points_read`, `Block.points_readTag`, `Block.points_readLineWith` — what a line says.
* `Document.points_readSource` — all lines of a source.
-/

namespace IndentMarkup

/-! ### Where actions fail -/

/-- What the action gives has the property, and an error with a column is at a place that may be
reported. -/
def Points {α : Type} (place : Nat → Nat → Prop) (p : α → Prop) (x : CompileM α) : Prop :=
  ∀ c, match x c with
    | .ok a _ => p a
    | .error (.error e) _ => ∀ column, e.column = some column → place e.line column
    | .error .exhausted _ => True

namespace Points

variable {α β : Type} {place : Nat → Nat → Prop} {p : α → Prop} {q : β → Prop}

/-- An action that gives something at once does not fail. -/
theorem pure {a : α} (h : p a) : Points place p (Pure.pure a) := fun _ => h

/-- A failure with a column is at a place that may be reported. -/
theorem failAt {cause : Cause} {n column : Nat} (h : place n column) :
    Points place p (CompileM.failAt cause n (some column)) := by
  intro c column' heq
  cases heq
  exact h

/-- A failure without a column claims nothing. -/
theorem failAt_none (cause : Cause) (n : Nat) : Points place p (CompileM.failAt cause n none) := by
  intro c column heq
  cases heq

/-- Actions one after the other fail where one of them does. -/
theorem bind {x : CompileM α} {f : α → CompileM β} (hx : Points place p x)
    (hf : ∀ a, p a → Points place q (f a)) : Points place q (x >>= f) := by
  intro c
  have hrun := hx c
  rw [CompileM.bind_run]
  cases hx : x c with
  | ok a after =>
      rw [hx] at hrun
      exact hf a hrun after
  | error s after =>
      rw [hx] at hrun
      cases s <;> exact hrun

/-- An action may look at the context. -/
theorem look {f : Context → CompileM α} (h : ∀ c, Points place p (f c)) :
    Points place p (get >>= f) :=
  fun c => h c c

/-- A branch may use that it is taken. -/
theorem ite {b : Prop} [Decidable b] {x y : CompileM α} (hx : b → Points place p x)
    (hy : ¬ b → Points place p y) : Points place p (if b then x else y) := by
  split
  · next h => exact hx h
  · next h => exact hy h

/-- Changes of the context fail without a column. -/
theorem change (n : Nat) (f : Context → Except Cause Context) :
    Points place (fun _ => True) (CompileM.change n f) := by
  intro c
  unfold CompileM.change
  cases f c with
  | ok after => trivial
  | error cause =>
      intro column heq
      cases heq

end Points

/-! ### Lines -/

section Lines

variable {place : Nat → Nat → Prop}

/-- Trimming makes no text longer. -/
theorem Text.length_trimEnd_le (t : Text) : (Text.trimEnd t).length ≤ t.length := by
  obtain ⟨blanks, -, hstart⟩ := Text.exists_eq_trimEnd_append t
  have hlength := congrArg List.length hstart
  rw [List.length_append] at hlength
  omega

/-- Neither does trimming at both ends. -/
theorem Text.length_trim_le (t : Text) : (Text.trim t).length ≤ t.length :=
  (Text.length_trimEnd_le _).trans (Text.trimStart_suffix t).length_le

/-- A tag goes wrong within its text. -/
theorem Shorthand.column_le {t : Text} {e : ShorthandError} (h : readToken t = .error e) :
    e.column ≤ t.length := by
  obtain ⟨before, hbefore, hcolumn, -⟩ := exists_of_readFrom_eq_error h
  have hlength := hbefore.length_le
  omega

/-- The columns of a line may be reported: those up to its end and as far behind it as references
are longer than escapes, and at the margin, where headings stand, as far as blank characters have
more bytes than one. No line at the margin includes a file. -/
structure Line.Within (place : Nat → Nat → Prop) (l : Line) : Prop where
  column : ∀ column ≤ l.width + l.content.length + Inline.surplus l.content, place l.number column
  heading : l.depth = 0 → ∀ column ≤ l.width + l.content.length + Heading.surplus l.content
    + Inline.surplus l.content, place l.number column
  inclusion : l.depth = 0 → l.kind ≠ .inclusion

/-- The columns of a line may be reported, however it is measured. -/
structure SourceLine.Within (place : Nat → Nat → Prop) (l : SourceLine) : Prop where
  line {unit : Indentation} {m : Line} : l.scan unit = .ok m → m.Within place
  fault {unit : Indentation} {err : IndentError} : l.scan unit = .error err →
    place err.line err.column

/-- The columns of all lines may be reported. -/
abbrev AllWithin (place : Nat → Nat → Prop) (ls : List SourceLine) : Prop :=
  ∀ l ∈ ls, l.Within place

/-- Lines that are left are lines that were there. -/
theorem AllWithin.of_suffix {ls rest : List SourceLine} (h : AllWithin place ls)
    (hrest : rest <:+ ls) : AllWithin place rest :=
  fun l hl => h l (hrest.subset hl)

/-- A line that cannot be measured fails at one of its columns. -/
theorem points_scan {l : SourceLine} (hl : l.Within place) :
    Points place (Line.Within place) (CompileM.scan l) := by
  intro c
  unfold CompileM.scan
  cases hscan : l.scan c.indentation with
  | ok m => exact hl.line hscan
  | error err =>
      intro column heq
      cases heq
      exact hl.fault hscan

/-- A description goes wrong within its groups. -/
theorem Heading.points_readDescription {groups : Text} {line column : Nat}
    (hplace : ∀ column' ≤ column + groups.length, place line column') :
    Points place (fun _ => True) (readDescription groups line column) := by
  unfold readDescription
  refine .ite (fun _ => .pure trivial) fun _ => ?_
  cases hread : Shorthand.readAll groups with
  | error err =>
      obtain ⟨before, hbefore, hcolumn, -⟩ := Shorthand.exists_of_readFrom_eq_error hread
      have hlength := hbefore.length_le
      exact .failAt (hplace _ (by omega))
  | ok s =>
      exact .ite (fun _ => .pure trivial) fun _ => .failAt (hplace _ (Nat.le_add_right _ _))

namespace Block

/-- The next line is one of those that were there. -/
theorem points_next {ls : List SourceLine} (hls : AllWithin place ls) :
    Points place (fun found => ∀ r, found = some r → r.1.Within place ∧ AllWithin place r.2)
      (next ls) := by
  have hskip : AllWithin place (skipSilent ls) := hls.of_suffix (List.dropWhile_suffix _)
  unfold next
  generalize skipSilent ls = found at hskip
  cases found with
  | nil => exact .pure nofun
  | cons l rest =>
      refine (points_scan (hskip l List.mem_cons_self)).bind fun m hm => .pure fun r hr => ?_
      cases hr
      exact ⟨hm, hskip.of_suffix (List.suffix_cons _ _)⟩

/-- The lines that a line owns cannot be taken if one of them cannot be measured. -/
theorem exists_scan_of_takeDeeper {unit : Indentation} {depth : Nat} {ls : List SourceLine}
    {err : IndentError} (h : takeDeeper unit depth ls = .error err) :
    ∃ l ∈ ls, l.scan unit = .error err := by
  -- on the lines that are taken: the one that cannot be measured comes now or later
  induction ls with
  | nil => cases h
  | cons l ls ih =>
      have hmore (h : takeDeeper unit depth ls = .error err) :
          ∃ l' ∈ l :: ls, l'.scan unit = .error err := by
        obtain ⟨l', hl', hscan⟩ := ih h
        exact ⟨l', List.mem_cons_of_mem _ hl', hscan⟩
      unfold takeDeeper at h
      split at h
      · split at h
        · next hrun =>
            cases h
            exact hmore hrun
        · split at h <;> cases h
      · split at h
        · next hscan =>
            cases h
            exact ⟨l, List.mem_cons_self, hscan⟩
        · split at h
          · cases h
          · split at h
            · next hrun =>
                cases h
                exact hmore hrun
            · cases h

/-- A body leaves lines that were there, or fails at the column of one of them. -/
theorem points_takeBody {ls : List SourceLine} (hls : AllWithin place ls) (depth : Nat) :
    Points place (fun r => AllWithin place r.2) (takeBody depth ls) := by
  intro c
  unfold takeBody
  cases hbody : takeDeeper c.indentation depth ls with
  | error err =>
      obtain ⟨l, hl, hscan⟩ := exists_scan_of_takeDeeper hbody
      intro column heq
      cases heq
      exact (hls l hl).fault hscan
  | ok r =>
      obtain ⟨taken, htaken, -⟩ := takeDeeper_takes hbody
      exact hls.of_suffix ⟨taken, htaken.symm⟩

/-- The text of a line ends where the line ends. -/
def TagLine.Within (place : Nat → Nat → Prop) (n : Nat) (head : TagLine) : Prop :=
  ∀ column ≤ head.column + head.text.length + Inline.surplus head.text, place n column

/-- The token of a line goes wrong on the line, and its text ends there. -/
theorem points_readTag {l : Line} (hl : l.Within place) :
    Points place (TagLine.Within place l.number) (readTag l) := by
  have tagged : Points place (TagLine.Within place l.number) (readTagged l) := by
    unfold readTagged
    cases hread : Shorthand.readToken l.content with
    | error err =>
        have hcolumn := Shorthand.column_le hread
        exact .failAt (hl.column _ (by omega))
    | ok s =>
        have hlength := ((Text.trimStart_suffix s.rest).trans
          (Shorthand.rest_suffix hread)).length_le
        have htrim := Text.length_trimEnd_le (Text.trimStart s.rest)
        have hsurplus := (Inline.surplus_trim_le s.rest).trans (Inline.surplus_rest_le hread)
        rw [← Text.trim] at htrim
        dsimp only
        split
        · exact .pure fun column hcolumn => hl.column _ (by dsimp only at hcolumn; omega)
        · exact .pure fun column hcolumn => hl.column _ (by dsimp only at hcolumn; omega)
  have whole : TagLine.Within place l.number (.plain l.content l.width) := hl.column
  unfold readTag
  split
  · exact .pure whole
  -- behind the backslash of a marker stands the whole text, with no more surplus than the line
  · next first c t hkind hcontent =>
      refine .ite (fun hmarker => .pure fun column hcolumn => hl.column _ ?_) fun _ => .pure whole
      obtain ⟨u, hu⟩ := List.head?_eq_some_iff.1 (LineKind.head?_of_ofContent hkind rfl)
      obtain ⟨rfl, rfl⟩ : first = '\\' ∧ c :: t = u := by
        rw [hu] at hcontent
        cases hcontent
        exact ⟨rfl, rfl⟩
      have hsurplus : Inline.surplus (c :: t) ≤ Inline.surplus ('\\' :: c :: t) := by
        refine Inline.surplus_le_append (t := ['\\']) (fun _ d hd => ?_) 0
        cases hd
        exact Inline.escapable?_of_marker hmarker.1 hmarker.2
      simp only [TagLine.plain] at hcolumn
      rw [hcontent, List.length_cons]
      omega
  · exact .pure whole
  · exact tagged

/-- The lines that are left may be reported. -/
abbrev Leaves (place : Nat → Nat → Prop) {α : Type} (r : α × List SourceLine) : Prop :=
  AllWithin place r.2

/-- An image looks at one line and leaves all of them. -/
theorem points_readImage (l : Line) (head : TagLine) {ls : List SourceLine}
    (hls : AllWithin place ls) : Points place (Leaves place) (readImage l head ls) := by
  unfold readImage
  cases head.attributes.find? "href".toList with
  | none => exact .failAt_none _ _
  | some source =>
      refine (points_next hls).bind fun below _ => ?_
      cases below with
      | none => exact .pure hls
      | some found => exact .ite (fun _ => .failAt_none _ _) fun _ => .pure hls

/-- A custom class leaves lines that were there. -/
theorem points_readClass (l : Line) {ls : List SourceLine} (hls : AllWithin place ls) :
    Points place (AllWithin place) (readClass l ls) := by
  unfold readClass
  refine .ite (fun _ => .failAt_none _ _) fun _ => ?_
  exact (points_takeBody hls _).bind fun _ hrest => (Points.change _ _).bind fun _ _ => .pure hrest

/-- So does a definition. -/
theorem points_readDefinition (l : Line) (signature : Text) {ls : List SourceLine}
    (hls : AllWithin place ls) :
    Points place (AllWithin place) (readDefinition l signature ls) := by
  unfold readDefinition
  cases Text.words signature with
  | nil => exact .failAt_none _ _
  | cons name parameters =>
      refine .look fun c => (points_takeBody hls _).bind fun _ hrest => ?_
      exact (Points.change _ _).bind fun _ _ => .pure hrest

end Block

/-- The marker of a heading, and the blank characters behind it. -/
theorem Document.sectionMarker_spec {t : Text} (h : t.head? = some '#') :
    sectionMarker t ≤ t.length ∧ (t.take (sectionMarker t)).getLast? ≠ some '\\' ∧
      Heading.surplus t = Text.blankSurplus (t.drop (sectionMarker t)) := by
  obtain ⟨u, rfl⟩ := List.head?_eq_some_iff.1 h
  rcases u with - | ⟨c, u⟩
  · exact ⟨by decide, by decide, rfl⟩
  · by_cases hdouble : c = '#'
    · subst hdouble
      exact ⟨Nat.le_add_left _ _, by simp [sectionMarker], rfl⟩
    · rw [Heading.surplus_single hdouble, sectionMarker.eq_def]
      simp [hdouble]

end Lines

/-! ### Formatted texts -/

section Readers

variable {place : Nat → Nat → Prop} {e : Expander}
  (he : ∀ name values n, Points place (fun _ => True) (e name values n))

namespace Inline

/-- The formatter of spans reports columns up to the end of a body that has no escapes. -/
def PointsSpans (place : Nat → Nat → Prop) (span : Text → Nat → CompileM Text) (line : Nat) :
    Prop :=
  ∀ body column, surplus body = 0 → (∀ column' ≤ column + body.length, place line column') →
    Points place (fun _ => True) (span body column)

/-- A span is reported on in its shorthand, and in the text behind it. -/
theorem points_spanHtml {inner : Text → Nat → CompileM Text} {line : Nat}
    (hinner : ∀ t column, (∀ column' ≤ column + t.length + surplus t, place line column') →
      Points place (fun _ => True) (inner t column)) :
    PointsSpans place (spanHtml inner line) line := by
  intro body column hbody hplace
  unfold spanHtml
  refine .ite (fun _ => .pure trivial) fun _ => ?_
  cases hread : Shorthand.readToken body with
  | error err =>
      have hcolumn := Shorthand.column_le hread
      exact .failAt (hplace _ (by omega))
  | ok s =>
      have hlength := ((Text.trimStart_suffix s.rest).trans (Shorthand.rest_suffix hread)).length_le
      have hsurplus := (surplus_trimStart_le s.rest).trans (surplus_rest_le hread)
      exact (hinner _ _ fun column' hcolumn => hplace _ (by omega)).bind fun _ _ => .pure trivial

include he

/-- A call is reported on at one of the columns up to the last, and leaves no more surplus. -/
theorem points_callHtml {line last : Nat} {t : Text}
    (hplace : ∀ column ≤ last, place line column) :
    Points place (fun r => t.drop r.2 <:+ t ∧ surplus (t.drop r.2) ≤ surplus ('<' :: '~' :: t))
      (callHtml e line last t) := by
  unfold callHtml
  refine .ite (fun _ => .failAt (hplace _ (Nat.le_refl _))) fun _ => .look fun c => ?_
  cases c.template? (Call.name t) with
  | none => exact .failAt (hplace _ (Nat.sub_le _ _))
  | some m =>
      dsimp only
      cases hread : Call.read? m.arity t with
      | none => exact .failAt (hplace _ (Nat.le_refl _))
      | some call =>
          obtain ⟨front, rest, ht, hlength, hlast, -⟩ := Call.exists_of_read hread
          have hrest : t.drop call.used = rest := by rw [ht, ← hlength, List.drop_left]
          refine (he _ _ _).bind fun _ _ => .pure ⟨List.drop_suffix _ _, ?_⟩
          rw [hrest, ht]
          refine surplus_le_append (t := '<' :: '~' :: front) (fun hslash => ?_) 0
          cases front with
          | nil => simp at hslash
          | cons d front => exact absurd (by simpa using hslash) hlast

/-- From any place on, a text is reported on up to its end and its surplus. -/
theorem points_formatAfter {span : Text → Nat → CompileM Text} {line last : Nat}
    (hspan : PointsSpans place span line) {t : Text} (ht : t.length ≤ last)
    (hplace : ∀ column ≤ last + surplus t, place line column) :
    Points place (fun _ => True) (formatAfter e span line last 0 t) := by
  -- What is left is shorter and has no more surplus, so its columns are among those of the whole.
  induction hlength : t.length using Nat.strongRecOn generalizing t with
  | ind n ih =>
      subst hlength
      have hlast : ∀ column ≤ last, place line column :=
        fun column hcolumn => hplace column (Nat.le_add_right_of_le hcolumn)
      have hrest {u : Text} (hu : u.length < t.length) (hsurplus : surplus u ≤ surplus t) :
          Points place (fun _ => True) (formatAfter e span line last 0 u) :=
        ih u.length hu (by omega) (fun column hcolumn => hplace column (by omega)) rfl
      -- the end of the text, an escape, a call, a span, a closing bracket, or another character
      cases t with
      | nil => exact .pure trivial
      | cons c t =>
          cases hescape : escapeAt? (c :: t) with
          | some entity =>
              obtain ⟨rfl, d, u, rfl, hentity⟩ := exists_of_escapeAt? hescape
              have hshort : u.length < ('\\' :: d :: u).length := by
                rw [List.length_cons, List.length_cons]
                omega
              rw [formatAfter_escape _ _ hentity]
              exact (hrest hshort (surplus_escape hentity u).ge).bind fun _ _ => .pure trivial
          | none =>
              by_cases hopen : c = '<'
              · subst hopen
                rw [List.length_cons] at ht hrest
                by_cases hcall : t.head? = some '~'
                · obtain ⟨u, rfl⟩ := List.head?_eq_some_iff.1 hcall
                  rw [formatAfter_call]
                  refine (points_callHtml he hlast).bind fun r ⟨hsuffix, hsurplus⟩ => ?_
                  have hlength := hsuffix.length_le
                  have hshort : (u.drop r.2).length < ('~' :: u).length + 1 := by
                    rw [List.length_cons]
                    omega
                  exact (hrest hshort hsurplus).bind fun _ _ => .pure trivial
                · cases htake : takeSpan t with
                  | none =>
                      rw [formatAfter_unclosed _ _ hcall htake]
                      exact .failAt (hlast _ (Nat.le_refl _))
                  | some found =>
                      have hcut := cut_of_takeSpanAfter htake
                      have hlength := hcut.length_add
                      have hbehind := hcut.rest_suffix.length_le
                      rw [formatAfter_span _ _ hcall hcut]
                      refine (hspan _ _ hcut.surplus_body fun column hcolumn => ?_).bind
                        fun _ _ => (hrest (by omega) ?_).bind fun _ _ => .pure trivial
                      · refine hplace column ?_
                        rw [Nat.zero_add, ← surplus_opener] at hlength
                        omega
                      · rw [surplus_opener]
                        exact hcut.surplus_rest_le 1
              · by_cases hclose : c = '>'
                · subst hclose
                  rw [formatAfter_close]
                  exact .failAt (hlast _ (Nat.sub_le _ _))
                · have hsame := surplus_char hescape hopen hclose
                  rw [formatAfter_char _ _ hescape hopen hclose]
                  exact (hrest (by simp) hsame.ge).bind fun _ _ => .pure trivial

/-- The formatter reports columns up to the end of its text, and as far behind it as references are
longer than escapes. -/
theorem points_format {t : Text} {line column : Nat}
    (hplace : ∀ column' ≤ column + t.length + surplus t, place line column') :
    Points place (fun _ => True) (format e t line column) := by
  -- on the depth of spans within spans, for every text whose columns may be reported
  have within (nesting : Nat) : ∀ t column,
      (∀ column' ≤ column + t.length + surplus t, place line column') →
      Points place (fun _ => True) (formatWithin e line nesting t column) := by
    induction nesting with
    | zero =>
        intro t column hplace
        exact points_formatAfter he (fun _ _ _ _ => .pure trivial) (Nat.le_add_left _ _) hplace
    | succ nesting ih =>
        intro t column hplace
        exact points_formatAfter he (points_spanHtml ih) (Nat.le_add_left _ _) hplace
  exact within _ t column hplace

end Inline

/-! ### Lines with texts -/

include he

/-- The text that the marker of a heading leaves. -/
theorem Heading.points_read {l : Line} {marker : Nat} (hmarker : marker ≤ l.content.length)
    (hlast : (l.content.take marker).getLast? ≠ some '\\')
    (hplace : ∀ column ≤ l.width + l.content.length + Text.blankSurplus (l.content.drop marker)
      + Inline.surplus l.content, place l.number column) :
    Points place (fun _ => True) (read e l marker) := by
  unfold read
  dsimp only
  -- the name and the groups stand behind the marker, so they end before the line does
  generalize hraw : l.content.drop marker = raw at hplace
  have hbytes := Text.byteLength_sub_trimStart raw
  have hlength : marker + raw.length = l.content.length := by
    rw [← hraw, List.length_drop]
    omega
  have htrim := Text.length_trimEnd_le (Text.trimStart raw)
  rw [← Text.trim] at htrim
  have hsurplus : Inline.surplus raw ≤ Inline.surplus l.content := by
    have hle := Inline.surplus_le_append (t := l.content.take marker) (u := raw)
      (fun h => absurd h hlast) 0
    rwa [← hraw, List.take_append_drop, hraw] at hle
  have hparts : (split (Text.trim raw)).1 ++ (split (Text.trim raw)).2 = Text.trim raw := by
    rw [split, List.splitAt_eq]
    exact List.take_append_drop _ _
  generalize split (Text.trim raw) = parts at hparts
  obtain ⟨front, groups⟩ := parts
  have hboth : front.length + groups.length = (Text.trim raw).length := by
    rw [← hparts, List.length_append]
  dsimp only
  refine (points_readDescription fun column hcolumn => hplace _ (by omega)).bind fun _ _ => ?_
  refine .ite (fun _ => .pure trivial) fun _ => ?_
  have hname := Text.length_trim_le front
  have hinside : Inline.surplus (Text.trim front) ≤ Inline.surplus raw := by
    refine (Inline.surplus_trim_le front).trans ?_
    refine (Inline.surplusAfter_append_le front groups 0).trans ?_
    rw [hparts]
    exact Inline.surplus_trim_le raw
  exact (Inline.points_format he fun column hcolumn => hplace _ (by omega)).bind fun _ _ =>
    .pure trivial

namespace Block

variable {r : Reader}
  (hr : ∀ depth ls, AllWithin place ls → Points place (Leaves place) (r depth ls))
include hr

/-- An element is reported on in its text and in what is below it. -/
theorem points_readElement {l : Line} {head : TagLine} (hhead : head.Within place l.number)
    (tag : Text) {ls : List SourceLine} (hls : AllWithin place ls) :
    Points place (Leaves place) (readElement e r l head tag ls) := by
  unfold readElement
  refine .ite (fun _ => points_readImage l head hls) fun _ => .ite (fun _ => ?_) fun _ => ?_
  · exact (Points.pure trivial).bind fun _ (_ : True) =>
      (hr _ _ hls).bind fun _ hrest => .pure hrest
  · exact (Inline.points_format he hhead).bind fun _ _ =>
      (hr _ _ hls).bind fun _ hrest => .pure hrest

/-- Items are reported on one by one. -/
theorem points_readItems (token inner : Text) (depth most : Nat) {ls : List SourceLine}
    (hls : AllWithin place ls) :
    Points place (Leaves place) (readItems e r token inner depth most ls) := by
  induction most generalizing ls with
  | zero => exact .pure hls
  | succ most ih =>
      have hskip : AllWithin place (skipBlank ls) := hls.of_suffix (List.dropWhile_suffix _)
      rw [readItems]
      generalize skipBlank ls = found at hskip
      cases found with
      | nil => exact .pure hls
      | cons raw rest =>
          have hrest : AllWithin place rest := hskip.of_suffix (List.suffix_cons _ _)
          refine (points_scan (hskip raw List.mem_cons_self)).bind fun l hl => ?_
          refine .ite (fun _ => ?_) fun _ => .pure hls
          refine (points_readTag hl).bind fun head hhead => ?_
          refine (points_readElement he hr hhead inner hrest).bind fun item hitem => ?_
          exact (ih hitem).bind fun more hmore => .pure hmore

/-- So is a tag with its run. -/
theorem points_readTree {l : Line} (hl : l.Within place) {ls : List SourceLine}
    (hls : AllWithin place ls) : Points place (Leaves place) (readTree e r l ls) := by
  unfold readTree
  refine (points_readTag hl).bind fun head hhead => ?_
  cases runs.find? (·.tag = head.tag) with
  | none =>
      exact (points_readElement he hr hhead _ hls).bind fun _ hrest => .pure hrest
  | some run =>
      refine (points_readElement he hr hhead _ hls).bind fun first hfirst => ?_
      exact (points_readItems he hr _ _ _ _ hfirst).bind fun _ hrest => .pure hrest

/-- So is every kind of line. -/
theorem points_readLineWith {l : Line} (hl : l.Within place) {ls : List SourceLine}
    (hls : AllWithin place ls) : Points place (Leaves place) (readLineWith e r l ls) := by
  have tree := points_readTree he hr hl hls
  unfold readLineWith
  cases l.kind with
  | blank => exact .pure hls
  | comment => exact .pure hls
  | sectionStart => exact .failAt_none _ _
  | tabStart => exact .failAt_none _ _
  | inclusion => exact .failAt_none _ _
  | directive =>
      refine .look fun c => .ite (fun _ => ?_) fun _ => .failAt_none _ _
      exact (Points.change _ _).bind fun _ _ => .pure hls
  | customClass => exact (points_readClass l hls).bind fun _ hrest => .pure hrest
  | template =>
      dsimp only
      unfold readTemplateLine
      split
      · exact (points_readDefinition l _ hls).bind fun _ hrest => .pure hrest
      · exact (Points.change _ _).bind fun _ _ => .pure hls
      · exact (he _ _ _).bind fun _ _ => .pure hls
  | margin => exact .pure hls
  | tag => exact tree
  | text => exact tree
  | escaped => exact tree

omit hr in
/-- A block is reported on in its lines. -/
theorem points_readBlock (depth : Nat) {ls : List SourceLine} (hls : AllWithin place ls) :
    Points place (Leaves place) (readBlock e depth ls) := by
  -- on the bound for lines
  have within (most : Nat) : ∀ depth ls, AllWithin place ls →
      Points place (Leaves place) (readWithin e most depth ls) := by
    induction most with
    | zero => exact fun _ _ hls => .pure hls
    | succ most ih =>
        intro depth ls hls
        rw [readWithin]
        refine (points_next hls).bind fun found hfound => ?_
        cases found with
        | none => exact .pure hls
        | some found =>
            obtain ⟨hl, hrest⟩ := hfound found rfl
            refine .ite (fun _ => .pure hls) fun _ => .ite (fun _ => .failAt_none _ _) fun _ => ?_
            refine (points_readLineWith he ih hl hrest).bind fun result hresult => ?_
            exact (ih _ _ hresult).bind fun _ hleft => .pure hleft
  exact within _ _ _ hls

end Block

/-! ### Documents -/

namespace Document

/-- Elements that are refused fail without a column. -/
theorem points_readElements (o : Outline) {l : Line} (hl : l.Within place) {ls : List SourceLine}
    (hls : AllWithin place ls) : Points place (Block.Leaves place) (readElements e o l ls) := by
  have hline : Points place (Block.Leaves place) (Block.readLine e l ls) :=
    Block.points_readLineWith he (fun depth _ h => Block.points_readBlock he depth h) hl hls
  unfold readElements
  refine hline.bind fun result hresult => .ite (fun _ => .pure hresult) fun _ => ?_
  cases o.push? result.1 with
  | none => exact .failAt_none _ _
  | some o' => exact .pure hresult

/-- Lines at the top are reported on in their headings and their elements. -/
theorem points_readLine {readFile : Line → CompileM (List Tab)} (o : Outline) {l : Line}
    (hl : l.Within place) {ls : List SourceLine} (hls : AllWithin place ls) :
    Points place (Block.Leaves place) (readLine e readFile o l ls) := by
  have elements := points_readElements he o hl hls
  have opened {heading : Heading} {hasTitle : Bool} :
      Points place (fun _ => True) (openSection o heading hasTitle) := fun _ => trivial
  have openedTab {heading : Heading} : Points place (fun _ => True) (openTab o heading) :=
    fun _ => trivial
  unfold readLine
  refine .ite (fun _ => .failAt_none _ _) fun hmargin => ?_
  have hdepth : l.depth = 0 := Nat.eq_zero_of_not_pos hmargin
  cases hkind : l.kind with
  -- the blank characters behind the marker of a heading are counted in bytes
  | sectionStart =>
      obtain ⟨hmarker, hlast, hblanks⟩ :=
        sectionMarker_spec (LineKind.head?_of_ofContent hkind rfl)
      have hheading := hl.heading hdepth
      rw [hblanks] at hheading
      exact (Heading.points_read he hmarker hlast hheading).bind fun heading _ =>
        opened.bind fun _ _ => .pure hls
  | tabStart =>
      obtain ⟨u, hu⟩ := List.head?_eq_some_iff.1 (LineKind.head?_of_ofContent hkind rfl)
      have hheading := hl.heading hdepth
      have hblanks : Heading.surplus l.content = Text.blankSurplus (l.content.drop 1) := by
        rw [hu]
        rfl
      rw [hblanks] at hheading
      refine (Heading.points_read he ?_ ?_ hheading).bind fun heading _ =>
        openedTab.bind fun _ _ => .pure hls
      · rw [hu]
        exact Nat.le_add_left _ _
      · rw [hu]
        simp
  | directive => exact (Points.change _ _).bind fun _ _ => .pure hls
  | inclusion => exact absurd hkind (hl.inclusion hdepth)
  | _ => exact elements

/-- All errors of a source whose lines may be reported are found at such places. -/
theorem points_readSource {readFile : Line → CompileM (List Tab)} {source : Text}
    (hls : AllWithin place (SourceLine.ofSource source)) :
    Points place (fun _ => True) (readSource e readFile source) := by
  -- on the bound for lines
  have within (most : Nat) : ∀ (o : Outline) (ls : List SourceLine), AllWithin place ls →
      Points place (fun _ => True) (readWithin e readFile most o ls) := by
    induction most with
    | zero => exact fun _ _ _ => .pure trivial
    | succ most ih =>
        intro o ls hls
        rw [readWithin]
        refine (Block.points_next hls).bind fun found hfound => ?_
        cases found with
        | none => exact .pure trivial
        | some found =>
            obtain ⟨hl, hrest⟩ := hfound found rfl
            exact (points_readLine he o hl hrest).bind fun result hresult => ih _ _ hresult
  exact (within _ _ _ hls).bind fun _ _ => .pure trivial

end Document

end Readers

end IndentMarkup
