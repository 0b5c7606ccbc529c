import IndentMarkup.Proofs.Characters
import IndentMarkup.Proofs.Coupling

/-!
The readers of elements keep two runs in step.

For every lawful coupling, and for two expanders that it keeps in step, formatted text
has the same HTML in both runs, and lines with elements stand for the same elements and
leave lines that go together again.

* `couples_format`, `couples_heading` — formatted text.
* `couples_readLine`, `couples_readFragment` — lines and fragments.

Nothing here depends on what the coupling says: each law about two runs needs only its
coupling and the proof that it is lawful.
-/

namespace IndentMarkup.Coupling

variable {K : Coupling} [K.Lawful] {e e' : Expander}

/-- All characters of the text can be read on the line. -/
def Allows (K : Coupling) (n : Nat) (t : Text) : Prop := ∀ c ∈ t, K.char n c

/-- Two expanders keep in step on calls of one template with the same values, which have
only characters that can be read on the line of the call. -/
def Expands (K : Coupling) (e e' : Expander) : Prop :=
  ∀ name values n n', K.number n n' → K.char n '~' → (∀ v ∈ values, K.Allows n v) →
    K.Couples Eq (e name values n) (e' name values n')

/-! ### Formatted text -/

/-- Calls keep in step: both runs know the template by the same number of parameters, or neither
does. -/
theorem couples_callHtml (he : K.Expands e e') {n n' last last' : Nat} (hn : K.number n n')
    (hlast : K.column last last') (hcall : K.char n '~') {t : Text} (ht : K.Allows n t) :
    K.Couples Eq (Inline.callHtml e n last t) (Inline.callHtml e' n' last' t) := by
  unfold Inline.callHtml
  refine .ite (fun _ => couples_failAt _ hn (.some hlast)) ?_
  intro _
  apply Couples.get_bind
  intro c c' hc
  -- either the first run is excused, or the templates that both have take as many values
  rcases Lawful.template (Inline.Call.name t) hc with ⟨hlax, hnone⟩ | harity
  · rw [hnone]
    exact .excused hlax
  cases hm : c.template? (Inline.Call.name t) with
  | none =>
      rw [hm, Option.map_none, Option.map_eq_none_iff] at harity
      rw [harity]
      exact (couples_failAt _ hn (.some (Lawful.column_map (· - t.length) hlast))) c c' hc
  | some m =>
      rw [hm, Option.map_some, Option.map_eq_some_iff] at harity
      obtain ⟨m', hm', harity⟩ := harity
      rw [hm']
      dsimp only
      rw [harity]
      cases hread : Inline.Call.read? m.arity t with
      | none => exact (couples_failAt _ hn (.some hlast)) c c' hc
      -- the values are texts of the line, so the expanders may be asked
      | some call =>
          have hvalues := Inline.Call.forall_read ht hread
          apply Outcome.bind (he _ _ _ _ hn hcall hvalues c c' hc)
          intro elements elements' h
          subst h
          exact .pure rfl

/-- A span keeps in step with a span if the formatters for its text do. -/
theorem couples_spanHtml {x x' : Text → Nat → CompileM Text} {n n' : Nat} (hn : K.number n n')
    (hx : ∀ t col col', K.Allows n t → K.column col col' → K.Couples Eq (x t col) (x' t col'))
    {body : Text} (hbody : K.Allows n body) {col col' : Nat} (hcol : K.column col col') :
    K.Couples Eq (Inline.spanHtml x n body col) (Inline.spanHtml x' n' body col') := by
  unfold Inline.spanHtml
  refine .ite (fun _ => .pure rfl) ?_
  intro _
  cases hs : Shorthand.readToken body with
  | error err => exact couples_failAt _ hn (.some (Lawful.column_map (· + err.column) hcol))
  -- the text of the span stands on the line, as it is what is left of the body
  | ok s =>
      have htext : K.Allows n (Text.trimStart s.rest) := by
        intro c hc
        exact hbody c ((Shorthand.rest_suffix hs).subset (Text.trimStart_subset _ hc))
      refine .bind (hx _ _ _ htext (Lawful.column_map (· + _) hcol)) ?_
      intro html html' h
      subst h
      exact .pure rfl

/-- Formatting from a place on keeps two runs in step. -/
theorem couples_formatAfter (he : K.Expands e e') {x x' : Text → Nat → CompileM Text}
    {n n' last last' : Nat} (hn : K.number n n') (hlast : K.column last last')
    (hx : ∀ t col col', K.Allows n t → K.column col col' → K.Couples Eq (x t col) (x' t col'))
    (skip : Nat) {t : Text} (ht : K.Allows n t) :
    K.Couples Eq (Inline.formatAfter e x n last skip t)
      (Inline.formatAfter e' x' n' last' skip t) := by
  -- What is read first comes out the same, and so does what is read behind it.
  have joined {y y' z z' : CompileM Text} (hy : K.Couples Eq y y') (hz : K.Couples Eq z z') :
      K.Couples Eq (do return (← y) ++ (← z)) (do return (← y') ++ (← z')) := by
    refine .bind hy ?_
    intro html html' h
    refine .bind hz ?_
    intro rest rest' hrest
    rw [h, hrest]
    exact .pure rfl
  -- on the text behind, whatever is still skipped; its characters stand on the line
  induction t generalizing skip with
  | nil => simpa only [Inline.formatAfter] using .pure rfl
  | cons c t ih =>
      have ht' : K.Allows n t := (List.forall_mem_cons.1 ht).2
      have ih := fun skip => ih skip ht'
      cases skip with
      | succ skip => simpa only [Inline.formatAfter] using ih skip
      | zero =>
          simp only [Inline.formatAfter]
          cases Inline.escapeAt? (c :: t) with
          | some entity => exact joined (.pure rfl) (ih 1)
          | none =>
              dsimp only
              refine .ite (fun _ => .ite (fun htilde => ?_) fun _ => ?_) fun _ =>
                -- a call, a span, a bracket too many, or a character; each with its own column
                .ite (fun _ => ?_) fun _ => ?_
              · have hcall : K.char n '~' := ht' _ (List.mem_of_mem_head? htilde)
                have hbehind : K.Allows n (t.drop 1) := fun d hd =>
                  ht' d (List.drop_subset 1 t hd)
                refine .bind (couples_callHtml he hn hlast hcall hbehind) ?_
                intro r r' h
                subst h
                exact joined (.pure rfl) (ih _)
              · cases hspan : Inline.takeSpan t with
                | none => exact couples_failAt _ hn (.some hlast)
                | some r =>
                    have hbody : K.Allows n r.1 :=
                      Inline.forall_takeSpan Lawful.char_of_escape ht' hspan
                    exact joined (hx _ _ _ hbody (Lawful.column_map (· - t.length) hlast)) (ih _)
              · exact couples_failAt _ hn
                  (.some (Lawful.column_map (· - (c :: t).length) hlast))
              · refine .bind (ih 0) ?_
                intro rest rest' h
                rw [h]
                exact .pure rfl

/-- A text is formatted alike in two runs. -/
theorem couples_format (he : K.Expands e e') {n n' col col' : Nat} {t : Text}
    (ht : K.Allows n t) (hn : K.number n n') (hcol : K.column col col') :
    K.Couples Eq (Inline.format e t n col) (Inline.format e' t n' col') := by
  -- on the depth of spans within spans, since what a span holds is formatted by the same function
  have within (nesting : Nat) : ∀ t col col', K.Allows n t → K.column col col' →
      K.Couples Eq (Inline.formatWithin e n nesting t col)
        (Inline.formatWithin e' n' nesting t col') := by
    induction nesting with
    | zero =>
        intro t col col' ht hcol
        have hlast := Lawful.column_map (· + t.length) hcol
        exact couples_formatAfter he hn hlast (fun _ _ _ _ _ => .pure rfl) 0 ht
    | succ nesting ih =>
        intro t col col' ht hcol
        have hlast := Lawful.column_map (· + t.length) hcol
        refine couples_formatAfter he hn hlast ?_ 0 ht
        intro body col col' hbody hcol
        exact couples_spanHtml hn ih hbody hcol
  exact within _ t col col' ht hcol

/-- The name and the description of a section or tab are read alike. -/
theorem couples_heading (he : K.Expands e e') {m m' : Line} (hm : K.Measured m m')
    (marker : Nat) :
    K.Couples Eq (Heading.read e m marker) (Heading.read e' m' marker) := by
  unfold Heading.read
  rw [hm.content]
  dsimp only
  -- the name is a part of the line, so its characters are allowed there
  have hfront : K.Allows m.number
      (Text.trim (Heading.split (Text.trim (m.content.drop marker))).1) := by
    intro c hc
    have hraw := Text.trim_subset _ (Heading.split_subset _ (Text.trim_subset _ hc))
    exact Lawful.char_of_measured hm.allowed c (List.drop_subset marker _ hraw)
  generalize Heading.split (Text.trim (m.content.drop marker)) = parts at hfront ⊢
  obtain ⟨front, groups⟩ := parts
  have hcol := Lawful.column_map (· + marker + (Text.byteLength (m.content.drop marker)
    - Text.byteLength (Text.trimStart (m.content.drop marker)))) hm.width
  apply Couples.bind (R := Eq)
  · unfold Heading.readDescription
    refine .ite (fun _ => .pure rfl) ?_
    intro _
    cases Shorthand.readAll groups with
    | error err =>
        exact couples_failAt _ hm.number
          (.some (Lawful.column_map (· + front.length + err.column) hcol))
    | ok s =>
        exact .ite (fun _ => .pure rfl) fun _ =>
          couples_failAt _ hm.number (.some (Lawful.column_map (· + front.length) hcol))
  · intro description description' h
    subst h
    refine .ite (fun _ => .pure rfl) ?_
    intro _
    refine .bind (couples_format he hfront hm.number hcol) ?_
    intro name name' h
    subst h
    exact .pure rfl

/-! ### One line -/

/-- Two lines with elements, taken apart alike; the first has the number `n`. -/
structure SameTag (K : Coupling) (n : Nat) (h h' : Block.TagLine) : Prop where
  tag : h'.tag = h.tag
  attributes : h'.attributes = h.attributes
  text : h'.text = h.text
  raw : h'.raw = h.raw
  column : K.column h.column h'.column
  allowed : K.Allows n h.text

/-- The token and the text of a line are taken apart alike. -/
theorem couples_readTag {m m' : Line} (hm : K.Measured m m') :
    K.Couples (K.SameTag m.number) (Block.readTag m) (Block.readTag m') := by
  have hchars : K.Allows m.number m.content := Lawful.char_of_measured hm.allowed
  -- text without a token, and text with one
  have plain {t : Text} (ht : K.Allows m.number t) (f : Nat → Nat) : K.Couples (K.SameTag m.number)
      (pure (Block.TagLine.plain t (f m.width))) (pure (Block.TagLine.plain t (f m'.width))) :=
    .pure ⟨rfl, rfl, rfl, rfl, Lawful.column_map f hm.width, ht⟩
  have tagged : K.Couples (K.SameTag m.number) (Block.readTagged m) (Block.readTagged m') := by
    unfold Block.readTagged
    rw [hm.content]
    cases hs : Shorthand.readToken m.content with
    | error err =>
        exact couples_failAt _ hm.number (.some (Lawful.column_map (· + err.column) hm.width))
    | ok s =>
        have hcol := Lawful.column_map
          (· + (m.content.length - (Text.trimStart s.rest).length)) hm.width
        have htext : K.Allows m.number (Text.trim s.rest) := fun c hc =>
          hchars c ((Shorthand.rest_suffix hs).subset (Text.trim_subset _ hc))
        dsimp only
        split <;> exact .pure ⟨rfl, rfl, rfl, rfl, hcol, htext⟩
  unfold Block.readTag
  rw [hm.kind, hm.content]
  split
  · exact plain hchars id
  · next c t _ hcontent =>
      have hbehind : K.Allows m.number (c :: t) := fun d hd =>
        hchars d (hcontent ▸ List.mem_cons_of_mem _ hd)
      exact .ite (fun _ => plain hbehind (· + 1)) fun _ => plain hchars id
  · exact plain hchars id
  · exact tagged

/-- What two readers make of their lines: the same, and lines that go together. -/
def Read {α : Type} (K : Coupling) (ls ls' : List SourceLine) (r r' : α × List SourceLine) :
    Prop :=
  r'.1 = r.1 ∧ K.Left ls ls' r.2 r'.2

/-- Two readers of blocks keep in step on fewer than `n` and `n'` lines. At the margin the
tail of the second run would be read as a block of its own. -/
def Descends (K : Coupling) (n n' : Nat) (r r' : Block.Reader) : Prop :=
  ∀ depth ls ls', 0 < depth ∨ K.tail = [] → K.Lines ls ls' → ls.length < n → ls'.length < n' →
    K.Couples (K.Read ls ls') (r depth ls) (r' depth ls')

/-- An image keeps two runs in step, which look at the next line for what must not be below it. -/
theorem couples_readImage {m m' : Line} (hm : K.Measured m m') {h h' : Block.TagLine}
    (hh : K.SameTag m.number h h') {ls ls' : List SourceLine} (hls : K.Lines ls ls') :
    K.Couples (K.Read ls ls') (Block.readImage m h ls) (Block.readImage m' h' ls') := by
  unfold Block.readImage
  rw [hh.attributes, hh.text]
  cases h.attributes.find? "href".toList with
  | none => exact couples_failAt _ hm.number .none
  | some source =>
      refine .bind (couples_next hls) ?_
      intro below below' hbelow
      cases hbelow with
      | none => exact .pure ⟨rfl, hls.left⟩
      | heading _ hdepth => simpa [hdepth] using .pure ⟨rfl, hls.left⟩
      | some hbelow =>
          dsimp only
          rw [hm.depth, hbelow.depth]
          exact .ite (fun _ => couples_failAt _ hbelow.number .none) fun _ =>
            .pure ⟨rfl, hls.left⟩

section Block

variable {n n' : Nat} {r r' : Block.Reader}

/-- An element keeps two runs in step if the readers of its body do. -/
theorem couples_readElement (he : K.Expands e e') (hr : K.Descends n n' r r')
    {m m' : Line} (hm : K.Measured m m') {h h' : Block.TagLine} (hh : K.SameTag m.number h h')
    (tag : Text) {ls ls' : List SourceLine} (hls : K.Lines ls ls') (hn : ls.length < n)
    (hn' : ls'.length < n') :
    K.Couples (K.Read ls ls') (Block.readElement e r m h tag ls)
      (Block.readElement e' r' m' h' tag ls') := by
  unfold Block.readElement
  rw [hh.text, hh.raw, hh.attributes, hm.depth]
  refine .ite (fun _ => couples_readImage hm hh hls) ?_
  intro _
  refine .ite (fun _ => .bind (.pure (R := Eq) rfl) ?_) fun _ =>
    .bind (couples_format he hh.allowed hm.number hh.column) ?_
  all_goals
    rintro html _ rfl
    refine .bind (hr _ _ _ (.inl (Nat.succ_pos _)) hls hn hn') ?_
    intro result result' hresult
    obtain ⟨hchildren, hleft⟩ := hresult
    exact .pure ⟨by rw [hchildren], hleft⟩

/-- Two recursions that are bounded by counts can be compared along the lines that are
left: without lines, a count of zero does as well as any other. -/
theorem bounded_induction {γ : Type} {f g : Nat → List SourceLine → γ}
    {motive : List SourceLine → List SourceLine → γ → γ → Prop}
    (hf : f 0 [] = f 1 []) (hg : g 0 [] = g 1 [])
    (step : ∀ most most' ls ls',
      (∀ rest rest', rest.length < ls.length → rest'.length < ls'.length →
        motive rest rest' (f most rest) (g most' rest')) →
      motive ls ls' (f (most + 1) ls) (g (most' + 1) ls'))
    {most most' : Nat} {ls ls' : List SourceLine} (hmost : ls.length ≤ most)
    (hmost' : ls'.length ≤ most') : motive ls ls' (f most ls) (g most' ls') := by
  -- without lines the count makes no difference, so a count that is used up may be raised
  have grow {h : Nat → List SourceLine → γ} (hh : h 0 [] = h 1 []) {ls : List SourceLine}
      (hls : ls.length ≤ 0) : h 0 ls = h 1 ls := by
    rwa [List.eq_nil_of_length_eq_zero (Nat.le_zero.1 hls)]
  -- on both counts together, as each step takes at least one line from both runs
  induction most generalizing most' ls ls' with
  | zero =>
      rw [grow hf hmost]
      cases most' with
      | zero =>
          rw [grow hg hmost']
          exact step 0 0 ls ls' fun rest rest' hlt => by omega
      | succ most' => exact step 0 most' ls ls' fun rest rest' hlt => by omega
  | succ most ih =>
      cases most' with
      | zero =>
          rw [grow hg hmost']
          exact step most 0 ls ls' fun rest rest' hlt hlt' => by omega
      | succ most' =>
          exact step most most' ls ls' fun rest rest' hlt hlt' => ih (by omega) (by omega)

/-! ### Runs of items -/

omit [K.Lawful] in
theorem readItems_nil (token inner : Text) (depth most : Nat) :
    Block.readItems e r token inner depth most [] = pure ([], []) := by
  cases most <;> rfl

/-- One item keeps in step, and the run goes on as its rest does. -/
theorem couples_readItems_succ (he : K.Expands e e') (hr : K.Descends n n' r r')
    (token inner : Text) (depth : Nat) {most most' : Nat} {ls ls' : List SourceLine}
    (hls : K.Lines ls ls') (hn : ls.length ≤ n) (hn' : ls'.length ≤ n')
    (hmore : ∀ rest rest', K.Lines rest rest' → rest.length < ls.length →
      rest'.length < ls'.length →
      K.Couples (K.Read rest rest') (Block.readItems e r token inner depth most rest)
        (Block.readItems e' r' token inner depth most' rest')) :
    K.Couples (K.Read ls ls') (Block.readItems e r token inner depth (most + 1) ls)
      (Block.readItems e' r' token inner depth (most' + 1) ls') := by
  have hfirst : skipBlank ls <:+ ls := List.dropWhile_suffix _
  have hsecond : skipBlank ls' <:+ ls' := List.dropWhile_suffix _
  have hheads := hls.skipBlank
  simp only [Block.readItems]
  generalize skipBlank ls = heads at hheads hfirst
  generalize skipBlank ls' = heads' at hheads hsecond
  cases hheads with
  | tail =>
      intro c c' hc
      cases htail : skipBlank K.tail with
      | nil => exact .ok ⟨rfl, hls.left⟩ hc
      | cons head rest =>
          obtain ⟨m, hm, -, hkind⟩ := (scan_boundary (tail_head htail)).2.2 c'.indentation
          have hrun : CompileM.scan head c' = .ok m c' := by rw [CompileM.scan, hm]
          have hstop : Block.continues token depth m = false := by
            cases htag : m.kind <;> simp_all [Block.continues, LineKind.isBoundary]
          dsimp only
          rw [CompileM.bind_run_ok hrun, hstop]
          exact .ok ⟨rfl, hls.left⟩ hc
  | @both l l' rest rest' hl hrest =>
      obtain ⟨hleft, hlt, hlt'⟩ := left_of_suffix hrest hfirst hsecond
      refine .bind (couples_scan hl) ?_
      intro m m' hm
      have hgoes : Block.continues token depth m' = Block.continues token depth m := by
        simp only [Block.continues, hm.depth, hm.kind, hm.content]
      rw [hgoes]
      apply Couples.ite _ (fun _ => .pure ⟨rfl, hls.left⟩)
      intro _
      refine .bind (couples_readTag hm) ?_
      intro h h' hh
      refine .bind (couples_readElement he hr hm hh inner hrest (by omega) (by omega)) ?_
      intro result result' hresult
      obtain ⟨hitem, hbehind⟩ := hresult
      have hsize := hbehind.first.length_le
      have hsize' := hbehind.second.length_le
      refine .bind (hmore _ _ hbehind.lines (by omega) (by omega)) ?_
      intro more more' hresult
      obtain ⟨hitems, hend⟩ := hresult
      exact .pure ⟨by rw [hitem, hitems], hleft.trans (hbehind.trans hend)⟩

/-- The items of a run keep two runs in step. -/
theorem couples_readItems (he : K.Expands e e') (hr : K.Descends n n' r r')
    (token inner : Text) (depth : Nat) {most most' : Nat} {ls ls' : List SourceLine}
    (hls : K.Lines ls ls') (hn : ls.length ≤ n) (hn' : ls'.length ≤ n') (hmost : ls.length ≤ most)
    (hmost' : ls'.length ≤ most') :
    K.Couples (K.Read ls ls') (Block.readItems e r token inner depth most ls)
      (Block.readItems e' r' token inner depth most' ls') := by
  -- along the lines that are left: the counts differ between the runs, the lines go together
  refine bounded_induction (motive := fun ls ls' x x' => K.Lines ls ls' → ls.length ≤ n →
      ls'.length ≤ n' → K.Couples (K.Read ls ls') x x')
    (f := Block.readItems e r token inner depth) (g := Block.readItems e' r' token inner depth)
    ?_ ?_ ?_ hmost hmost' hls hn hn'
  · simp only [readItems_nil]
  · simp only [readItems_nil]
  · intro most most' ls ls' ih hls hn hn'
    apply couples_readItems_succ he hr _ _ _ hls hn hn'
    intro rest rest' hrest hlt hlt'
    exact ih rest rest' hlt hlt' hrest (by omega) (by omega)

/-! ### Lines with and without elements -/

/-- A tag with what belongs to it keeps two runs in step. -/
theorem couples_readTree (he : K.Expands e e') (hr : K.Descends n n' r r') {m m' : Line}
    (hm : K.Measured m m') {ls ls' : List SourceLine} (hls : K.Lines ls ls')
    (hn : ls.length < n) (hn' : ls'.length < n') :
    K.Couples (K.Read ls ls') (Block.readTree e r m ls) (Block.readTree e' r' m' ls') := by
  unfold Block.readTree
  refine .bind (couples_readTag hm) ?_
  intro h h' hh
  rw [hh.tag]
  cases Block.runs.find? (·.tag = h.tag) with
  | none =>
      refine .bind (couples_readElement he hr hm hh _ hls hn hn') ?_
      intro result result' hresult
      obtain ⟨helement, hleft⟩ := hresult
      exact .pure ⟨by rw [helement], hleft⟩
  | some run =>
      refine .bind (couples_readElement he hr hm hh _ hls hn hn') ?_
      intro result result' hresult
      obtain ⟨hitem, hleft⟩ := hresult
      -- what is left for the items is no longer than what was there
      have hsize := hleft.first.length_le
      have hsize' := hleft.second.length_le
      rw [hm.content, hm.depth]
      refine .bind (couples_readItems he hr _ _ _ hleft.lines (by omega) (by omega)
        (Nat.le_refl _) (Nat.le_refl _)) ?_
      intro more more' hmore
      obtain ⟨hitems, hend⟩ := hmore
      exact .pure ⟨by rw [hitem, hitems], hleft.trans hend⟩

/-- The declarations below a custom class are the same, as blank lines do not count. -/
theorem Bodies.trimmed {unit unit' : Indentation} {depth : Nat} {body body' : List Text}
    (h : K.Bodies unit unit' depth body body') :
    (body'.map Text.trim).filter (· ≠ []) = (body.map Text.trim).filter (· ≠ []) := by
  induction h with
  | nil => rfl
  | both hl _ _ _ _ _ ih =>
      rw [List.map_cons, List.map_cons, List.filter_cons, List.filter_cons, ih,
        Lawful.trim_line hl]
  | blank hblank _ ih => simpa [Text.trim_eq_nil_iff.2 hblank] using ih
  | first _ hblank _ ih => simpa [Text.trim_eq_nil_iff.2 hblank] using ih
  | second _ hblank _ ih => simpa [Text.trim_eq_nil_iff.2 hblank] using ih

/-- The lines below a custom class that are not blank are its declarations. -/
theorem Bodies.declared {unit unit' : Indentation} {depth : Nat} {body body' : List Text}
    (h : K.Bodies unit unit' depth body body') :
    K.Declared (Text.join ['\n'] ((body.map Text.trim).filter (· ≠ []))) := by
  suffices hlines : ∃ ls : List SourceLine, (∀ l ∈ ls, ∃ l', K.line l l') ∧
      (body.map Text.trim).filter (· ≠ []) = ls.map fun l => Text.trim l.text by
    obtain ⟨ls, hls, heq⟩ := hlines
    exact ⟨ls, hls, by rw [heq]⟩
  -- on how the bodies go together; blank lines are dropped on both sides
  induction h with
  | nil => exact ⟨[], nofun, rfl⟩
  | @both l l' _ _ _ _ hl _ _ _ _ _ ih =>
      obtain ⟨ls, hls, heq⟩ := ih
      have hsolid : Text.trim l.text ≠ [] := by
        intro hnil
        exact absurd (Text.trim_eq_nil_iff.1 hnil)
          (by rw [← SourceLine.isBlank, Lawful.isBlank_line hl]; exact Bool.noConfusion)
      refine ⟨l :: ls, List.forall_mem_cons.2 ⟨⟨l', hl⟩, hls⟩, ?_⟩
      rw [List.map_cons, List.filter_cons_of_pos (by simpa using hsolid), heq, List.map_cons]
  | blank hblank _ ih => simpa [Text.trim_eq_nil_iff.2 hblank] using ih
  | first _ hblank _ ih => simpa [Text.trim_eq_nil_iff.2 hblank] using ih
  | second _ _ _ ih => exact ih

/-- An action behind the lines that a line owns keeps in step if it does so for all
bodies that go together. -/
theorem couples_takeBody {α : Type} {values : α → α → Prop} {c c' : Context}
    (hc : K.context c c') {ls ls' : List SourceLine} (hls : K.Lines ls ls') (depth : Nat)
    {f f' : List Text × List SourceLine → CompileM α}
    (hf : ∀ body body' rest rest', K.Bodies c.indentation c'.indentation depth body body' →
      K.Left ls ls' rest rest' → K.Outcome values (f (body, rest) c) (f' (body', rest') c')) :
    K.Outcome values ((Block.takeBody depth ls >>= f) c)
      ((Block.takeBody depth ls' >>= f') c') := by
  have h := agree_takeDeeper hc hls depth
  simp only [CompileM.bind_run, Block.takeBody]
  generalize Block.takeDeeper c.indentation depth ls = y at h
  generalize Block.takeDeeper c'.indentation depth ls' = y' at h
  cases h with
  | ok hr =>
      obtain ⟨hbody, hleft⟩ := hr
      exact hf _ _ _ _ hbody hleft
  | error he =>
      obtain ⟨hfault, hn, hcol⟩ := he
      dsimp only
      rw [hfault]
      exact (couples_failAt _ hn (.some hcol)) c c' hc
  | excused hlax => exact .excused hlax

/-- Custom classes keep two runs in step. -/
theorem couples_readClass {m m' : Line} (hm : K.Measured m m') {ls ls' : List SourceLine}
    (hls : K.Lines ls ls') :
    K.Couples (K.Left ls ls') (Block.readClass m ls) (Block.readClass m' ls') := by
  unfold Block.readClass
  rw [hm.content, hm.depth]
  refine .ite (fun _ => couples_failAt _ hm.number .none) ?_
  intro _ c c' hc
  apply couples_takeBody hc hls
  intro body body' rest rest' hbody hleft
  dsimp only
  rw [hbody.trimmed]
  exact (couples_change hm.number hc (Lawful.addClass _ hc hbody.declared)
    fun _ => Context.isOwn_of_addClass).bind fun _ _ _ => .pure hleft

/-- Definitions keep two runs in step if what they store goes together. -/
theorem couples_readDefinition {m m' : Line} (hm : K.Measured m m') {signature : Text}
    (hcontent : m.content = '~' :: '+' :: signature) {ls ls' : List SourceLine}
    (hls : K.Lines ls ls') :
    K.Couples (K.Left ls ls') (Block.readDefinition m signature ls)
      (Block.readDefinition m' signature ls') := by
  unfold Block.readDefinition
  cases hwords : Text.words signature with
  | nil => exact couples_failAt _ hm.number .none
  | cons name parameters =>
      apply Couples.get_bind
      intro c c' hc
      rw [hm.depth]
      apply couples_takeBody hc hls
      intro body body' rest rest' hbody hleft
      have hdefine := Lawful.define hc hm.allowed hcontent hwords hbody
      refine (couples_change hm.number hc hdefine fun _ => ?_).bind fun _ _ _ => .pure hleft
      exact Context.isOwn_of_defineBody

/-- A definition, an undefinition or a call, by what is behind the tilde. -/
theorem couples_readTemplateLine (he : K.Expands e e') {m m' : Line} (hm : K.Measured m m')
    (hkind : m.kind = .template) {ls ls' : List SourceLine} (hls : K.Lines ls ls') :
    K.Couples (K.Read ls ls') (Block.readTemplateLine e m ls)
      (Block.readTemplateLine e' m' ls') := by
  have hallowed := hm.allowed
  have hhead := LineKind.head?_of_ofContent hkind rfl
  have hcall : K.char m.number '~' :=
    Lawful.char_of_measured hallowed _ (List.mem_of_mem_head? hhead)
  unfold Block.readTemplateLine
  simp only [Line.token, Line.afterToken, hm.content]
  split
  · next signature hcontent =>
      refine .bind (couples_readDefinition hm hcontent hls) ?_
      intro rest rest' hleft
      exact .pure ⟨rfl, hleft⟩
  · next name hcontent =>
      apply Couples.bind (R := Eq) _ (fun _ _ _ => .pure ⟨rfl, hls.left⟩)
      intro c c' hc
      exact couples_change hm.number hc (Lawful.undefine hc hallowed hcontent)
        fun _ => Context.isOwn_of_undefine
  -- the values of a call are texts of its line
  · have hvalues : ∀ v ∈ Template.valuesOf (m.content.dropWhile (· ≠ ' ')),
        K.Allows m.number v :=
      Template.forall_valuesOf fun c hc =>
        Lawful.char_of_measured hallowed c (List.dropWhile_subset _ hc)
    refine .bind (he _ _ _ _ hm.number hcall hvalues) ?_
    intro elements elements' h
    exact .pure ⟨h.symm, hls.left⟩

/-- Each kind of line keeps two runs in step. -/
theorem couples_readLineWith (he : K.Expands e e') (hr : K.Descends n n' r r') {m m' : Line}
    (hm : K.Measured m m') {ls ls' : List SourceLine} (hls : K.Lines ls ls')
    (hn : ls.length < n) (hn' : ls'.length < n') :
    K.Couples (K.Read ls ls') (Block.readLineWith e r m ls) (Block.readLineWith e' r' m' ls') := by
  unfold Block.readLineWith
  rw [hm.kind]
  cases hkind : m.kind with
  | blank => exact .pure ⟨rfl, hls.left⟩
  | comment => exact .pure ⟨rfl, hls.left⟩
  | sectionStart => exact couples_failAt _ hm.number .none
  | tabStart => exact couples_failAt _ hm.number .none
  | inclusion => exact couples_failAt _ hm.number .none
  | directive =>
      apply Couples.get_bind
      intro c c' hc
      -- directives are for templates only, and the runs agree on being in one, or one is excused
      rcases Lawful.expanding hc with ⟨hlax, hexpanding⟩ | hexpanding
      · rw [hexpanding]
        exact .excused hlax
      cases hc₁ : c.isExpanding with
      | true =>
          rw [hexpanding, hc₁]
          exact (couples_change hm.number hc (Lawful.directive hc hc₁ hm)
            fun _ => Context.isOwn_of_readDirective).bind
            fun _ _ _ => .pure ⟨rfl, hls.left⟩
      | false =>
          rw [hexpanding, hc₁]
          exact (couples_failAt _ hm.number .none) c c' hc
  | customClass =>
      refine .bind (couples_readClass hm hls) ?_
      intro rest rest' hleft
      exact .pure ⟨rfl, hleft⟩
  | template => exact couples_readTemplateLine he hm hkind hls
  | margin => exact .pure ⟨by rw [hm.content], hls.left⟩
  | tag => exact couples_readTree he hr hm hls hn hn'
  | text => exact couples_readTree he hr hm hls hn hn'
  | escaped => exact couples_readTree he hr hm hls hn hn'

end Block

/-! ### Blocks -/

omit [K.Lawful] in
/-- A block without lines is empty, whatever its bound. -/
theorem readWithin_nil (most depth : Nat) :
    Block.readWithin e most depth [] = pure ([], []) := by
  cases most <;> rfl

/-- Blocks keep in step when they are below a line, or when nothing stands behind the
first run's end. -/
theorem couples_readWithin (he : K.Expands e e') {most most' : Nat} {ls ls' : List SourceLine}
    (hmost : ls.length ≤ most) (hmost' : ls'.length ≤ most') :
    ∀ depth, 0 < depth ∨ K.tail = [] → K.Lines ls ls' →
      K.Couples (K.Read ls ls') (Block.readWithin e most depth ls)
        (Block.readWithin e' most' depth ls') := by
  refine bounded_induction (f := fun most ls depth => Block.readWithin e most depth ls)
    (g := fun most ls depth => Block.readWithin e' most depth ls)
    (motive := fun ls ls' x x' => ∀ depth, 0 < depth ∨ K.tail = [] → K.Lines ls ls' →
      K.Couples (K.Read ls ls') (x depth) (x' depth)) ?_ ?_ ?_ hmost hmost'
  · funext depth
    simp only [readWithin_nil]
  · funext depth
    simp only [readWithin_nil]
  · intro most most' ls ls' ih depth hdepth hls
    -- one line of the block; the lines below it and behind it are fewer in both runs
    simp only [Block.readWithin]
    refine .bind (couples_next hls) ?_
    intro found found' hfound
    cases hfound with
    | none => exact .pure ⟨rfl, hls.left⟩
    | heading htail hmargin =>
        -- the second run may go on to a heading, which is not deeper and ends a block below a line
        have hpos : 0 < depth := hdepth.resolve_right fun hnil => htail (by rw [hnil]; rfl)
        simpa [hmargin, hpos] using .pure ⟨rfl, hls.left⟩
    | @some m m' rest rest' hm hrest hlt hlt' =>
        dsimp only
        rw [hm.depth]
        refine .ite (fun _ => .pure ⟨rfl, hls.left⟩) ?_
        intro _
        apply Couples.ite
        · intro _
          exact couples_failAt _ hm.number .none
        · intro _
          have hdescends : K.Descends ls.length ls'.length (Block.readWithin e most)
              (Block.readWithin e' most') := by
            intro depth ls₁ ls₁' hdepth hls₁ hlt hlt'
            exact ih ls₁ ls₁' hlt hlt' depth hdepth hls₁
          refine .bind (couples_readLineWith he hdescends hm hrest.lines hlt hlt') ?_
          intro result result' hresult
          obtain ⟨hline, hleft⟩ := hresult
          have hsize := hleft.first.length_le
          have hsize' := hleft.second.length_le
          refine .bind (ih _ _ (by omega) (by omega) depth hdepth hleft.lines) ?_
          intro more more' hmore
          obtain ⟨hlines, hend⟩ := hmore
          exact .pure ⟨by rw [hline, hlines], hrest.trans (hleft.trans hend)⟩

/-- A line stands for the same elements in both runs and leaves lines that go together. -/
theorem couples_readLine (he : K.Expands e e') {m m' : Line} (hm : K.Measured m m')
    {ls ls' : List SourceLine} (hls : K.Lines ls ls') :
    K.Couples (K.Read ls ls') (Block.readLine e m ls) (Block.readLine e' m' ls') := by
  apply couples_readLineWith he _ hm hls (Nat.lt_succ_self _) (Nat.lt_succ_self _)
  intro depth ls ls' hdepth hls _ _
  exact couples_readWithin he (Nat.le_refl _) (Nat.le_refl _) depth hdepth hls

/-- Fragments that go together stand for the same elements. -/
theorem couples_readFragment (he : K.Expands e e') (htail : K.tail = [])
    {ls ls' : List SourceLine} (hls : K.Lines ls ls') :
    K.Couples Eq (Block.readFragment e ls) (Block.readFragment e' ls') := by
  refine .bind (couples_readWithin he (Nat.le_refl _) (Nat.le_refl _) 0 (.inr htail) hls) ?_
  intro result result' hresult
  exact .pure hresult.1.symm

end IndentMarkup.Coupling
