import IndentMarkup.Proofs.Measuring
import IndentMarkup.Proofs.Runs.Reading
import IndentMarkup.Proofs.TagLines

/-!
Which lines are passed over.

Between elements, readers pass over a line after a look at its text: blank characters are trimmed
off, and nothing is left, or a comment starts. Measuring takes off the unit of indentation only. A
line can be indented by characters that are blank and yet neither spaces nor tabs, and these are
measured as the start of its content. So a line that is measured as blank or as a comment is always
passed over, and one other kind of line is: text that looks like a comment behind such characters.

* `Line.Veiled` — text that looks like a comment.
* `SourceLine.isSilent_iff_of_scan` — the look at a line and its measuring, compared.
* `Block.heard`, `Block.heard_readBlock`, `Block.heard_readImage` — blocks and images depend on the
  lines behind the silent ones only.
* `Block.passes_over_iff` — what becomes of a line that can be measured.
-/

namespace IndentMarkup

/-! ### Two looks at a line -/

/-- A blank character is no marker. -/
theorem LineKind.ofContent_of_isBlank {c : Char} (h : Text.isBlank c = true) (t : Text) :
    ofContent (c :: t) = .text := by
  cases hkind : ofContent (c :: t) with
  | text => rfl
  | blank => exact absurd (eq_nil_of_ofContent hkind) (List.cons_ne_nil c t)
  | _ =>
      cases head?_of_ofContent hkind rfl
      exact absurd h (by decide)

namespace Line

/-- The line is text, but the first of its characters that is not blank is the marker of a
comment. -/
def Veiled (m : Line) : Prop := m.kind = .text ∧ (Text.trim m.content).head? = some '>'

instance (m : Line) : Decidable m.Veiled := inferInstanceAs (Decidable (_ ∧ _))

/-- As it is measured, the line is blank, a comment, or text that looks like one. -/
def PassedOver (m : Line) : Prop := m.kind = .blank ∨ m.kind = .comment ∨ m.Veiled

instance (m : Line) : Decidable m.PassedOver := inferInstanceAs (Decidable (_ ∨ _))

end Line

namespace SourceLine

variable {unit : Indentation} {l : SourceLine} {m : Line}

/-- Trimming takes off the indentation, too. -/
theorem trim_of_scan (h : l.scan unit = .ok m) : Text.trim l.text = Text.trim m.content := by
  obtain ⟨htrim, -⟩ := Indentation.scan_ok h
  obtain ⟨blanks, hblanks, htext⟩ := Text.exists_eq_trimEnd_append l.text
  have hlevels : Text.allBlank (List.replicate m.width unit.unitChar) = true := by
    simp [Text.allBlank, Indentation.isBlank_unitChar]
  rw [htext, Text.trim_append_of_allBlank _ hblanks, htrim, Text.trim_append_left hlevels]

/-- A measured line is blank as soon as its content is. -/
theorem content_eq_nil_of_scan (h : l.scan unit = .ok m) (hcontent : Text.trim m.content = []) :
    m.content = [] := by
  have hblank : Text.allBlank l.text = true := by
    rw [← Text.trim_eq_nil_iff, trim_of_scan h, hcontent]
  rw [scan, Indentation.scan_of_allBlank hblank] at h
  cases h
  rfl

/-- A line is silent if it is measured as blank or as a comment, or as text that looks like a
comment. -/
theorem isSilent_iff_of_scan (h : l.scan unit = .ok m) : l.isSilent = true ↔ m.PassedOver := by
  have hnil := content_eq_nil_of_scan h
  rw [isSilent, trim_of_scan h, Line.PassedOver, Line.Veiled, Line.kind]
  cases hcontent : m.content with
  | nil => exact iff_of_true rfl (.inl rfl)
  | cons c t =>
      rw [hcontent] at hnil
      cases hc : Text.isBlank c with
      | true =>
          have hkind := LineKind.ofContent_of_isBlank hc t
          cases htrim : Text.trim (c :: t) with
          | nil => cases hnil htrim
          | cons d u => simp [hkind]
      | false =>
          obtain ⟨u, hu⟩ := Text.trimEnd_cons_of_not_isBlank hc t
          have htrim : Text.trim (c :: t) = c :: u := by
            rw [Text.trim, Text.trimStart, List.dropWhile_cons_of_neg (by simp [hc]), hu]
          rw [htrim]
          by_cases hmarker : c = '>'
          · subst hmarker
            exact iff_of_true rfl (.inr (.inl rfl))
          · have hcomment : LineKind.ofContent (c :: t) ≠ .comment := fun hkind =>
              hmarker (Option.some.inj (LineKind.head?_of_ofContent hkind rfl))
            have hsolid : LineKind.ofContent (c :: t) ≠ .blank := fun hkind =>
              List.cons_ne_nil c t (LineKind.eq_nil_of_ofContent hkind)
            simp [hmarker, hcomment, hsolid]

end SourceLine

/-! ### Readers -/

section Lines

variable {l : SourceLine} {ls : List SourceLine}

theorem skipSilent_cons_of_silent (h : l.isSilent = true) (ls : List SourceLine) :
    skipSilent (l :: ls) = skipSilent ls := List.dropWhile_cons_of_pos h

theorem skipSilent_cons_of_loud (h : l.isSilent = false) (ls : List SourceLine) :
    skipSilent (l :: ls) = l :: ls := List.dropWhile_cons_of_neg (by simp [h])

theorem skipSilent_skipSilent (ls : List SourceLine) :
    skipSilent (skipSilent ls) = skipSilent ls := by
  cases hfound : skipSilent ls with
  | nil => rfl
  | cons l rest =>
      have hhead := List.head?_dropWhile_not (·.isSilent) ls
      rw [← skipSilent, hfound] at hhead
      exact skipSilent_cons_of_loud hhead rest

end Lines

namespace Block

variable {α : Type}

/-- What a reader gives, and of the lines that it leaves those from the first on that says
something. -/
def heard (x : CompileM (α × List SourceLine)) : CompileM (α × List SourceLine) :=
  (fun r => (r.1, skipSilent r.2)) <$> x

theorem next_skipSilent (ls : List SourceLine) : next (skipSilent ls) = next ls := by
  rw [next, next, skipSilent_skipSilent]

/-- A block does not depend on the silent lines in front. -/
theorem heard_readBlock (e : Expander) (depth : Nat) (ls : List SourceLine) :
    heard (readBlock e depth (skipSilent ls)) = heard (readBlock e depth ls) := by
  rw [readBlock_eq e depth (skipSilent ls), readBlock_eq e depth ls, skipSilent_skipSilent]
  cases hfound : skipSilent ls with
  | nil => simp [heard, hfound, show skipSilent [] = [] from rfl]
  | cons l rest =>
      have hloud : skipSilent (l :: rest) = skipSilent ls := by
        rw [← hfound, skipSilent_skipSilent]
      simp only [heard, map_bind]
      refine bind_congr fun m => ?_
      split
      · simp [hloud]
      · rfl

/-- Neither does an image, which looks for lines below it. -/
theorem heard_readImage (owner : Line) (head : TagLine) (ls : List SourceLine) :
    heard (readImage owner head (skipSilent ls)) = heard (readImage owner head ls) := by
  unfold readImage
  rw [next_skipSilent]
  cases head.attributes.find? "href".toList with
  | none => rfl
  | some source =>
      simp only [heard, map_bind]
      refine bind_congr fun below => ?_
      cases below with
      | none => simp [skipSilent_skipSilent]
      | some found =>
          dsimp only
          split
          · rfl
          · simp [skipSilent_skipSilent]

variable {l : SourceLine} {m : Line} {c : Context}

theorem next_of_loud (hloud : l.isSilent = false) (hscan : l.scan c.indentation = .ok m)
    (rest : List SourceLine) : next (l :: rest) c = .ok (some (m, rest)) c := by
  rw [next, skipSilent_cons_of_loud hloud]
  exact scan_bind_run hscan _

/-- An image in front of a line that says something is read, unless it has no link or the line is
deeper. -/
theorem readImage_of_loud (hloud : l.isSilent = false) (hscan : l.scan c.indentation = .ok m)
    (owner : Line) (head : TagLine) (rest : List SourceLine) :
    (∃ el, readImage owner head (l :: rest) c = .ok (el, l :: rest) c) ↔
      (head.attributes.find? "href".toList).isSome = true ∧ m.depth ≤ owner.depth := by
  unfold readImage
  cases head.attributes.find? "href".toList with
  | none => exact iff_of_false (fun ⟨el, hrun⟩ => nomatch hrun) fun ⟨hlink, _⟩ => nomatch hlink
  | some source =>
      dsimp only
      rw [CompileM.bind_run_ok (next_of_loud hloud hscan rest)]
      dsimp only
      split
      · next hdeep => exact iff_of_false (fun ⟨el, hrun⟩ => nomatch hrun) (by omega)
      · next hshallow => exact iff_of_true ⟨_, rfl⟩ ⟨rfl, by omega⟩

/-- A line that can be measured is passed over if it is measured as blank or as a comment, or as
text that looks like a comment, and only then. Blocks, images and the top level of a document are
read as if a line that is passed over were not there; any other line is the next one for all of
them. -/
theorem passes_over_iff (hscan : l.scan c.indentation = .ok m) (rest : List SourceLine) :
    ((∀ d, next (l :: rest) c ≠ .ok (some (m, rest)) d) ↔
      m.kind = .blank ∨ m.kind = .comment ∨ m.Veiled) ∧
    (m.PassedOver → next (l :: rest) = next rest ∧
      (∀ e depth, heard (readBlock e depth (l :: rest)) = heard (readBlock e depth rest)) ∧
      (∀ owner head, heard (readImage owner head (l :: rest)) = heard (readImage owner head rest)) ∧
      ∀ e x o, Document.readTop e x o (l :: rest) = Document.readTop e x o rest) ∧
    (¬ m.PassedOver → next (l :: rest) c = .ok (some (m, rest)) c ∧
      (∀ e depth, readBlock e depth (l :: rest) c =
        (if m.depth < depth then pure ([], l :: rest)
          else if depth < m.depth then .failAt (.tooDeep depth m.depth) m.number none
          else readLine e m rest >>= fun r => readBlock e depth r.2 >>= fun more =>
            pure (r.1 ++ more.1, more.2)) c) ∧
      (∀ owner head, (∃ el, readImage owner head (l :: rest) c = .ok (el, l :: rest) c) ↔
        (head.attributes.find? "href".toList).isSome = true ∧ m.depth ≤ owner.depth) ∧
      ∀ e x o, Document.readTop e x o (l :: rest) c =
        (Document.readLine e x o m rest >>= fun r => Document.readTop e x r.1 r.2) c) := by
  have hlook := SourceLine.isSilent_iff_of_scan hscan
  have hloud (h : ¬ m.PassedOver) : l.isSilent = false := by
    rwa [← hlook, Bool.not_eq_true] at h
  have hpassed (h : m.PassedOver) : skipSilent (l :: rest) = skipSilent rest :=
    skipSilent_cons_of_silent (hlook.2 h) rest
  have hnext (h : m.PassedOver) : next (l :: rest) = next rest := by
    rw [← next_skipSilent, hpassed h, next_skipSilent]
  refine ⟨⟨fun hnone => ?_, fun h d hrun => ?_⟩, fun h => ⟨hnext h, fun e depth => ?_,
    fun owner head => ?_, fun e x o => ?_⟩, fun h => ⟨next_of_loud (hloud h) hscan rest,
    fun e depth => ?_, fun owner head => readImage_of_loud (hloud h) hscan owner head rest,
    fun e x o => ?_⟩⟩
  · by_contra h
    exact hnone c (next_of_loud (hloud h) hscan rest)
  · -- what is behind the next line is shorter than what is behind this one
    rw [hnext h, next] at hrun
    cases hfound : skipSilent rest with
    | nil =>
        rw [hfound] at hrun
        cases hrun
    | cons head behind =>
        rw [hfound] at hrun
        obtain ⟨m', -, hpair⟩ := exists_of_scan_bind hrun
        cases hpair
        have hsuffix : skipSilent rest <:+ rest := List.dropWhile_suffix _
        rw [hfound] at hsuffix
        exact absurd hsuffix.length_le (by simp)
  · rw [← heard_readBlock, hpassed h, heard_readBlock]
  · rw [← heard_readImage, hpassed h, heard_readImage]
  · rw [Document.readTop_eq, hpassed h, ← Document.readTop_eq]
  · rw [readBlock_eq, skipSilent_cons_of_loud (hloud h)]
    exact scan_bind_run hscan _
  · rw [Document.readTop_cons (hloud h)]
    exact scan_bind_run hscan _

/-- Lines with spaces for indentation. -/
def spacedContext : Context := { Context.start with indentation := .spaces 2 }

/-- A no-break space in front of a comment's marker, and a line with an element. -/
def veiledLine : SourceLine := ⟨3, "  \u00a0> note".toList⟩

def taggedLine : SourceLine := ⟨4, "  .b x".toList⟩

theorem passes_over_iff_veiledLine :
    veiledLine.scan (.spaces 2) = .ok ⟨3, 1, 2, "\u00a0> note".toList⟩ ∧
      next [veiledLine, taggedLine] spacedContext
        = .ok (some (⟨4, 1, 2, ".b x".toList⟩, [])) spacedContext := by
  have hveiled : veiledLine.scan (.spaces 2) = .ok ⟨3, 1, 2, "\u00a0> note".toList⟩ := rfl
  have htagged : taggedLine.scan (.spaces 2) = .ok ⟨4, 1, 2, ".b x".toList⟩ := rfl
  obtain ⟨-, hpassed, -⟩ := passes_over_iff (c := spacedContext) hveiled [taggedLine]
  obtain ⟨-, -, hread⟩ := passes_over_iff (c := spacedContext) htagged []
  refine ⟨hveiled, ?_⟩
  rw [(hpassed (by decide +kernel)).1]
  exact (hread (by decide +kernel)).1

/-- A line that is measured as text is passed over: a wide space stands in front of the marker of a
comment. -/
theorem next_of_wideSpace :
    ∃ m, SourceLine.scan .tabs ⟨0, "\u3000> b".toList⟩ = .ok m ∧ m.kind = .text ∧
      next [⟨0, "\u3000> b".toList⟩] .start = .ok none .start := by
  have hsilent : SourceLine.isSilent ⟨0, "\u3000> b".toList⟩ = true := by decide +kernel
  refine ⟨⟨0, 0, 0, "\u3000> b".toList⟩, rfl, rfl, ?_⟩
  rw [next, skipSilent_cons_of_silent hsilent]
  rfl

end Block

end IndentMarkup
