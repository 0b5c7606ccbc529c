import IndentMarkup.Line
import IndentMarkup.Template

/-!
Texts line by line.

Sources are cut into lines, and everything that is done to the body of a template before
that, protecting its closing brackets and putting values in the place of references, is
done to each line by itself. Of the lines that come out only those count that are not
blank.

* `Text.pieces_join`, `Text.join_pieces` — pieces of texts and texts of pieces.
* `Text.splitLines_join`, `Text.join_splitLines` — lines and texts.
* `Text.Linewise` — a function of texts that treats every line by itself.
* `Text.solidLines_of_linewise` — the lines that are not blank go through such a function.
* `linewise_protectClosers`, `linewise_replace` — what is done to bodies is of this kind.
-/

namespace IndentMarkup

namespace Text

/-! ### Lines and texts -/

/-- A character that cuts ends a piece, wherever it stands. -/
theorem pieces_append_cons {p : Char → Bool} {c : Char} (hc : p c = true) (s t : Text) :
    pieces p (s ++ c :: t) = pieces p s ++ pieces p t := by
  -- on what stands in front: a character that does not cut joins the first piece
  induction s with
  | nil => simp [pieces, hc]
  | cons d s ih =>
      by_cases hd : p d = true
      · simp [pieces, hd, ih]
      · rcases List.exists_cons_of_ne_nil (pieces_ne_nil p s) with ⟨q, qs, hq⟩
        simp [pieces, hd, ih, hq]

/-- A text without the character is one piece. -/
theorem pieces_of_notMem {c : Char} {t : Text} (h : c ∉ t) : pieces (· == c) t = [t] := by
  apply pieces_of_no_cut
  intro d hd
  have hne : d ≠ c := fun heq => h (heq ▸ hd)
  simpa using hne

/-- Texts without the character are the pieces of what they are joined to. -/
theorem pieces_join {c : Char} {ts : List Text} (hsome : ts ≠ []) (h : ∀ t ∈ ts, c ∉ t) :
    pieces (· == c) (join [c] ts) = ts := by
  induction ts with
  | nil => exact absurd rfl hsome
  | cons t ts ih =>
      obtain ⟨ht, hts⟩ := List.forall_mem_cons.1 h
      cases ts with
      | nil => exact pieces_of_notMem ht
      | cons u ts =>
          rw [join, List.append_assoc, List.singleton_append, pieces_append_cons (by simp),
            pieces_of_notMem ht, ih (List.cons_ne_nil u ts) hts]
          rfl

theorem join_cons_cons (separator : Text) (c : Char) (t : Text) (ts : List Text) :
    join separator ((c :: t) :: ts) = c :: join separator (t :: ts) := by
  cases ts <;> rfl

/-- Pieces that are joined give the text back. -/
theorem join_pieces (c : Char) (t : Text) : join [c] (pieces (· == c) t) = t := by
  induction t with
  | nil => rfl
  -- the character in front either cuts or belongs to the first piece of the rest
  | cons d t ih =>
      rcases List.exists_cons_of_ne_nil (pieces_ne_nil (· == c) t) with ⟨q, qs, hq⟩
      rw [hq] at ih
      by_cases hd : d = c
      · subst hd
        simp [pieces, hq, join, ih]
      · simp [pieces, hd, hq, join_cons_cons, ih]

/-- A line feed ends a line. -/
theorem splitLines_append (s t : Text) :
    splitLines (s ++ '\n' :: t) = splitLines s ++ splitLines t :=
  pieces_append_cons (by decide) s t

theorem splitLines_of_notMem {t : Text} (h : '\n' ∉ t) : splitLines t = [t] := pieces_of_notMem h

theorem splitLines_ne_nil (t : Text) : splitLines t ≠ [] := pieces_ne_nil _ t

/-- The lines of texts that stand one below the other. -/
theorem splitLines_join {ts : List Text} (h : ts ≠ []) :
    splitLines (join ['\n'] ts) = ts.flatMap splitLines := by
  induction ts with
  | nil => exact absurd rfl h
  | cons t ts ih =>
      cases ts with
      | nil => simp [join]
      | cons u ts =>
          rw [join, List.append_assoc, List.singleton_append, splitLines_append,
            ih (List.cons_ne_nil u ts)]
          rfl

/-- Texts without line feeds are lines already. -/
theorem flatMap_splitLines {ts : List Text} (h : ∀ t ∈ ts, '\n' ∉ t) :
    ts.flatMap splitLines = ts := by
  induction ts with
  | nil => rfl
  | cons t ts ih =>
      rw [List.flatMap_cons, splitLines_of_notMem (h t List.mem_cons_self),
        ih fun u hu => h u (List.mem_cons_of_mem t hu)]
      rfl

/-- The lines of a text, joined, are the text. -/
theorem join_splitLines (t : Text) : join ['\n'] (splitLines t) = t := join_pieces '\n' t

theorem notMem_of_mem_splitLines {l t : Text} (h : l ∈ splitLines t) : '\n' ∉ l := by
  intro hmem
  exact absurd (not_cut_of_mem_pieces h hmem) (by decide)

/-! ### Functions of lines -/

/-- The function treats every line by itself and leaves blank texts blank. -/
structure Linewise (f : Text → Text) : Prop where
  newline (s t : Text) : f (s ++ '\n' :: t) = f s ++ '\n' :: f t
  blank {t : Text} : allBlank t = true → allBlank (f t) = true

/-- The lines of a text that are not blank. -/
def solidLines (t : Text) : List Text := (splitLines t).filter (!allBlank ·)

namespace Linewise

variable {f : Text → Text} (hf : Linewise f)
include hf

/-- Such a function goes through lines that are joined. -/
theorem join {ts : List Text} (h : ts ≠ []) :
    f (Text.join ['\n'] ts) = Text.join ['\n'] (ts.map f) := by
  induction ts with
  | nil => exact absurd rfl h
  | cons t ts ih =>
      cases ts with
      | nil => rfl
      | cons u ts =>
          have hu := ih (List.cons_ne_nil u ts)
          rw [Text.join, List.append_assoc, List.singleton_append, hf.newline, hu]
          simp [Text.join]

/-- The lines of what comes out are those of the lines. -/
theorem splitLines (t : Text) :
    Text.splitLines (f t) = ((Text.splitLines t).map f).flatMap Text.splitLines := by
  have hne := splitLines_ne_nil t
  calc Text.splitLines (f t)
      = Text.splitLines (f (Text.join ['\n'] (Text.splitLines t))) := by rw [join_splitLines]
    _ = Text.splitLines (Text.join ['\n'] ((Text.splitLines t).map f)) := by rw [hf.join hne]
    _ = _ := splitLines_join (by simpa using hne)

end Linewise

/-- Lines that are not blank, for texts one below the other. -/
theorem solidLines_join (ts : List Text) :
    solidLines (join ['\n'] ts) = ts.flatMap solidLines := by
  by_cases h : ts = []
  · subst h
    decide
  · rw [solidLines, splitLines_join h, List.filter_flatMap]
    rfl

/-- Lines that are not blank already are those that count. -/
theorem solidLines_join_of_solid {ts : List Text}
    (h : ∀ t ∈ ts, '\n' ∉ t ∧ allBlank t = false) : solidLines (join ['\n'] ts) = ts := by
  rw [solidLines_join]
  change ts.flatMap (fun t => (splitLines t).filter (!allBlank ·)) = ts
  rw [← List.filter_flatMap, flatMap_splitLines fun t ht => (h t ht).1, List.filter_eq_self]
  intro t ht
  simp [(h t ht).2]

/-- A blank text has blank lines only. -/
theorem allBlank_of_mem_splitLines {l t : Text} (ht : allBlank t = true)
    (hl : l ∈ splitLines t) : allBlank l = true := by
  induction t generalizing l with
  | nil =>
      rw [List.mem_singleton.1 hl]
      rfl
  | cons c t ih =>
      obtain ⟨hc, ht⟩ : isBlank c = true ∧ allBlank t = true := by simpa [allBlank] using ht
      rcases List.exists_cons_of_ne_nil (splitLines_ne_nil t) with ⟨q, qs, hq⟩
      have hmem : ∀ l ∈ q :: qs, allBlank l = true := fun l hl => ih ht (hq ▸ hl)
      unfold splitLines at hq hl
      -- a line feed starts an empty line, another character joins the first line; both are blank
      rw [pieces, hq] at hl
      split at hl
      · rcases List.mem_cons.1 hl with rfl | hl
        · rfl
        · exact hmem l hl
      · rcases List.mem_cons.1 hl with rfl | hl
        · simpa [allBlank, hc] using hmem q List.mem_cons_self
        · exact hmem l (List.mem_cons_of_mem q hl)

/-- A blank text has no lines that count. -/
theorem solidLines_of_allBlank {t : Text} (h : allBlank t = true) : solidLines t = [] := by
  rw [solidLines, List.filter_eq_nil_iff]
  intro l hl
  simp [allBlank_of_mem_splitLines h hl]

/-- The lines that are not blank come from such lines. -/
theorem solidLines_of_linewise {f : Text → Text} (hf : Linewise f) (t : Text) :
    solidLines (f t) = (solidLines t).flatMap fun l => solidLines (f l) := by
  rw [solidLines, hf.splitLines, List.filter_flatMap, List.flatMap_map]
  change (splitLines t).flatMap (fun l => solidLines (f l)) = _
  rw [solidLines]
  induction splitLines t with
  | nil => rfl
  | cons l ls ih =>
      rw [List.flatMap_cons, ih]
      -- a blank line comes out blank and does not count, any other is what the function makes of it
      cases hl : allBlank l with
      | true => simp [hl, solidLines_of_allBlank (hf.blank hl)]
      | false => simp [hl]

/-! ### Texts that go together line by line -/

/-- The lines of `t'` that are not blank are those of `t` changed by `f`; these have the
property `p`. -/
structure Follows (p : Text → Prop) (f : Text → Text) (t t' : Text) : Prop where
  lines : solidLines t' = (solidLines t).map f
  holds : ∀ l ∈ solidLines t, p l

namespace Follows

variable {p : Text → Prop} {f : Text → Text} {t t' : Text}

/-- Blank texts go together. -/
theorem of_allBlank (h : allBlank t = true) (h' : allBlank t' = true) : Follows p f t t' where
  lines := by rw [solidLines_of_allBlank h, solidLines_of_allBlank h', List.map_nil]
  holds := by rw [solidLines_of_allBlank h]; exact nofun

/-- Texts that go together one by one go together as lists of lines. -/
theorem flatMap {ts : List Text} {g g' : Text → Text}
    (h : ∀ t ∈ ts, Follows p f (g t) (g' (f t))) :
    (ts.map f).flatMap (fun l => solidLines (g' l))
        = (ts.flatMap fun l => solidLines (g l)).map f ∧
      ∀ l ∈ ts.flatMap (fun l => solidLines (g l)), p l := by
  constructor
  · rw [List.flatMap_map, List.map_flatMap, List.flatMap_def, List.flatMap_def,
      List.map_congr_left fun t ht => (h t ht).lines]
  · intro l hl
    obtain ⟨t, ht, hl⟩ := List.mem_flatMap.1 hl
    exact (h t ht).holds l hl

/-- Texts go together after what is done to each line if it keeps lines together. -/
theorem linewise (h : Follows p f t t') {g : Text → Text} (hg : Linewise g)
    (hline : ∀ l, p l → Follows p f (g l) (g (f l))) : Follows p f (g t) (g t') := by
  have hlines := flatMap fun l hl => hline l (h.holds l hl)
  rw [← h.lines, ← solidLines_of_linewise hg, ← solidLines_of_linewise hg] at hlines
  exact ⟨hlines.1, hlines.2⟩

end Follows

/-! ### What is done to bodies -/

/-- Dropping characters other than line feeds is done line by line. -/
theorem linewise_filter {p : Char → Bool} (hp : p '\n' = true) : Linewise (List.filter p) where
  newline s t := by simp [hp]
  blank ht := by
    simp only [allBlank, List.all_eq_true, List.mem_filter] at ht ⊢
    exact fun c hc => ht c hc.1

/-- A text without line feeds begins a text exactly if it begins its first line. -/
theorem isPrefixOf_append_newline {old : Text} (h : '\n' ∉ old) (s t : Text) :
    old.isPrefixOf (s ++ '\n' :: t) = old.isPrefixOf s := by
  -- on the text in front: either it ends within the first line, or the line feed stops the other
  induction s generalizing old with
  | nil =>
      cases old with
      | nil => rfl
      | cons c old =>
          have hc : c ≠ '\n' := fun heq => h (heq ▸ List.mem_cons_self)
          simp [List.isPrefixOf, hc]
  | cons d s ih =>
      cases old with
      | nil => rfl
      | cons c old =>
          have hold := @ih old fun hmem => h (List.mem_cons_of_mem c hmem)
          simp [List.isPrefixOf, hold]

/-- A text without line feeds is replaced line by line. -/
theorem replace_newline {old : Text} (hne : old ≠ []) (h : '\n' ∉ old) (new s t : Text) :
    replace old new (s ++ '\n' :: t) = replace old new s ++ '\n' :: replace old new t := by
  -- on the length of the text in front, since a match takes all its characters at once
  induction hlength : s.length using Nat.strongRecOn generalizing s with
  | ind n ih =>
      have hstarts := isPrefixOf_append_newline h s t
      cases s with
      | nil =>
          rcases List.exists_cons_of_ne_nil hne with ⟨c, old, rfl⟩
          exact replace_cons_of_not_match hstarts
      | cons c s =>
          rw [List.cons_append] at hstarts ⊢
          cases hmatch : old.isPrefixOf (c :: s) with
          | false =>
              have hshorter : s.length < n := hlength ▸ Nat.lt_succ_self s.length
              rw [replace_cons_of_not_match (hstarts.trans hmatch),
                replace_cons_of_not_match hmatch, ih _ hshorter s rfl]
              rfl
          | true =>
              -- a match lies within the first line and does not reach the line feed
              have hle : old.length - 1 ≤ s.length := by
                have hle := (List.isPrefixOf_iff_prefix.1 hmatch).length_le
                rw [List.length_cons] at hle
                omega
              have hshorter : (s.drop (old.length - 1)).length < n := by
                rw [← hlength, List.length_drop, List.length_cons]
                omega
              rw [replace_cons_of_match (hstarts.trans hmatch), replace_cons_of_match hmatch,
                List.drop_append_of_le_length hle, ih _ hshorter _ rfl, List.append_assoc]

/-- A text that starts with a character that is not blank does not occur in blank ones. -/
theorem replace_of_allBlank {c : Char} (hc : isBlank c = false) (old new : Text) {t : Text}
    (ht : allBlank t = true) : replace (c :: old) new t = t := by
  induction t with
  | nil => exact replace_nil _ _
  | cons d t ih =>
      obtain ⟨hd, ht⟩ : isBlank d = true ∧ allBlank t = true := by simpa [allBlank] using ht
      have hne : c ≠ d := by
        rintro rfl
        simp [hc] at hd
      rw [replace_cons_of_not_match (by simp [List.isPrefixOf, hne]), ih ht]

/-- Replacing a text that starts with a character that is not blank is done line by line. -/
theorem linewise_replace {c : Char} (hc : isBlank c = false) {old : Text}
    (h : '\n' ∉ c :: old) (new : Text) : Linewise (replace (c :: old) new) where
  newline := replace_newline (List.cons_ne_nil c old) h new
  blank ht := by rwa [replace_of_allBlank hc old new ht]

end Text

namespace Template

/-- Closing brackets are protected line by line. -/
theorem protectClosers_newline (s t : Text) :
    protectClosers (s ++ '\n' :: t) = protectClosers s ++ '\n' :: protectClosers t := by
  -- a line feed is neither a backslash nor a bracket
  have hnewline : ∀ t, protectClosers ('\n' :: t) = '\n' :: protectClosers t := by
    intro t
    cases t <;> simp [protectClosers]
  induction s using protectClosers.induct with
  | case1 => exact hnewline t
  | case2 c => simp [protectClosers, hnewline]
  | case3 c d u hmatch ih =>
      rcases hmatch with ⟨rfl, rfl⟩
      simp only [List.cons_append, protectClosers, and_self, if_true, ih, List.append_assoc]
  | case4 c d u hne ih =>
      simp only [List.cons_append] at ih
      simp only [List.cons_append, protectClosers, hne, if_false, ih]

/-- References are replaced line by line. -/
theorem linewise_reference {parameter : Text} (h : '\n' ∉ parameter) (value : Text) :
    Text.Linewise (Text.replace (reference parameter) value) :=
  Text.linewise_replace (c := '>') (by decide) (by simpa using h) value

/-- A text without a backslash in front of a closing bracket stays as it is. -/
theorem protectClosers_of_no_closer {t : Text} (h : ¬ ['\\', '>'] <:+: t) :
    protectClosers t = t := by
  induction t using protectClosers.induct with
  | case1 => rfl
  | case2 c => rfl
  | case3 c d u hmatch ih =>
      rcases hmatch with ⟨rfl, rfl⟩
      exact absurd (List.prefix_append ['\\', '>'] u).isInfix h
  | case4 c d u hne ih =>
      have hrest : ¬ ['\\', '>'] <:+: d :: u :=
        fun hcloser => h (hcloser.trans (List.suffix_cons c _).isInfix)
      simp only [protectClosers, hne, if_false, ih hrest]

/-- The protection of closing brackets leaves blank texts blank, as a backslash is not blank. -/
theorem linewise_protectClosers : Text.Linewise protectClosers where
  newline := protectClosers_newline
  blank {t} ht := by
    have hcloser : ¬ ['\\', '>'] <:+: t := by
      intro hcloser
      have hmem := hcloser.subset (List.mem_cons_self (a := '\\'))
      have hblank := List.all_eq_true.1 ht '\\' hmem
      revert hblank
      decide
    rwa [protectClosers_of_no_closer hcloser]

end Template

/-! ### The lines of a source -/

namespace SourceLine

/-- The lines of a source are cut first and freed of carriage returns then, and an empty one stands
behind them. -/
theorem textsOf_eq (source : Text) :
    textsOf source = (Text.splitLines source).map (List.filter (· ≠ '\r')) ++ [[]] := by
  have hfilter := Text.linewise_filter (p := (· ≠ '\r')) (by decide)
  rw [textsOf, Text.splitLines_append, hfilter.splitLines, Text.flatMap_splitLines]
  · rfl
  · intro l hl hmem
    rcases List.mem_map.1 hl with ⟨raw, hraw, rfl⟩
    exact Text.notMem_of_mem_splitLines hraw (List.mem_filter.1 hmem).1

/-- No line of a source has a line feed or a carriage return. -/
theorem notMem_of_mem_textsOf {source t : Text} (ht : t ∈ textsOf source) :
    '\n' ∉ t ∧ '\r' ∉ t := by
  rw [textsOf_eq, List.mem_append, List.mem_map, List.mem_singleton] at ht
  rcases ht with ⟨raw, hraw, rfl⟩ | rfl
  · constructor
    · exact fun hmem => Text.notMem_of_mem_splitLines hraw (List.mem_filter.1 hmem).1
    · simp
  · simp

theorem filter_carriage_of_notMem {t : Text} (h : '\r' ∉ t) : t.filter (· ≠ '\r') = t := by
  rw [List.filter_eq_self]
  intro c hc
  have hne : c ≠ '\r' := fun heq => h (heq ▸ hc)
  simpa using hne

/-- Lines that are written one below the other are read again, with an empty one behind
them. -/
theorem textsOf_join {ts : List Text} (hne : ts ≠ []) (h : ∀ t ∈ ts, '\n' ∉ t ∧ '\r' ∉ t) :
    textsOf (Text.join ['\n'] ts) = ts ++ [[]] := by
  have hfilter : ∀ t ∈ ts, t.filter (· ≠ '\r') = id t := by
    intro t ht
    exact filter_carriage_of_notMem (h t ht).2
  rw [textsOf_eq, Text.splitLines_join hne, Text.flatMap_splitLines fun t ht => (h t ht).1,
    List.map_congr_left hfilter, List.map_id]

/-- Carriage returns do not count for what is blank. -/
theorem allBlank_filter_carriage (t : Text) :
    Text.allBlank (t.filter (· ≠ '\r')) = Text.allBlank t := by
  rw [Text.allBlank, List.all_filter, Text.allBlank]
  apply List.all_congr rfl
  intro c
  by_cases hc : c = '\r'
  · subst hc
    decide
  · simp [hc]

/-- The lines of a source that are not blank. -/
theorem filter_textsOf (source : Text) :
    (textsOf source).filter (!Text.allBlank ·)
      = (Text.solidLines source).map (List.filter (· ≠ '\r')) := by
  have hblank : (fun t => !Text.allBlank t) ∘ List.filter (· ≠ '\r')
      = fun t => !Text.allBlank t := by
    funext t
    exact congrArg (!·) (allBlank_filter_carriage t)
  rw [textsOf_eq, List.filter_append, List.filter_map, hblank]
  exact List.append_nil _

end SourceLine

end IndentMarkup
