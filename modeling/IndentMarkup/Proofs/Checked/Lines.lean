import IndentMarkup.Block
import IndentMarkup.Proofs.Checked.Format

/-!
Lines, checked.

The indentation of a line is counted in characters and cut off in bytes, and so are its marker
and its name; the unit that its indentation is divided by is a number that the author chose.
Each function here does what the function of the same name does, with arithmetic and slices that
can fail, and it is shown where they do not.

* `Checked.scan`, `Checked.scan_eq` — a line is measured.
* `Checked.behindMarker`, `Checked.directiveParts`, `Checked.callParts`, `Checked.readTag`,
  `Checked.margin` — what stands on a line.
* `Checked.dedent`, `Checked.dedent_eq` — the body of a template.
-/

namespace IndentMarkup

/-! ### Units of indentation -/

namespace Indentation

/-- A level of indentation has at least one character, and as many as fit into a word of 64
bits. -/
structure Sized (unit : Indentation) : Prop where
  ne_zero : unit.unitLength ≠ 0
  fits : unit.unitLength < UInt64.size

theorem sized_tabs : tabs.Sized := ⟨by simp [unitLength], by simp [unitLength, UInt64.size]⟩

theorem sized_ofWidth {width : Nat} (h : width < UInt64.size) : (ofWidth width).Sized := by
  unfold ofWidth
  split
  · exact sized_tabs
  · next hne => exact ⟨hne, h⟩

theorem utf8Size_unitChar (unit : Indentation) : unit.unitChar.utf8Size = 1 := by
  cases unit <;> rfl

/-- Characters of indentation have one byte each. -/
theorem byteLength_replicate_unitChar (unit : Indentation) (n : Nat) :
    Text.byteLength (List.replicate n unit.unitChar) = n :=
  Text.byteLength_replicate unit.utf8Size_unitChar n

/-- With one level more the width of a line of a document still fits. -/
theorem deeper_lt {unit : Indentation} (hunit : unit.Sized) {number : Nat} {raw : Text} {l : Line}
    (hraw : Text.byteLength raw < Text.byteLimit) (h : unit.scan number raw = .ok l) :
    unit.unitLength * (l.depth + 1) < UInt64.size := by
  obtain ⟨hmargin, hwidth, -, -⟩ := scan_ok h
  have hshort : l.width < Text.byteLimit := by
    obtain ⟨blanks, -, hblanks⟩ := Text.exists_eq_trimEnd_append raw
    rw [hblanks, hmargin] at hraw
    simp only [Text.byteLength_append, byteLength_replicate_unitChar] at hraw
    omega
  cases hdepth : l.depth with
  | zero => simpa using hunit.fits
  | succ depth =>
      -- The unit is not wider than the line is indented.
      have hunit_le : unit.unitLength ≤ l.width := by
        rw [hwidth, hdepth]
        exact Nat.le_mul_of_pos_right _ (Nat.succ_pos depth)
      rw [← hdepth, Nat.mul_succ, ← hwidth]
      have hword : UInt64.size = Text.byteLimit + Text.byteLimit := rfl
      omega

end Indentation

namespace Checked

/-! ### Measuring -/

/-- Measure the indentation of a text: its depth and its width. -/
def measure (unit : Indentation) (number : Nat) (t : Text) :
    Option (Except IndentError (Nat × Nat)) := do
  let width := (t.takeWhile (· = unit.unitChar)).length
  let (_, content) ← t.splitBytes? width
  if content.head? = some ' ' ∨ content.head? = some '\t' then
    match unit with
    | .tabs => return .error ⟨.spaceAmongTabs, number, width⟩
    | .spaces n => return .error ⟨.tabAmongSpaces n, number, width⟩
  else
    let partLevel ← mod width unit.unitLength
    if partLevel ≠ 0 then return .error ⟨.partialLevel width unit.unitLength, number, width⟩
    else return .ok (← div width unit.unitLength, width)

/-- Measure a line and take its indentation off. -/
def scan (unit : Indentation) (number : Nat) (raw : Text) : Option (Except IndentError Line) := do
  let t := raw.trimEnd
  if t.trimStart = [] then return .ok ⟨number, 0, 0, []⟩
  else
    match ← measure unit number t with
    | .error e => return .error e
    | .ok (depth, width) =>
        let (_, content) ← t.splitBytes? width
        return .ok ⟨number, depth, width, content⟩

/-- A text can be cut behind its indentation. -/
theorem splitBytes?_margin (unit : Indentation) (t : Text) :
    t.splitBytes? (t.takeWhile (· = unit.unitChar)).length =
      some (t.takeWhile (· = unit.unitChar), t.dropWhile (· = unit.unitChar)) := by
  have hbytes := unit.byteLength_replicate_unitChar (t.takeWhile (· = unit.unitChar)).length
  rw [← Text.takeWhile_eq_replicate] at hbytes
  rw [Text.splitBytes?_eq_some, List.takeWhile_append_dropWhile]
  exact ⟨rfl, hbytes.symm⟩

/-- In a unit that has a character, a line is measured without a failure. -/
theorem scan_eq {unit : Indentation} (hunit : unit.unitLength ≠ 0) (number : Nat) (raw : Text) :
    scan unit number raw = some (unit.scan number raw) := by
  have hcut := splitBytes?_margin unit raw.trimEnd
  unfold scan Indentation.scan measure
  simp only [Text.trimStart_trimEnd_eq_nil_iff, mod_of_ne_zero hunit, div_of_ne_zero hunit, hcut,
    Option.bind_eq_bind, Option.bind_some]
  by_cases hblank : raw.trimEnd = []
  · simp [hblank]
  · rw [if_neg hblank, if_neg hblank]
    split
    · cases unit <;> rfl
    · split
      · rfl
      · simp [hcut]

/-! ### Markers -/

/-- What stands behind the marker of a line, which is cut off as one byte. -/
def behindMarker (l : Line) : Option Text := (l.content.splitBytes? 1).map Prod.snd

/-- Markers have one byte. -/
theorem splitBytes?_marker {l : Line} (h : l.kind.marker?.isSome = true) :
    l.content.splitBytes? 1 = some (l.content.take 1, l.content.drop 1) := by
  obtain ⟨c, hc⟩ := Option.isSome_iff_exists.1 h
  have hsize : c.utf8Size = 1 := by
    cases hkind : l.kind <;> rw [hkind] at hc <;> cases hc <;> rfl
  obtain ⟨t, ht⟩ := List.head?_eq_some_iff.1 (LineKind.head?_of_ofContent rfl hc)
  rw [ht, Text.splitBytes?_one hsize]
  rfl

theorem behindMarker_eq {l : Line} (h : l.kind.marker?.isSome = true) :
    behindMarker l = some (l.content.drop 1) := by
  rw [behindMarker, splitBytes?_marker h]
  rfl

/-- The name and the value on the line of a directive. -/
def directiveParts (l : Line) : Option (Text × Text) := do
  let body ← behindMarker l
  return (body.takeWhile (· ≠ ' '), Text.trim (body.dropWhile (· ≠ ' ')))

theorem directiveParts_eq {l : Line} (h : l.kind = .directive) :
    directiveParts l = some (Context.directiveParts l) := by
  rw [directiveParts, behindMarker_eq (by rw [h]; rfl)]
  rfl

/-- The name on a line that calls a template, and the text behind it. -/
def callParts (l : Line) : Option (Text × Text) := do
  let (token, values) ← l.content.splitBytes? (Text.byteLength l.token)
  let (_, name) ← token.splitBytes? 1
  return (name, values)

theorem callParts_eq {l : Line} (h : l.kind = .template) :
    callParts l = some (l.token.drop 1, l.afterToken) := by
  obtain ⟨t, ht⟩ := List.head?_eq_some_iff.1 (LineKind.head?_of_ofContent h rfl)
  have htoken : l.token = '~' :: t.takeWhile (· ≠ ' ') := by simp [Line.token, ht]
  have hcut : l.content.splitBytes? (Text.byteLength l.token) = some (l.token, l.afterToken) := by
    rw [Text.splitBytes?_eq_some]
    exact ⟨List.takeWhile_append_dropWhile.symm, rfl⟩
  have hname : l.token.splitBytes? 1 = some (['~'], l.token.drop 1) := by
    rw [htoken, Text.splitBytes?_one rfl]
    rfl
  rw [callParts, hcut]
  change (do
    let (_, name) ← l.token.splitBytes? 1
    return (name, l.afterToken)) = _
  rw [hname]
  rfl

/-! ### Lines with elements -/

/-- Take a tagged line apart. -/
def readTagged (l : Line) : Option (CompileM Block.TagLine) :=
  match Shorthand.readToken l.content with
  | .error e => some (.failAt (.shorthand e.fault) l.number (some (l.width + e.column)))
  | .ok s => do
      let column ← sub (l.width + l.content.length) (Text.trimStart s.rest).length
      return match Element.dropDot s.tag with
        | '~' :: tag => pure ⟨tag, s.attributes, Text.trim s.rest, column, true⟩
        | tag => pure ⟨tag, s.attributes, Text.trim s.rest, column, false⟩

theorem readTagged_eq (l : Line) : readTagged l = some (Block.readTagged l) := by
  unfold readTagged Block.readTagged
  cases hs : Shorthand.readToken l.content with
  | error e => rfl
  | ok s =>
      simp only [sub_rest hs, Option.bind_eq_bind, Option.bind_some]
      rfl

/-- Take a line with an element apart. -/
def readTag (l : Line) : Option (CompileM Block.TagLine) :=
  match l.kind with
  | .text => return pure (.plain l.content l.width)
  | .escaped => do
      let rest ← behindMarker l
      if rest.head?.any (fun c => c ∈ markers ∧ c ≠ '>') then
        return pure (.plain rest (l.width + 1))
      else return pure (.plain l.content l.width)
  | _ => readTagged l

theorem readTag_eq (l : Line) : readTag l = some (Block.readTag l) := by
  unfold readTag Block.readTag
  cases hkind : l.kind with
  | escaped =>
      obtain ⟨t, ht⟩ := List.head?_eq_some_iff.1 (LineKind.head?_of_ofContent hkind rfl)
      have hrest : behindMarker l = some t := by
        rw [behindMarker_eq (by rw [hkind]; rfl), ht]
        rfl
      rw [hrest, ht]
      cases t with
      | nil => rfl
      | cons c t => by_cases hc : c ∈ markers ∧ c ≠ '>' <;> simp [hc]
  | text => rfl
  | _ => exact readTagged_eq l

/-! ### Margins -/

/-- The length that a margin asks for. -/
def marginLength (amount : Text) : Option Text :=
  if amount = [] then some "16px".toList
  else match Text.toNat? Block.mostMarginUnits amount with
    | some units => do return Text.ofNat (← mul units 16) ++ "px".toList
    | none => some amount

/-- Vertical space. -/
def margin (l : Line) : Option Element := do
  let length ← marginLength (Text.trim (← behindMarker l))
  return Element.ofTag "div".toList []
    ((∅ : Table Text).insert "style".toList ("margin-bottom:".toList ++ length))

/-- A number of 32 bits times the width of a margin is one of 64 bits. -/
theorem marginLength_eq (amount : Text) :
    marginLength amount = some (Block.marginLength amount) := by
  unfold marginLength Block.marginLength
  split
  · rfl
  · cases hunits : Text.toNat? Block.mostMarginUnits amount with
    | none => rfl
    | some units =>
        have hmost : units < UInt32.size := Nat.lt_of_le_pred (by decide) (Text.le_of_toNat? hunits)
        have hfits : units * 16 < UInt64.size := by
          simp only [UInt32.size, UInt64.size] at hmost ⊢
          omega
        simp [mul_of_lt hfits]

theorem margin_eq {l : Line} (h : l.kind = .margin) :
    margin l = some (Block.margin (Text.trim (l.content.drop 1))) := by
  rw [margin, behindMarker_eq (by rw [h]; rfl)]
  change (do
    let length ← marginLength (Text.trim (l.content.drop 1))
    return Element.ofTag "div".toList [] _) = _
  rw [marginLength_eq]
  rfl

/-! ### Bodies of templates -/

/-- Take the first `n` bytes off a line of a template's body. A blank line can have fewer. -/
def dedentLine (n : Nat) (t : Text) : Option Text :=
  match t.splitBytes? n with
  | some (_, rest) => some rest
  | none => if Text.allBlank t then some [] else none

/-- The body of a template whose definition has the given depth. -/
def dedent (unit : Indentation) (depth : Nat) (body : List Text) : Option Text := do
  let n ← mul unit.unitLength (depth + 1)
  return Text.join ['\n'] (← body.mapM (dedentLine n))

theorem dedentLine_eq {n : Nat} {t : Text}
    (h : Text.allBlank t = false → (t.splitBytes? n).isSome = true) :
    dedentLine n t = some (Text.dropBytes n t) := by
  rw [dedentLine, Text.dropBytes_eq]
  cases hcut : t.splitBytes? n with
  | some parts => rfl
  | none =>
      have hblank : Text.allBlank t = true := by
        rw [hcut] at h
        simpa using h
      simp [hblank]

/-- If the width that is taken off fits and no line is cut inside of its text, a body is
dedented without a failure. -/
theorem dedent_eq {unit : Indentation} {depth : Nat} {body : List Text}
    (hfits : unit.unitLength * (depth + 1) < UInt64.size)
    (hcut : ∀ t ∈ body, Text.allBlank t = false →
      (t.splitBytes? (unit.unitLength * (depth + 1))).isSome = true) :
    dedent unit depth body = some (Block.dedent unit depth body) := by
  have hlines : body.mapM (dedentLine (unit.unitLength * (depth + 1))) =
      some (body.map (Text.dropBytes (unit.unitLength * (depth + 1)))) := by
    induction body with
    | nil => rfl
    | cons t ts ih =>
        obtain ⟨ht, hts⟩ := List.forall_mem_cons.1 hcut
        simp [List.mapM_cons, dedentLine_eq ht, ih hts]
  rw [dedent, mul_of_lt hfits]
  change (do return Text.join ['\n'] (← body.mapM (dedentLine _))) = _
  rw [hlines]
  rfl

end Checked

/-- A line can be cut behind each of its levels. -/
theorem Indentation.isSome_splitBytes?_of_scan {unit : Indentation} {number depth : Nat}
    {raw : Text} {l : Line} (h : unit.scan number raw = .ok l) (hdepth : depth ≤ l.depth) :
    (raw.splitBytes? (unit.unitLength * depth)).isSome = true := by
  obtain ⟨hmargin, hwidth, -, -⟩ := scan_ok h
  obtain ⟨blanks, -, hblanks⟩ := Text.exists_eq_trimEnd_append raw
  obtain ⟨more, hmore⟩ : ∃ more, l.width = unit.unitLength * depth + more := by
    rw [hwidth]
    exact Nat.exists_eq_add_of_le (Nat.mul_le_mul_left _ hdepth)
  have hraw : raw = List.replicate (unit.unitLength * depth) unit.unitChar ++
      (List.replicate more unit.unitChar ++ l.content ++ blanks) := by
    rw [← List.append_assoc, ← List.append_assoc, List.replicate_append_replicate, ← hmore,
      ← hmargin, ← hblanks]
  have hcut := Text.splitBytes?_append (List.replicate (unit.unitLength * depth) unit.unitChar)
    (List.replicate more unit.unitChar ++ l.content ++ blanks)
  rw [unit.byteLength_replicate_unitChar, ← hraw] at hcut
  rw [hcut]
  rfl

/-- All lines of a template's body that are not blank start with the indentation that is taken
off them. -/
theorem Block.isSome_splitBytes?_of_takeDeeper {unit : Indentation} {depth : Nat}
    {ls rest : List SourceLine} {body : List Text}
    (h : takeDeeper unit depth ls = .ok (body, rest)) :
    ∀ t ∈ body, Text.allBlank t = false →
      (t.splitBytes? (unit.unitLength * (depth + 1))).isSome = true := by
  obtain ⟨taken, -, rfl, htaken⟩ := takeDeeper_takes h
  intro t ht hsolid
  obtain ⟨l, hl, rfl⟩ := List.mem_map.1 ht
  rcases htaken l hl with hblank | ⟨-, m, hm, hdepth⟩
  · exact absurd (hblank.symm.trans hsolid) (by simp)
  · exact Indentation.isSome_splitBytes?_of_scan hm hdepth

end IndentMarkup
