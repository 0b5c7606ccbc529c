import IndentMarkup.Proofs.Folders

/-!
The name that a path ends in, and its extension.

A path names a file by its last part, if that is a name at all. Giving it another extension keeps
the parts in front of it, and the last name then ends in that extension; if the name had it
already, the path stays as it is. The path of an inclusion always ends in the extension of source
files.

* `Path.Ends` — the last part of a path is a name.
* `Path.lastName?_eq_some_iff` — the last name, with silent parts behind it.
* `Path.splitExtension_append`, `Path.append_of_splitExtension` — a name and its extension.
* `Path.lastName?_withExtension`, `Path.withExtension_self` — another extension, and the same one.
* `Path.splitExtension_of_sourceOf` — the extension of source files.
-/

namespace IndentMarkup.Path

variable {path name stem extension : Text} {before : List Text}

/-! ### Parts -/

theorem join_concat (before : List Text) (name : Text) :
    Text.join ['/'] (before ++ [name]) = before.flatMap (· ++ ['/']) ++ name := by
  induction before with
  | nil => rfl
  | cons part before ih =>
      obtain ⟨next, rest, hrest⟩ := List.exists_cons_of_ne_nil
        (List.append_ne_nil_of_right_ne_nil before (List.cons_ne_nil name []))
      rw [List.cons_append, hrest, Text.join, ← hrest, ih, List.flatMap_cons]
      simp only [List.append_assoc]

/-- The parts of a path that is read from some place are the last ones. -/
theorem exists_parts_join (base path : Text) :
    ∃ front, parts (join base path) = front ++ parts path := by
  unfold join
  split
  · exact ⟨[], rfl⟩
  · split
    · next h =>
        rcases h with rfl | hlast
        · exact ⟨[], rfl⟩
        · obtain ⟨front, rfl⟩ := List.getLast?_eq_some_iff.1 hlast
          refine ⟨parts front, ?_⟩
          rw [List.append_assoc, List.singleton_append, parts_append_slash]
    · exact ⟨parts base, parts_append_slash base path⟩

/-! ### Last names -/

/-- The last part of the path is a name, with the parts in front of it. -/
structure Ends (path : Text) (before : List Text) (name : Text) : Prop where
  parts_eq : parts path = before ++ [name]
  solid : isSilentPart name = false
  parent : name ≠ parentPart

/-- Behind the last name of a path there are only parts that say nothing. -/
theorem lastName?_eq_some_iff : lastName? path = some (before, name) ↔
    isSilentPart name = false ∧ name ≠ parentPart ∧
      ∃ silent, (∀ part ∈ silent, isSilentPart part = true) ∧
        parts path = before ++ name :: silent := by
  constructor
  · intro h
    have hparts := List.takeWhile_append_dropWhile (p := isSilentPart) (l := (parts path).reverse)
    unfold lastName? at h
    split at h
    · cases h
    · next last front hdrop =>
        split at h
        · cases h
        · next hparent =>
            cases h
            rw [hdrop] at hparts
            have hhead := List.head?_dropWhile_not isSilentPart (parts path).reverse
            rw [hdrop] at hhead
            refine ⟨by simpa using hhead, hparent,
              ((parts path).reverse.takeWhile isSilentPart).reverse, fun part hpart => ?_, ?_⟩
            · exact List.all_eq_true.1 List.all_takeWhile part (List.mem_reverse.1 hpart)
            · simpa using (congrArg List.reverse hparts).symm
  · rintro ⟨hsolid, hparent, silent, hsilent, hparts⟩
    have hdrop : (parts path).reverse.dropWhile isSilentPart = name :: before.reverse := by
      rw [hparts, List.reverse_append, List.reverse_cons, List.append_assoc,
        List.dropWhile_append_of_pos fun part hpart => hsilent part (List.mem_reverse.1 hpart)]
      simp [hsolid]
    rw [lastName?, hdrop]
    simp [hparent]

theorem Ends.lastName? (h : Ends path before name) : Path.lastName? path = some (before, name) :=
  lastName?_eq_some_iff.2 ⟨h.solid, h.parent, [], nofun, h.parts_eq⟩

theorem Ends.extension? (h : Ends path before name) :
    Path.extension? path = (splitExtension name).2 := by
  rw [Path.extension?, h.lastName?]
  rfl

theorem Ends.notMem (h : Ends path before name) : ∀ part ∈ before ++ [name], '/' ∉ part := by
  intro part hpart
  rw [← h.parts_eq] at hpart
  exact notMem_of_mem_parts hpart

theorem Ends.path_eq (h : Ends path before name) : path = before.flatMap (· ++ ['/']) ++ name := by
  rw [← join_concat, ← h.parts_eq]
  exact (Text.join_pieces '/' path).symm

/-! ### Extensions -/

/-- The text can be an extension. -/
structure IsExtension (extension : Text) : Prop where
  nonempty : extension ≠ []
  dot : '.' ∉ extension
  slash : '/' ∉ extension

/-- The name of a name with an extension, and the extension. -/
theorem splitExtension_append (hstem : stem ≠ []) (hdot : '.' ∉ extension) :
    splitExtension (stem ++ '.' :: extension) = (stem, some extension) := by
  obtain ⟨front, c, rfl⟩ := (List.eq_nil_or_concat' stem).resolve_left hstem
  have hreverse : ((front ++ [c]) ++ '.' :: extension).reverse
      = extension.reverse ++ '.' :: c :: front.reverse := by simp
  have hplain : ∀ d ∈ extension.reverse, decide (d ≠ '.') = true := by
    intro d hd
    have hne : d ≠ '.' := fun heq => hdot (heq ▸ List.mem_reverse.1 hd)
    simpa using hne
  rw [splitExtension, hreverse, List.dropWhile_append_of_pos hplain,
    List.takeWhile_append_of_pos hplain]
  simp

/-- A name with an extension is put together from its parts. -/
theorem append_of_splitExtension (h : (splitExtension name).2 = some extension) :
    name = (splitExtension name).1 ++ '.' :: extension ∧ (splitExtension name).1 ≠ [] := by
  have hname := List.takeWhile_append_dropWhile (p := fun c => decide (c ≠ '.'))
    (l := name.reverse)
  unfold splitExtension at h ⊢
  split
  · next d c front hdrop =>
      rw [hdrop] at h hname
      have hhead := List.head?_dropWhile_not (fun c => decide (c ≠ '.')) name.reverse
      rw [hdrop] at hhead
      obtain rfl : d = '.' := by simpa using hhead
      cases h
      refine ⟨?_, by simp⟩
      simpa using (congrArg List.reverse hname).symm
  · next hnone =>
      split at h
      · next hdrop => exact absurd hdrop (hnone _ _ _)
      · cases h

theorem stem_ne_nil (h : name ≠ []) : (splitExtension name).1 ≠ [] := by
  unfold splitExtension
  split
  · simp
  · exact h

theorem stem_subset (name : Text) : (splitExtension name).1 ⊆ name := by
  unfold splitExtension
  split
  · next d c front hdrop =>
      intro a ha
      have hmem : a ∈ d :: c :: front := List.mem_cons_of_mem d (by simpa [or_comm] using ha)
      rw [← hdrop] at hmem
      exact List.mem_reverse.1 (List.dropWhile_subset _ hmem)
  · exact List.Subset.refl _

/-- A name with an extension is no silent part and no step up. -/
theorem ends_append (hstem : stem ≠ []) (hextension : extension ≠ [])
    (hparts : parts path = before ++ [stem ++ '.' :: extension]) :
    Ends path before (stem ++ '.' :: extension) where
  parts_eq := hparts
  solid := by
    have hlong : stem ++ '.' :: extension ≠ ['.'] := by
      intro heq
      have hlength := congrArg List.length heq
      have hpos := List.length_pos_iff.2 hstem
      simp at hlength
      omega
    simp [isSilentPart, hlong]
  parent := by
    intro heq
    have hlength := congrArg List.length heq
    have hpos := List.length_pos_iff.2 hstem
    have hpos' := List.length_pos_iff.2 hextension
    simp [parentPart] at hlength
    omega

/-- With another extension the path ends in a name with this extension, if it ends in a name. -/
theorem lastName?_withExtension (hext : IsExtension extension)
    (h : lastName? (withExtension path extension) = some (before, name)) :
    ∃ stem, stem ≠ [] ∧ name = stem ++ '.' :: extension := by
  unfold withExtension at h
  extract_lets bare at h
  split at h
  · next hnone =>
      rw [hnone] at h
      cases h
  · next front last hlast =>
      obtain ⟨hsolid, -, silent, -, hbare⟩ := lastName?_eq_some_iff.1 hlast
      have hslash : ∀ part ∈ front ++ [last], '/' ∉ part := by
        intro part hpart
        have hmem : part ∈ parts bare := by
          rw [hbare, List.append_cons]
          exact List.mem_append_left silent hpart
        exact notMem_of_mem_parts hmem
      have hstem : (splitExtension last).1 ≠ [] := by
        refine stem_ne_nil fun hnil => ?_
        rw [hnil] at hsolid
        cases hsolid
      have hparts : parts (Text.join ['/'] (front ++ [(splitExtension last).1 ++ '.' :: extension]))
          = front ++ [(splitExtension last).1 ++ '.' :: extension] := by
        refine Text.pieces_join (by simp) fun part hpart => ?_
        rcases List.mem_append.1 hpart with hpart | hpart
        · exact hslash part (List.mem_append_left _ hpart)
        · have hfree := hslash last (by simp)
          rw [List.mem_singleton.1 hpart, List.mem_append, List.mem_cons]
          rintro (hmem | hmem | hmem)
          · exact hfree (stem_subset last hmem)
          · exact absurd hmem (by decide)
          · exact hext.slash hmem
      rw [(ends_append hstem hext.nonempty hparts).lastName?] at h
      cases h
      exact ⟨_, hstem, rfl⟩

/-- With the extension that its name has, a path stays as it is, unless nothing but a step up is
left when the extension is gone. -/
theorem withExtension_self (h : Ends path before name)
    (hext : (splitExtension name).2 = some extension) :
    withExtension path extension = path ∨ lastName? (withExtension path extension) = none := by
  obtain ⟨hname, hstem⟩ := append_of_splitExtension hext
  generalize (splitExtension name).1 = stem at hname hstem
  subst hname
  have hpath : path = Text.join ['/'] (before ++ [stem ++ ['.']]) ++ extension := by
    rw [join_concat]
    simpa using h.path_eq
  have hbare : dropExtension path = Text.join ['/'] (before ++ [stem ++ ['.']]) := by
    rw [dropExtension, h.extension?, hext, Option.getD_some]
    conv_lhs => rw [hpath]
    simp
  have hslash : ∀ part ∈ before ++ [stem ++ ['.']], '/' ∉ part := by
    have hname := h.notMem (stem ++ '.' :: extension) (by simp)
    intro part hpart
    rcases List.mem_append.1 hpart with hpart | hpart
    · exact h.notMem part (List.mem_append_left _ hpart)
    · rw [List.mem_singleton.1 hpart, List.mem_append, List.mem_singleton]
      rintro (hmem | hmem)
      · exact hname (List.mem_append_left _ hmem)
      · exact absurd hmem (by decide)
  have hparts : parts (dropExtension path) = before ++ [stem ++ ['.']] := by
    rw [hbare]
    exact Text.pieces_join (by simp) hslash
  by_cases hup : stem ++ ['.'] = parentPart
  · -- the last part that is left is the step up
    have hnone : lastName? (dropExtension path) = none := by
      rw [lastName?, hparts, hup]
      simp [parentPart, isSilentPart]
    right
    rw [withExtension]
    simp only [hnone]
  · have hsolid : isSilentPart (stem ++ ['.']) = false := by
      simp [isSilentPart, hstem]
    left
    rw [withExtension]
    simp only [(Ends.mk hparts hsolid hup).lastName?, splitExtension_append hstem List.not_mem_nil,
      join_concat]
    exact h.path_eq.symm

theorem isExtension_source : IsExtension sourceExtension := ⟨by decide, by decide, by decide⟩

/-- The path of an inclusion ends in the extension of source files, if it ends in a name. -/
theorem splitExtension_of_sourceOf {target : Text} (h : sourceOf target = .ok path)
    (hends : Ends path before name) : (splitExtension name).2 = some sourceExtension := by
  unfold sourceOf at h
  split at h
  · cases h
    obtain ⟨stem, hstem, rfl⟩ := lastName?_withExtension isExtension_source hends.lastName?
    rw [splitExtension_append hstem isExtension_source.dot]
  · next found hfound =>
      split at h
      · next heq =>
          cases h
          rw [← hends.extension?, hfound, heq]
      · cases h

end IndentMarkup.Path
