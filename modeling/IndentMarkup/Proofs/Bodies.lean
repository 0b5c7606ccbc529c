import IndentMarkup.Proofs.Coupling
import IndentMarkup.Proofs.Linewise

/-!
Bodies that go together line by line.

Two runs whose lines go together store bodies whose lines do: dedenting a body, protecting its
closing brackets and putting values in the place of references treat each line by itself. So
it is enough to look at single lines.

* `Bodies.follows` — the bodies that two definitions store.
* `Template.agree_substitute`, `agree_bodyOfCall` — the bodies that two calls stand for.
* `agree_defineBody`, `agree_undefine` — what becomes of the tables of templates.
* `lines_of_follows` — the lines of such bodies go together.
-/

namespace IndentMarkup

open Text (Follows)

variable {p : Text → Prop} {f : Text → Text}

/-! ### Calls -/

namespace Template

/-- What counts of a template: its name, its parameters, and the lines of its body that
are not blank. -/
def outline (m : Template) : Text × List Text × List Text :=
  (m.name, m.parameters, Text.solidLines m.content)

/-- No parameter reaches over the end of a line. -/
theorem newline_notMem_of_words {signature name : Text} {parameters : List Text}
    (h : Text.words signature = name :: parameters) : ∀ p ∈ parameters, '\n' ∉ p := by
  intro p hp hmem
  have hword : p ∈ Text.words signature := h ▸ List.mem_cons_of_mem name hp
  exact absurd (Text.isBlank_of_mem_words hword hmem) (by decide)

/-- Putting a binding in its place among others adds no other binding. -/
theorem mem_insertBinding {b x : Text × Text} {bs : List (Text × Text)}
    (h : x ∈ insertBinding b bs) : x = b ∨ x ∈ bs := by
  induction bs with
  | nil => exact .inl (List.mem_singleton.1 h)
  | cons c cs ih =>
      rw [insertBinding] at h
      split at h
      · exact List.mem_cons.1 h
      · rcases List.mem_cons.1 h with rfl | h
        · exact .inr List.mem_cons_self
        · exact (ih h).imp_right (List.mem_cons_of_mem c)

/-- Only parameters are bound, and only to values. -/
theorem mem_of_mem_bindings {m : Template} {values : List Text} {b : Text × Text}
    (h : b ∈ m.bindings values) : b.1 ∈ m.parameters ∧ b.2 ∈ values := by
  -- sorting the bindings by length adds none
  have hzip : ∀ bs : List (Text × Text), b ∈ bs.foldr insertBinding [] → b ∈ bs := by
    intro bs hb
    induction bs with
    | nil => exact hb
    | cons c cs ih =>
        rcases mem_insertBinding hb with rfl | hb
        · exact List.mem_cons_self
        · exact List.mem_cons_of_mem c (ih hb)
  exact List.of_mem_zip (hzip _ h)

/-- Texts that go together still do with values in the place of all references, put in one by
one. -/
theorem follows_bindings {bindings : List (Text × Text)} (hname : ∀ b ∈ bindings, '\n' ∉ b.1)
    (hline : ∀ b ∈ bindings, ∀ l, p l →
      Follows p f (Text.replace (reference b.1) b.2 l) (Text.replace (reference b.1) b.2 (f l)))
    {t t' : Text} (ht : Follows p f t t') :
    Follows p f (bindings.foldl (fun t b => Text.replace (reference b.1) b.2 t) t)
      (bindings.foldl (fun t b => Text.replace (reference b.1) b.2 t) t') := by
  induction bindings generalizing t t' with
  | nil => exact ht
  | cons b bindings ih =>
      have hreplace := linewise_reference (hname b List.mem_cons_self) b.2
      exact ih (fun b' hb' => hname b' (List.mem_cons_of_mem b hb'))
        (fun b' hb' => hline b' (List.mem_cons_of_mem b hb'))
        (ht.linewise hreplace (hline b List.mem_cons_self))

/-- Templates whose contents go together have bodies that do, for the same values. -/
theorem agree_substitute {m m' : Template} (hname : m'.name = m.name)
    (hparameters : m'.parameters = m.parameters) (hcontent : Follows p f m.content m'.content)
    (hnewline : ∀ q ∈ m.parameters, '\n' ∉ q) {values : List Text}
    (hline : ∀ q ∈ m.parameters, ∀ v ∈ values, ∀ l, p l →
      Follows p f (Text.replace (reference q) v l) (Text.replace (reference q) v (f l))) :
    Agree False Eq (Follows p f) (m.substitute values) (m'.substitute values) := by
  have harity : m'.arity = m.arity := congrArg List.length hparameters
  have hbindings : m'.bindings values = m.bindings values := by
    simp only [bindings, hparameters]
  unfold substitute
  rw [harity, hname, hbindings]
  by_cases hvalues : values.length ≠ m.arity
  · simp only [if_pos hvalues]
    exact .error rfl
  · simp only [if_neg hvalues]
    refine .ok (follows_bindings (fun b hb => ?_) (fun b hb => ?_) hcontent)
    · exact hnewline _ (mem_of_mem_bindings hb).1
    · exact hline _ (mem_of_mem_bindings hb).1 _ (mem_of_mem_bindings hb).2

end Template

section Tables

variable {γ : Type} {q : Template → Prop} {g g' : Template → γ} {c c' : Context}

/-- The same calls have bodies in two contexts whose templates go together. -/
theorem agree_bodyOfCall (hexpanding : c'.expanding = c.expanding)
    (h : Table.Alike q g g' c.templates c'.templates) (name : Text) {values : List Text}
    (hbody : ∀ m m', q m → g' m' = g m →
      Agree False Eq (Follows p f) (m.substitute values) (m'.substitute values)) :
    Agree False Eq (Follows p f) (c.bodyOfCall name values) (c'.bodyOfCall name values) := by
  have hfind := h.find? name
  unfold Context.bodyOfCall Context.template?
  rw [hexpanding]
  -- one template is found in both contexts or in neither, and then it is a matter of the bodies
  cases hm : c.templates.find? name with
  | none =>
      rw [hm, Option.map_none, Option.map_eq_none_iff] at hfind
      rw [hfind]
      exact .error rfl
  | some m =>
      rw [hm, Option.map_some, Option.map_eq_some_iff] at hfind
      obtain ⟨m', hm', hfind⟩ := hfind
      have hbody := hbody m m' (h.holds name m hm) hfind
      rw [hm']
      dsimp only
      generalize m.substitute values = x at hbody
      generalize m'.substitute values = x' at hbody
      cases hbody with
      -- the count of the values is wrong in both, or both bodies can be read
      | error h => exact .error (congrArg Cause.template h)
      | excused h => exact h.elim
      | ok hfollows =>
          dsimp only
          by_cases hopen : name ∈ c.expanding
          · simp only [if_pos hopen]
            exact .error rfl
          · simp only [if_neg hopen]
            exact .ok hfollows

/-! ### Definitions and removals -/

/-- Two definitions of the same name and parameters. -/
theorem agree_defineBody (h : Table.Alike q g g' c.templates c'.templates) {name : Text}
    {parameters : List Text} {body body' : Text}
    (hsame : g' ⟨name, parameters, Template.protectClosers body'⟩
      = g ⟨name, parameters, Template.protectClosers body⟩)
    (hnew : q ⟨name, parameters, Template.protectClosers body⟩) :
    Agree False Eq
      (fun a a' => ∃ templates templates', a = { c with templates } ∧
        a' = { c' with templates := templates' } ∧ Table.Alike q g g' templates templates')
      (c.defineBody name parameters body) (c'.defineBody name parameters body') := by
  unfold Context.defineBody Template.ofBody
  cases Template.repeated? [] parameters with
  | some p => exact .error rfl
  | none =>
      dsimp only [Context.define]
      rw [h.contains]
      cases c.templates.contains name with
      | true => exact .error rfl
      | false => exact .ok ⟨_, _, rfl, rfl, h.insert hsame hnew name⟩

/-- The same name is removed in both, or there is nothing to remove in both. -/
theorem agree_undefine (h : Table.Alike q g g' c.templates c'.templates) (name : Text) :
    Agree False Eq
      (fun a a' => ∃ templates templates', a = { c with templates } ∧
        a' = { c' with templates := templates' } ∧ Table.Alike q g g' templates templates')
      (c.undefine name) (c'.undefine name) := by
  unfold Context.undefine
  rw [h.contains]
  cases c.templates.contains name with
  | true => exact .ok ⟨_, _, rfl, rfl, h.erase name⟩
  | false => exact .error rfl

end Tables

/-! ### Lines -/

namespace Coupling

/-- The rest of a blank line is blank. -/
theorem allBlank_dropBytes (n : Nat) {t : Text} (h : Text.allBlank t = true) :
    Text.allBlank (Text.dropBytes n t) = true := by
  induction t generalizing n with
  | nil => exact h
  | cons c t ih =>
      obtain ⟨hc, ht⟩ : Text.isBlank c = true ∧ Text.allBlank t = true := by
        simpa [Text.allBlank] using h
      rw [Text.dropBytes]
      split
      · exact h
      · split
        · exact ih _ ht
        · rfl

/-- The bodies of two definitions go together if their lines do when they are dedented. -/
theorem Bodies.follows {K : Coupling} {unit unit' : Indentation} {depth : Nat}
    {body body' : List Text} (h : K.Bodies unit unit' depth body body')
    (hline : ∀ l l' m, K.line l l' → l.scan unit = .ok m → depth < m.depth →
      Follows p f (Text.dropBytes (unit.unitLength * (depth + 1)) l.text)
        (Text.dropBytes (unit'.unitLength * (depth + 1)) l'.text)) :
    Follows p f (Block.dedent unit depth body) (Block.dedent unit' depth body') := by
  have hblank {unit : Indentation} {t : Text} (ht : Text.allBlank t = true) :
      Text.solidLines (Text.dropBytes (unit.unitLength * (depth + 1)) t) = [] :=
    Text.solidLines_of_allBlank (allBlank_dropBytes _ ht)
  suffices hlines : (body'.map (Text.dropBytes (unit'.unitLength * (depth + 1)))).flatMap
        Text.solidLines
      = ((body.map (Text.dropBytes (unit.unitLength * (depth + 1)))).flatMap
        Text.solidLines).map f ∧
      ∀ l ∈ (body.map (Text.dropBytes (unit.unitLength * (depth + 1)))).flatMap
        Text.solidLines, p l by
    rw [← Text.solidLines_join, ← Text.solidLines_join] at hlines
    -- on the lines of the bodies: a blank one gives no solid line when it is dedented, in either
    exact ⟨hlines.1, hlines.2⟩
  induction h with
  | nil => exact ⟨rfl, nofun⟩
  | both hl hscan _ _ hdepth _ ih =>
      obtain ⟨hfirst, hfits⟩ := hline _ _ _ hl hscan hdepth
      rw [List.map_cons, List.map_cons, List.flatMap_cons, List.flatMap_cons, List.map_append,
        hfirst, ih.1]
      exact ⟨rfl, List.forall_mem_append.2 ⟨hfits, ih.2⟩⟩
  | blank ht _ ih => simpa only [List.map_cons, List.flatMap_cons, hblank ht, List.nil_append]
  | first _ ht _ ih => simpa only [List.map_cons, List.flatMap_cons, hblank ht, List.nil_append]
  | second _ ht _ ih => simpa only [List.map_cons, List.flatMap_cons, hblank ht, List.nil_append]

/-- The lines of texts that go together do, in a loose coupling. -/
theorem lines_of_follows {K : Coupling} (hloose : K.loose) (htail : K.tail = [])
    {source source' : Text} (h : Follows p f source source')
    (hcarriage : ∀ l, p l → p (l.filter (· ≠ '\r')) ∧
      (f l).filter (· ≠ '\r') = f (l.filter (· ≠ '\r')))
    (hline : ∀ t, p t → Text.allBlank t = false → ∀ n n', K.line ⟨n, t⟩ ⟨n', f t⟩) :
    K.Lines (SourceLine.ofSource source) (SourceLine.ofSource source') := by
  refine lines_of_solid hloose htail f ?_ (fun t ht hsolid n n' => ?_) 0 0
  · rw [SourceLine.filter_textsOf, SourceLine.filter_textsOf, h.lines, List.map_map, List.map_map]
    exact List.map_congr_left fun l hl => (hcarriage l (h.holds l hl)).2
  -- a line of the first text is one of its solid lines, with its carriage returns left out
  · have hmem : t ∈ (SourceLine.textsOf source).filter (!Text.allBlank ·) :=
      List.mem_filter.2 ⟨ht, by simp [hsolid]⟩
    rw [SourceLine.filter_textsOf] at hmem
    obtain ⟨l, hl, rfl⟩ := List.mem_map.1 hmem
    exact hline _ (hcarriage l (h.holds l hl)).1 hsolid n n'

end Coupling

end IndentMarkup
