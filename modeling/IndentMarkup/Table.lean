import IndentMarkup.Text.Basic

/-!
Finite maps from texts, listed in key order.

The entries are strictly ascending by key, so two tables with the same entries
are equal and every listing of one has the same order.

* `find?_insert_self`, `find?_insert_of_ne`, `find?_erase_self`,
  `find?_erase_of_ne` — the operations seen through look-up.
* `map` — the same keys with other values; it commutes with the operations.
-/

namespace IndentMarkup

/-- A finite map from texts to `α`. -/
structure Table (α : Type) where
  /-- The keys with their values. -/
  entries : List (Text × α)
  /-- Keys ascend by code point and none is repeated. -/
  ascending : entries.Pairwise (fun a b => a.1 < b.1)
  deriving DecidableEq

namespace Table

variable {α : Type}

/-- The table without entries. -/
def empty : Table α := ⟨[], .nil⟩

instance : EmptyCollection (Table α) := ⟨empty⟩

instance : Inhabited (Table α) := ⟨empty⟩

/-- The value of the first entry with the key. -/
def findEntry (key : Text) : List (Text × α) → Option α
  | [] => none
  | e :: es => if key = e.1 then some e.2 else findEntry key es

/-- The value at a key. -/
def find? (m : Table α) (key : Text) : Option α := findEntry key m.entries

/-- There is a value at the key. -/
def contains (m : Table α) (key : Text) : Bool := (m.find? key).isSome

/-! ### Insertion -/

/-- Put an entry in its place, over an earlier one with the same key. -/
def insertEntry (key : Text) (value : α) : List (Text × α) → List (Text × α)
  | [] => [(key, value)]
  | e :: es =>
      if key < e.1 then (key, value) :: e :: es
      else if key = e.1 then (key, value) :: es
      else e :: insertEntry key value es

theorem mem_insertEntry {key : Text} {value : α} {x : Text × α} :
    ∀ {es : List (Text × α)}, x ∈ insertEntry key value es → x = (key, value) ∨ x ∈ es
  | [], h => by simpa [insertEntry] using h
  | e :: es, h => by
      unfold insertEntry at h
      split at h
      · simpa using h
      · split at h
        · rcases List.mem_cons.1 h with h | h
          · exact .inl h
          · exact .inr (List.mem_cons_of_mem _ h)
        · rcases List.mem_cons.1 h with h | h
          · exact .inr (h ▸ List.mem_cons_self)
          · exact (mem_insertEntry h).imp_right (List.mem_cons_of_mem _)

theorem ascending_insertEntry (key : Text) (value : α) :
    ∀ {es : List (Text × α)}, es.Pairwise (fun a b => a.1 < b.1) →
      (insertEntry key value es).Pairwise (fun a b => a.1 < b.1)
  | [], _ => by simp [insertEntry]
  | e :: es, h => by
      have hes := List.pairwise_cons.1 h
      unfold insertEntry
      split
      · rename_i hlt
        refine List.pairwise_cons.2 ⟨fun x hx => ?_, h⟩
        rcases List.mem_cons.1 hx with rfl | hx
        · exact hlt
        · exact List.lt_trans hlt (hes.1 x hx)
      · rename_i hnlt
        split
        · rename_i heq
          exact List.pairwise_cons.2 ⟨fun x hx => heq ▸ hes.1 x hx, hes.2⟩
        · rename_i hne
          refine List.pairwise_cons.2 ⟨fun x hx => ?_, ascending_insertEntry key value hes.2⟩
          rcases mem_insertEntry hx with rfl | hx
          · exact Decidable.byContradiction fun hlt =>
              hne (List.le_antisymm (List.not_lt.1 hlt) (List.not_lt.1 hnlt))
          · exact hes.1 x hx

/-- The table with `value` at `key`, over an earlier value. -/
def insert (m : Table α) (key : Text) (value : α) : Table α :=
  ⟨insertEntry key value m.entries, ascending_insertEntry key value m.ascending⟩

/-- The table without an entry at `key`. -/
def erase (m : Table α) (key : Text) : Table α :=
  ⟨m.entries.filter (·.1 ≠ key), m.ascending.filter _⟩

/-- The table of the given entries; of two with the same key the later counts. -/
def ofList (es : List (Text × α)) : Table α :=
  es.foldl (fun m e => m.insert e.1 e.2) ∅

/-! ### Look-up after an operation -/

@[simp] theorem find?_empty (key : Text) : (∅ : Table α).find? key = none := rfl

theorem findEntry_insertEntry (key : Text) (value : α) (k : Text) :
    ∀ es : List (Text × α),
      findEntry k (insertEntry key value es) = if k = key then some value else findEntry k es
  | [] => by simp [insertEntry, findEntry]
  | e :: es => by
      have ih := findEntry_insertEntry key value k es
      unfold insertEntry
      split
      · simp [findEntry]
      · split
        · rename_i heq
          by_cases hk : k = key <;> simp [findEntry, hk, ← heq]
        · rename_i hne
          by_cases hk : k = key
          · subst hk
            simp [findEntry, hne, ih]
          · simp [findEntry, hk, ih]

@[simp] theorem find?_insert_self (m : Table α) (key : Text) (value : α) :
    (m.insert key value).find? key = some value := by
  simp [find?, insert, findEntry_insertEntry]

theorem find?_insert_of_ne (m : Table α) {key k : Text} (value : α) (h : k ≠ key) :
    (m.insert key value).find? k = m.find? k := by
  simp [find?, insert, findEntry_insertEntry, h]

theorem findEntry_filter_ne (key k : Text) :
    ∀ es : List (Text × α),
      findEntry k (es.filter (·.1 ≠ key)) = if k = key then none else findEntry k es
  | [] => by simp [findEntry]
  | e :: es => by
      have ih := findEntry_filter_ne key k es
      by_cases he : e.1 = key
      · rw [List.filter_cons_of_neg (by simp [he]), ih]
        by_cases hk : k = key
        · simp [hk]
        · simp [hk, findEntry, he]
      · rw [List.filter_cons_of_pos (by simp [he]), findEntry, ih, findEntry]
        by_cases hk : k = key
        · have hne : key ≠ e.1 := fun h => he h.symm
          simp [hk, hne]
        · simp [hk]

@[simp] theorem find?_erase_self (m : Table α) (key : Text) :
    (m.erase key).find? key = none := by
  rw [find?, erase, findEntry_filter_ne, if_pos rfl]

theorem find?_erase_of_ne (m : Table α) {key k : Text} (h : k ≠ key) :
    (m.erase key).find? k = m.find? k := by
  simp only [find?, erase, findEntry_filter_ne, if_neg h]

/-! ### Values changed -/

variable {β : Type}

/-- The table with the same keys and changed values. -/
def map (f : α → β) (m : Table α) : Table β :=
  ⟨m.entries.map fun e => (e.1, f e.2), List.pairwise_map.2 m.ascending⟩

theorem ext_entries {m m' : Table α} (h : m.entries = m'.entries) : m = m' := by
  cases m
  cases m'
  cases h
  rfl

theorem find?_map (f : α → β) (m : Table α) (key : Text) :
    (m.map f).find? key = (m.find? key).map f := by
  rw [find?, find?, map]
  dsimp only
  induction m.entries with
  | nil => rfl
  | cons e es ih =>
      by_cases hkey : key = e.1
      · simp [findEntry, hkey]
      · simp [findEntry, hkey, ih]

theorem contains_map (f : α → β) (m : Table α) (key : Text) :
    (m.map f).contains key = m.contains key := by
  simp only [contains, find?_map, Option.isSome_map]

theorem map_insert (f : α → β) (m : Table α) (key : Text) (value : α) :
    (m.insert key value).map f = (m.map f).insert key (f value) := by
  refine ext_entries ?_
  change (insertEntry key value m.entries).map _ = insertEntry key (f value) (m.entries.map _)
  induction m.entries with
  | nil => rfl
  | cons e es ih =>
      by_cases hlt : key < e.1
      · simp [insertEntry, hlt]
      · by_cases heq : key = e.1
        · simp only [insertEntry, List.map_cons, if_neg hlt, if_pos heq]
        · simp [insertEntry, hlt, heq, ih]

theorem map_erase (f : α → β) (m : Table α) (key : Text) :
    (m.erase key).map f = (m.map f).erase key := by
  refine ext_entries ?_
  change (m.entries.filter _).map _ = (m.entries.map _).filter _
  rw [List.filter_map]
  rfl

/-! ### Tables that go together -/

/-- Two tables with the same keys whose values are the same after `f` and `f'`, and a property
of the values of the first one. -/
structure Alike {γ : Type} (p : α → Prop) (f : α → γ) (f' : β → γ) (m : Table α) (m' : Table β) :
    Prop where
  same : m'.map f' = m.map f
  holds : ∀ key a, m.find? key = some a → p a

namespace Alike

variable {γ : Type} {p : α → Prop} {f : α → γ} {f' : β → γ} {m : Table α} {m' : Table β}

theorem empty : Alike p f f' ∅ ∅ where
  same := rfl
  holds key a h := by simp at h

theorem find? (h : Alike p f f' m m') (key : Text) :
    (m'.find? key).map f' = (m.find? key).map f := by
  rw [← find?_map, ← find?_map, h.same]

/-- What follows from the common value is common to the values at a key. -/
theorem find?_map {δ : Type} {k : α → δ} {k' : β → δ} (h : Alike p f f' m m')
    (hk : ∀ a b, f' b = f a → k' b = k a) (key : Text) :
    (m'.find? key).map k' = (m.find? key).map k := by
  have hfind := h.find? key
  cases ha : m.find? key with
  | none =>
      rw [ha, Option.map_none, Option.map_eq_none_iff] at hfind
      rw [hfind]
      rfl
  | some a =>
      rw [ha, Option.map_some, Option.map_eq_some_iff] at hfind
      obtain ⟨b, hb, hab⟩ := hfind
      rw [hb]
      exact congrArg some (hk a b hab)

theorem contains (h : Alike p f f' m m') (key : Text) : m'.contains key = m.contains key := by
  rw [← contains_map f', ← contains_map f m, h.same]

theorem insert (h : Alike p f f' m m') {a : α} {b : β} (hsame : f' b = f a) (ha : p a)
    (key : Text) : Alike p f f' (m.insert key a) (m'.insert key b) where
  same := by simp only [map_insert, h.same, hsame]
  holds key' a' hfound := by
    by_cases hkey : key' = key
    · subst hkey
      rw [find?_insert_self] at hfound
      cases hfound
      exact ha
    · rw [find?_insert_of_ne _ _ hkey] at hfound
      exact h.holds key' a' hfound

theorem erase (h : Alike p f f' m m') (key : Text) :
    Alike p f f' (m.erase key) (m'.erase key) where
  same := by simp only [map_erase, h.same]
  holds key' a' hfound := by
    by_cases hkey : key' = key
    · subst hkey
      rw [find?_erase_self] at hfound
      cases hfound
    · rw [find?_erase_of_ne _ hkey] at hfound
      exact h.holds key' a' hfound

end Alike

end Table

end IndentMarkup
