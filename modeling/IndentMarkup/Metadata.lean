import IndentMarkup.Table
import IndentMarkup.Line

/-!
The prologue of a document: values that directives set, each at most once, and the
custom classes.

* `Metadata.applyDirective` — the effect of one directive.
* `Metadata.addClass` — the effect of one custom class.
-/

namespace IndentMarkup

/-- The colour scheme of a page. -/
inductive Theme where
  | light
  | dark
  deriving DecidableEq, Repr, Inhabited

namespace Theme

/-- The name of a theme. -/
def name : Theme → Text
  | light => "light".toList
  | dark => "dark".toList

/-- A theme is written by its name or by the first letter of it. -/
def ofText? (t : Text) : Option Theme :=
  if t = "light".toList ∨ t = ['l'] then some light
  else if t = "dark".toList ∨ t = ['d'] then some dark
  else none

end Theme

/-! ### Directives -/

/-- The values of the prologue that a directive can set. -/
inductive Directive where
  | title
  | theme
  | topText
  | hideCredit
  | spaces
  | font
  | favicon
  | initialHash
  deriving DecidableEq, Repr

namespace Directive

/-- The name by which an author calls the directive. -/
def name : Directive → Text
  | title => "title".toList
  | theme => "theme".toList
  | topText => "totoptext".toList
  | hideCredit => "hidecredit".toList
  | spaces => "spaces".toList
  | font => "font".toList
  | favicon => "favicon".toList
  | initialHash => "initialhash".toList

/-- The name at the start of a sentence. The flag keeps its small letter. -/
def sentenceName : Directive → Text
  | title => "Title".toList
  | theme => "Theme".toList
  | topText => "Totoptext".toList
  | hideCredit => "hidecredit".toList
  | spaces => "Spaces".toList
  | font => "Font".toList
  | favicon => "Favicon".toList
  | initialHash => "Initialhash".toList

/-- All directives. -/
def all : List Directive :=
  [title, theme, topText, hideCredit, spaces, font, favicon, initialHash]

/-- The directive with a name. -/
def ofName? (t : Text) : Option Directive := all.find? (·.name = t)

end Directive

/-- What can be wrong with a line of the prologue. -/
inductive DirectiveFault where
  /-- No directive has this name. -/
  | unknown (name : Text)
  /-- The directive needs a value. -/
  | missingValue (d : Directive)
  /-- The directive is a flag and takes no value. -/
  | unexpectedValue
  /-- The value names no theme. -/
  | invalidTheme (value : Text)
  /-- The value is no number of spaces. -/
  | invalidSpaces (value : Text)
  /-- The value has been set before. -/
  | alreadySet (d : Directive)
  /-- A section or a tab has been opened before. -/
  | late
  /-- The line stands inside an element, and not in a template. -/
  | nested
  /-- A custom class without a name. -/
  | unnamedClass
  /-- A custom class whose name is taken. -/
  | duplicateClass (name : Text)
  deriving DecidableEq, Repr

/-- What the author is told about the fault. -/
def DirectiveFault.message : DirectiveFault → Text
  | .unknown name => "Unknown directive ':".toList ++ name ++ "'.".toList
  | .missingValue d => ':' :: d.name ++ " requires a value.".toList
  | .unexpectedValue => ":hidecredit takes no value.".toList
  | .invalidTheme value =>
      "Invalid theme '".toList ++ value ++ "' (expected light or dark).".toList
  | .invalidSpaces value => "Invalid number of spaces '".toList ++ value ++ "'.".toList
  | .alreadySet d => d.sentenceName ++ " already defined.".toList
  | .late => "Directives must be declared above all sections and tabs.".toList
  | .nested => "Directives can only be declared at the top level.".toList
  | .unnamedClass => "Custom class requires a name.".toList
  | .duplicateClass name => "Custom class '".toList ++ name ++ "' already defined.".toList

/-! ### Values -/

/-- The values of the prologue, and the custom classes with their declarations. -/
structure Metadata where
  title : Option Text
  theme : Option Theme
  topText : Option Text
  hideCredit : Bool
  spaces : Option Nat
  font : Option Text
  favicon : Option Text
  initialHash : Option Text
  customClasses : Table Text
  deriving DecidableEq

namespace Metadata

/-- Nothing is set. -/
def empty : Metadata := ⟨none, none, none, false, none, none, none, none, ∅⟩

instance : EmptyCollection Metadata := ⟨empty⟩

instance : Inhabited Metadata := ⟨empty⟩

/-- The greatest number of spaces that a level of indentation can have, the
greatest number of 64 bits. -/
def mostSpaces : Nat := UInt64.size - 1

/-- The value of a directive that takes any text but the empty one and is not set
yet. -/
def newText (d : Directive) (old : Option Text) (value : Text) : Except DirectiveFault Text :=
  if value = [] then .error (.missingValue d)
  else if old.isSome then .error (.alreadySet d)
  else .ok value

/-- The prologue after a directive with a value. The value is judged first, then
whether it has been set before. -/
def set (m : Metadata) (d : Directive) (value : Text) : Except DirectiveFault Metadata :=
  match d with
  | .title => (newText .title m.title value).map fun v => { m with title := some v }
  | .theme =>
      match Theme.ofText? value with
      | none => .error (.invalidTheme value)
      | some v =>
          if m.theme.isSome then .error (.alreadySet .theme)
          else .ok { m with theme := some v }
  | .topText => (newText .topText m.topText value).map fun v => { m with topText := some v }
  | .hideCredit =>
      if value ≠ [] then .error .unexpectedValue
      else if m.hideCredit then .error (.alreadySet .hideCredit)
      else .ok { m with hideCredit := true }
  | .spaces =>
      match Text.toNat? mostSpaces value with
      | none => .error (.invalidSpaces value)
      | some n =>
          if m.spaces.isSome then .error (.alreadySet .spaces)
          else .ok { m with spaces := some n }
  | .font => (newText .font m.font value).map fun v => { m with font := some v }
  | .favicon => (newText .favicon m.favicon value).map fun v => { m with favicon := some v }
  | .initialHash =>
      (newText .initialHash m.initialHash value).map fun v => { m with initialHash := some v }

/-- Only one directive reads or sets the number of spaces. -/
theorem set_of_ne_spaces {d : Directive} (h : d ≠ .spaces) (m : Metadata) (value : Text)
    (spaces : Option Nat) :
    { m with spaces }.set d value = (m.set d value).map fun m => { m with spaces } := by
  cases d with
  | spaces => exact absurd rfl h
  | theme =>
      unfold set
      dsimp only
      cases Theme.ofText? value with
      | none => rfl
      | some v => cases m.theme <;> rfl
  | hideCredit =>
      unfold set
      dsimp only
      cases value with
      | nil => cases m.hideCredit <;> rfl
      | cons c t => rfl
  | _ =>
      unfold set
      dsimp only
      cases newText _ _ value <;> rfl

/-- The number of spaces is set once, and never unset. -/
theorem spaces_of_set {m after : Metadata} {d : Directive} {value : Text}
    (h : m.set d value = .ok after) :
    d ≠ .spaces ∧ after.spaces = m.spaces ∨
      d = .spaces ∧ m.spaces = none ∧ after.spaces.isSome = true := by
  by_cases hd : d = .spaces
  · subst hd
    unfold set at h
    dsimp only at h
    split at h
    · cases h
    · split at h
      · cases h
      · next hfree =>
          cases h
          exact .inr ⟨rfl, by simpa using hfree, rfl⟩
  · -- Setting the number to what it is changes nothing, and so does not doing it.
    have hsame := set_of_ne_spaces hd m value m.spaces
    change m.set d value = _ at hsame
    rw [h] at hsame
    have hafter : after = { after with spaces := m.spaces } := Except.ok.inj hsame
    exact .inl ⟨hd, by rw [hafter]⟩

/-- The prologue after the directive with the given name. -/
def applyDirective (m : Metadata) (name value : Text) : Except DirectiveFault Metadata :=
  match Directive.ofName? name with
  | none => .error (.unknown name)
  | some d => m.set d value

/-- The prologue with one more custom class. -/
def addClass (m : Metadata) (name declarations : Text) : Except DirectiveFault Metadata :=
  if m.customClasses.contains name then .error (.duplicateClass name)
  else .ok { m with customClasses := m.customClasses.insert name declarations }

theorem addClass_ok {m after : Metadata} {name declarations : Text}
    (h : m.addClass name declarations = .ok after) :
    m.customClasses.contains name = false ∧
      after = { m with customClasses := m.customClasses.insert name declarations } := by
  unfold addClass at h
  split at h
  · cases h
  · next hfree =>
      cases h
      exact ⟨by simpa using hfree, rfl⟩

end Metadata

end IndentMarkup
