import IndentMarkup.Text.Blank

/-!
Templates: named pieces of source with parameters.

A template's body is kept as it was written, without the indentation of the line
that defines it. A call puts values in the place of the references, a reference
being a greater-than sign with the name of a parameter, and reads the result as a
source of its own.

* `Template.ofBody` — a template from its definition.
* `Template.substitute` — the body with values for the parameters.
* `Template.valuesOf` — the values written in a call.
-/

namespace IndentMarkup

/-- What can be wrong with the definition, removal or call of a template. -/
inductive TemplateFault where
  /-- A definition without a name. -/
  | unnamed
  /-- A definition that gives one name to two parameters. -/
  | duplicateParameter (parameter name : Text)
  /-- A definition of a name that is taken. -/
  | alreadyDefined (name : Text)
  /-- The removal of a name that is not taken. -/
  | nothingToRemove (name : Text)
  /-- A call of a name that is not taken. -/
  | unknown (name : Text)
  /-- A call with too few or too many values. -/
  | wrongArity (name : Text) (expected got : Nat)
  /-- A call of a template that is being expanded, outermost expansion first. -/
  | recursive (expanding : List Text) (name : Text)
  deriving DecidableEq, Repr

/-- What the author is told about the fault. -/
def TemplateFault.message : TemplateFault → Text
  | .unnamed => "Template definition requires a name.".toList
  | .duplicateParameter parameter name =>
      "Duplicate parameter '".toList ++ parameter ++ "' in template definition ".toList ++ name
        ++ ['.']
  | .alreadyDefined name => "Template '".toList ++ name ++ "' already defined.".toList
  | .nothingToRemove name => "Template '".toList ++ name ++ "' not found.".toList
  | .unknown name => "Template `".toList ++ name ++ "` not found.".toList
  | .wrongArity name expected got =>
      "Incorrect number of parameters for template ".toList ++ name ++ " (expected ".toList
        ++ Text.ofNat expected ++ ", got ".toList ++ Text.ofNat got ++ [')']
  | .recursive expanding name =>
      "Recursive template invocation: ".toList ++ Text.join " -> ".toList expanding
        ++ " -> ".toList ++ name ++ ['.']

/-- A named piece of source with parameters. -/
structure Template where
  name : Text
  /-- The parameters in the order of their values. -/
  parameters : List Text
  content : Text
  deriving DecidableEq, Repr

namespace Template

/-! ### Definition -/

/-- The first parameter that stands twice, at its second place. -/
def repeated? : (before after : List Text) → Option Text
  | _, [] => none
  | before, p :: ps => if before.contains p then some p else repeated? (before ++ [p]) ps

/-- Write every greater-than sign behind a backslash as a character reference, so
that it is never taken for the start of a parameter reference. -/
def protectClosers : Text → Text
  | [] => []
  | [c] => [c]
  | c :: d :: t =>
      if c = '\\' ∧ d = '>' then "&gt;".toList ++ protectClosers t
      else c :: protectClosers (d :: t)

/-- The template with the given name, parameters and body. -/
def ofBody (name : Text) (parameters : List Text) (body : Text) :
    Except TemplateFault Template :=
  match repeated? [] parameters with
  | some p => .error (.duplicateParameter p name)
  | none => .ok ⟨name, parameters, protectClosers body⟩

/-- The number of values that a call has to give. -/
def arity (m : Template) : Nat := m.parameters.length

/-! ### Substitution -/

/-- How a parameter is referred to. -/
def reference (parameter : Text) : Text := '>' :: parameter

/-- Put a binding in front of the first one whose name is not longer, in bytes. -/
def insertBinding (b : Text × Text) : List (Text × Text) → List (Text × Text)
  | [] => [b]
  | c :: cs =>
      if Text.byteLength c.1 ≤ Text.byteLength b.1 then b :: c :: cs
      else c :: insertBinding b cs

/-- Parameters with their values, longer names (in bytes) first and names of one
length in the order of declaration. So a name that begins another one never takes
its references away. -/
def bindings (m : Template) (values : List Text) : List (Text × Text) :=
  (m.parameters.zip values).foldr insertBinding []

/-- The body with every reference replaced by its value, parameter by parameter. -/
def substitute (m : Template) (values : List Text) : Except TemplateFault Text :=
  if values.length ≠ m.arity then .error (.wrongArity m.name m.arity values.length)
  else .ok ((m.bindings values).foldl (fun t b => Text.replace (reference b.1) b.2 t) m.content)

/-- The values that a call on a line gives: what stands between greater-than signs,
trimmed. A call without text gives no value. -/
def valuesOf (t : Text) : List Text :=
  let text := Text.trim t
  if text = [] then [] else (Text.pieces (· == '>') text).map Text.trim

end Template

end IndentMarkup
