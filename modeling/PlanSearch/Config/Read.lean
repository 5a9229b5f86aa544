import PlanSearch.Config.Decode
import PlanSearch.Document.Toml
import PlanSearch.Document.Yaml

/-!
# Reading configurations

A configuration is read from a text in one of two formats, or from a document, and is checked at
once.
-/

namespace PlanSearch

/-- How the text of a configuration is written. -/
inductive TextFormat where
  | toml
  | yaml
  deriving DecidableEq, Repr

namespace TextFormat

def read : TextFormat → String → Except DocumentError Document
  | toml => Toml.read
  | yaml => Yaml.read

/-- How variants with a value are written. -/
def variantForm : TextFormat → Decoder.VariantForm
  | toml => .key
  | yaml => .tag

end TextFormat

/-- Why there is no configuration. -/
inductive ConfigError where
  /-- The text is no document, or the document does not have the form of a configuration. -/
  | unreadable (cause : DocumentError)
  | invalid (cause : Violation)
  deriving DecidableEq, Repr

def ConfigError.message : ConfigError → String
  | unreadable cause => s!"Unreadable configuration: {cause.message}"
  | invalid cause => s!"Invalid configuration: {cause.message}"

namespace SolverConfig

/-- The configuration itself, if nothing is wrong with it. -/
def checked (c : SolverConfig) : Except ConfigError SolverConfig :=
  match c.violation? with
  | some v => .error (.invalid v)
  | none => .ok c

/-- The configuration of a document. -/
def ofDocument (form : Decoder.VariantForm) (d : Document) : Except ConfigError SolverConfig := do
  checked (← (decode form d).mapError .unreadable)

/-- The configuration that a text writes. -/
def ofText (format : TextFormat) (text : String) : Except ConfigError SolverConfig := do
  ofDocument format.variantForm (← (format.read text).mapError .unreadable)

end SolverConfig

end PlanSearch
