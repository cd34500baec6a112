import Folio.Config.Basic
/-!
# Decoding configuration

A configuration from the fields of a document. Keys that are not known are ignored, and a value of
another kind than expected makes the whole configuration unreadable. A structure may be given by the
list of its members instead of a table.
-/

namespace Folio

/-- A field that need not be there but must have the right kind if it is. -/
def optionalField {α : Type} (fields : Fields) (key : String) (decode : Json → Option α) :
    Option (Option α) :=
  match fields.get? key with
  | none => some none
  | some value => (decode value).map some

/-- One extension or a list of them. -/
def decodeTypes : Json → Option (List String)
  | .string extension => some [extension]
  | .array items => items.mapM Json.string?
  | _ => none

def decodeObject : Json → Option Fields
  | .object fields => some fields
  | _ => none

namespace OptionsLayer

/-- Options from a table, or from a list that gives all three of them. -/
def decode : Json → Option OptionsLayer
  | .object fields => do
    return {
      src := ← optionalField fields "src" Json.string?
      dist := ← optionalField fields "dist" Json.string?
      types := ← optionalField fields "type" decodeTypes }
  | .array (src :: dist :: types :: _) => do
    return {
      src := some (← src.string?)
      dist := some (← dist.string?)
      types := some (← decodeTypes types) }
  | _ => none

end OptionsLayer

namespace TargetConfig

/-- A target from a table, or from a list of its globals and options. -/
def decode : Json → Option TargetConfig
  | .object fields => do
    return {
      globals := (← optionalField fields "globals" decodeObject).getD []
      options := (← optionalField fields "options" OptionsLayer.decode).getD {} }
  | .array [] => some {}
  | .array [globals] => do return { globals := ← decodeObject globals }
  | .array (globals :: options :: _) => do
    return { globals := ← decodeObject globals, options := ← OptionsLayer.decode options }
  | _ => none

end TargetConfig

namespace SiteConfig

def decodeTargets (value : Json) : Option (Index String TargetConfig) := do
  let fields ← decodeObject value
  fields.foldlM (fun targets field => do
    return targets.insert field.1 (← TargetConfig.decode field.2)) .empty

def decode (fields : Fields) : Option SiteConfig := do
  return {
    globals := (← optionalField fields "globals" decodeObject).getD []
    options := (← optionalField fields "options" OptionsLayer.decode).getD {}
    targets := (← optionalField fields "targets" decodeTargets).getD .empty }

end SiteConfig

end Folio
