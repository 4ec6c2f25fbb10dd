import WebIdl.Catalog.Ingest
import WebIdl.Wire.Record

/-!
# WebIdl.Config

What can be configured: the root namespace of the generated code, and whether members
that are marked as legacy are left out.
-/

namespace WebIdl

/-- A configuration. -/
structure Config where
  /-- The root namespace, without separators at its ends. -/
  root : String := "Generated"
  dropLegacy : Bool := false
deriving Repr, DecidableEq

namespace Config

/-- The configuration with its namespace checked: identifiers with `\` between them. -/
def validate (config : Config) : Except Error Unit :=
  let root := config.root
  let chars := root.toList
  if root == "" then .error (.invalidConfig .empty)
  else if chars.head? == some '\\' || chars.getLast? == some '\\' then
    .error (.invalidConfig (.outerSeparator root))
  else
    match (Text.split '\\' root).find? fun segment => !Text.isIdentifier segment with
    | some segment => .error (.invalidConfig (.badSegment segment root))
    | none => .ok ()

/-- The keys of a configuration. -/
def keys : List String :=
  ["namespace", "dropLegacy"]

/-- A configuration record. It may have no other keys. -/
def record? (value : Json) : Option Config :=
  if Wire.onlyKeys keys value then
    match Wire.fieldsOf keys value with
    | some [root, dropLegacy] => do
      let root ← Wire.withDefault "Generated" Wire.string? root
      let dropLegacy ← Wire.withDefault false Wire.bool? dropLegacy
      return { root, dropLegacy }
    | _ => none
  else none

/-- The configuration that a value stands for, if there is a value. -/
def ofJson? (value : Option Json) : Except Error Config :=
  match value.bind record? with
  | none => .error .unreadableConfig
  | some config => do
    config.validate
    return config

/-- The configuration that a value stands for. -/
def ofJson (value : Json) : Except Error Config :=
  ofJson? (some value)

/-- The configuration that a text stands for. -/
def ofText (text : String) : Except Error Config :=
  ofJson? (Json.parse text)

/-- What the configuration leaves out of a catalog. -/
def ingestOptions (config : Config) : IngestOptions where
  dropLegacy := config.dropLegacy

end Config

end WebIdl
