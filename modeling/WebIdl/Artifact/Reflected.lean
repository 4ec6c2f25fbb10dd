import WebIdl.Artifact.Contract

/-!
# WebIdl.Artifact.Reflected

Accessors that follow from extended attributes: those that reflect a content attribute,
and setters that forward to another object.
-/

namespace WebIdl.Artifact

open WebIdl.Code
open WebIdl.Text (quote)

/-- A call of a host method on the object itself, with the code around it. -/
def hostCall (before method after : String) : Stmt :=
  .line [.text before, .host method, .text after]

/-- Keywords in lower case with the values they stand for; the first value of a keyword
counts. -/
def keywordTable (values : List String) : List (String × String) :=
  values.foldl (fun table value =>
    let keyword := Text.lowercase value
    if (table.lookup keyword).isSome then table else table ++ [(keyword, value)]) []

/-- The body of a reflecting getter. -/
def getterBody : Reflection → List Stmt
  | .string content true => [hostCall "return " "getAttribute" ("(" ++ quote content ++ ");")]
  | .string content false =>
    [hostCall "return " "getAttribute" ("(" ++ quote content ++ ") ?? " ++ quote "" ++ ";")]
  | .boolean content => [hostCall "return " "hasAttribute" ("(" ++ quote content ++ ");")]
  | .integer content =>
    [hostCall "$raw = " "getAttribute" ("(" ++ quote content ++ ");"),
     .plain "return $raw !== null && is_numeric($raw) ? (int) $raw : 0;"]
  | .enum content values invalid missing =>
    [hostCall "$raw = " "getAttribute" ("(" ++ quote content ++ ");"),
     .control "if ($raw === null)" [.plain ("return " ++ quote missing ++ ";")],
     .blank,
     .matching "return match (strtolower($raw))"
       ((keywordTable values).map (fun (keyword, value) =>
          .plain (quote keyword ++ " => " ++ quote value ++ ",")) ++
        [.plain ("default => " ++ quote invalid ++ ",")])]

/-- The body of a reflecting setter. -/
def setterBody : Reflection → List Stmt
  | .string content true =>
    [.control "if ($value === null)"
       [hostCall "" "removeAttribute" ("(" ++ quote content ++ ");"), .plain "return;"],
     hostCall "" "setAttribute" ("(" ++ quote content ++ ", $value);")]
  | .string content false => [hostCall "" "setAttribute" ("(" ++ quote content ++ ", $value);")]
  | .enum content _ _ _ => [hostCall "" "setAttribute" ("(" ++ quote content ++ ", $value);")]
  | .boolean content =>
    [.control "if ($value)"
       [hostCall "" "setAttribute" ("(" ++ quote content ++ ", " ++ quote "" ++ ");"),
        .plain "return;"],
     hostCall "" "removeAttribute" ("(" ++ quote content ++ ");")]
  | .integer content =>
    [hostCall "" "setAttribute" ("(" ++ quote content ++ ", (string) $value);")]

namespace Target

/-- The accessors of a reflecting attribute. -/
def reflectedItems (t : Target) (a : OwnedAttribute) (reflection : Reflection) :
    Draft (List Item) := do
  let getter ← t.registry.nameOf a.owner.name .getter a.decl.name
  let getterSig ← t.getter getter a.decl.type false
  let get := defined getterSig (getterBody reflection)
  match t.registry.name? a.owner.name .setter a.decl.name with
  | none => return [get]
  | some setter =>
    let setterSig ← t.setter setter a.decl.type false
    return [get, defined setterSig (setterBody reflection)]

/-- The setter of a forwarding attribute, which writes to what the getter gives. -/
def forwardedItems (t : Target) (a : OwnedAttribute) (forward : Forward) :
    Draft (List Item) := do
  let getter ← t.registry.nameOf a.owner.name .getter a.decl.name
  let setter ← t.registry.nameOf a.owner.name .setter a.decl.name
  let type ← t.registry.resolve a.decl.type
  let arrow := if type.nullable then "?->" else "->"
  let sig ← t.setter setter forward.type false
  let call := "()" ++ arrow ++ forward.setter ++ "($value);"
  return [defined sig [.line [.self getter, .text call]]]

/-- The accessors of an attribute that follow from its extended attributes. -/
def attributeItems (t : Target) (a : OwnedAttribute) : Draft (List Item) := do
  match ← t.registry.reflection? a with
  | some reflection => t.reflectedItems a reflection
  | none =>
    match ← t.registry.forward? a with
    | some forward => t.forwardedItems a forward
    | none => return []

end Target

end WebIdl.Artifact
