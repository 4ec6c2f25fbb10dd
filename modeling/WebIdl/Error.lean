import WebIdl.Text.Split
import WebIdl.Text.Ascii
import WebIdl.IdlType

/-!
# WebIdl.Error

Why generation fails. Every failure is a cause with its own data; the wording is in
one function for each kind of cause, and every cause has a stable code.
-/

namespace WebIdl

open WebIdl.Text (joinWith)

/-- Stable codes of failures. The first digit tells the phase: collecting the
definitions, naming, types and values, input and configuration. -/
inductive ErrorCode where
  | duplicateDefinition
  | duplicateTypedef
  | partialWithoutMain
  | unknownMixin
  | unknownIncludesTarget
  | unknownDefinition
  | mixinConflict
  | mixinCycle
  | missingName
  | protocolConflict
  | unknownType
  | unsupportedType
  | unsupportedLiteral
  | input
  | invalidConfig
deriving Repr, DecidableEq

namespace ErrorCode

/-- The code as it is written. -/
def text : ErrorCode → String
  | .duplicateDefinition => "E0001"
  | .duplicateTypedef => "E0002"
  | .partialWithoutMain => "E0003"
  | .unknownMixin => "E0004"
  | .unknownIncludesTarget => "E0005"
  | .unknownDefinition => "E0006"
  | .mixinConflict => "E1001"
  | .mixinCycle => "E1002"
  | .missingName => "E1003"
  | .protocolConflict => "E1004"
  | .unknownType => "E2001"
  | .unsupportedType => "E2002"
  | .unsupportedLiteral => "E2003"
  | .input => "E3001"
  | .invalidConfig => "E3002"

/-- All codes in numeric order. -/
def all : List ErrorCode :=
  [.duplicateDefinition, .duplicateTypedef, .partialWithoutMain, .unknownMixin,
   .unknownIncludesTarget, .unknownDefinition, .mixinConflict, .mixinCycle, .missingName,
   .protocolConflict, .unknownType, .unsupportedType, .unsupportedLiteral, .input,
   .invalidConfig]

/-- The code a text stands for; the case of its letter does not matter. -/
def ofText? (s : String) : Option ErrorCode :=
  all.find? fun code => Text.sameIgnoringCase code.text s

end ErrorCode

/-- What is wrong with the shape of a type record. -/
inductive TypeFault where
  | emptyName
  | shortUnion (members : Nat)
  | wrongArity (head : Generic) (found : Nat)
  | iterableArguments (found : Nat)
  | listForOne (node : String)
  | namePayload (union : Bool) (generic name : String)
  | nestedPayload (union : Bool) (generic : String) (count : Nat)
deriving Repr, DecidableEq

/-- The wording of a type fault. -/
def TypeFault.message : TypeFault → String
  | .emptyName => "empty type name"
  | .shortUnion members => s!"union with {members} member(s)"
  | .wrongArity head found =>
    let keyword := head.keyword
    let arity := head.arity
    s!"{keyword} takes {arity} argument(s), found {found}"
  | .iterableArguments found => s!"iterable declares {found} type arguments"
  | .listForOne node => s!"{node} declares a list where a single type is expected"
  | .namePayload union generic name => s!"union={union}, generic=`{generic}`, name `{name}`"
  | .nestedPayload union generic count =>
    s!"union={union}, generic=`{generic}`, {count} nested type(s)"

/-- A node that can be read and makes no sense. -/
inductive ShapeError where
  | unknownDefinition (keyword : String)
  | unknownMember (keyword : String)
  | missingField (node field : String)
  | unknownSpecial (member special : String)
  | type (fault : TypeFault)
  | unknownGeneric (keyword : String)
  | unknownLiteral (keyword : String)
deriving Repr, DecidableEq

/-- The wording of a shape error. -/
def ShapeError.message : ShapeError → String
  | .unknownDefinition keyword => s!"unknown definition kind `{keyword}`"
  | .unknownMember keyword => s!"unsupported member kind `{keyword}`"
  | .missingField node field => s!"`{node}` node is missing `{field}`"
  | .unknownSpecial member special => s!"unknown special qualifier `{special}` on {member}"
  | .type fault =>
    let detail := fault.message
    s!"unrecognized type-node shape: {detail}"
  | .unknownGeneric keyword => s!"unknown generic type `{keyword}`"
  | .unknownLiteral keyword => s!"unrecognized literal kind `{keyword}`"

/-- Why a type cannot be mapped. -/
inductive MappingFault where
  | typedefCycle (path : List String)
  /-- A typedef that occurs inside its own body, behind a union or a generic. -/
  | typedefInsideItself (name : String)
  | wrongArity (head : Generic) (found : Nat)
  | forwardsToNoInterface (owner member : String)
deriving Repr, DecidableEq

/-- The wording of a mapping fault. -/
def MappingFault.message : MappingFault → String
  | .typedefCycle path =>
    let trail := joinWith " -> " path
    s!"typedef cycle {trail}"
  | .typedefInsideItself name => s!"typedef `{name}` contains itself"
  | .wrongArity head found =>
    let keyword := head.keyword
    let arity := head.arity
    s!"`{keyword}` takes {arity} type argument(s), found {found}"
  | .forwardsToNoInterface owner member =>
    s!"`[PutForwards]` on `{owner}.{member}` needs an interface type"

/-- What is wrong with a configured namespace. -/
inductive NamespaceFault where
  | empty
  | outerSeparator (root : String)
  | badSegment (segment root : String)
deriving Repr, DecidableEq

/-- The wording of a namespace fault. -/
def NamespaceFault.message : NamespaceFault → String
  | .empty => "namespace must not be empty"
  | .outerSeparator root => s!"namespace `{root}` must not start or end with `\\`"
  | .badSegment segment root =>
    s!"namespace segment `{segment}` of `{root}` is not a PHP identifier"

/-- A failure of generation. None is worked around. -/
inductive Error where
  | duplicateDefinition (name : String)
  | duplicateTypedef (name : String)
  | partialWithoutMain (name : String)
  | unknownMixin (definition mixin : String)
  | unknownIncludesTarget (target mixin : String)
  | unknownDefinition (name : String)
  | mixinConflict (definition mixin name : String)
  | mixinCycle (path : List String)
  | missingName (definition category key : String)
  | protocolConflict (definition protocol name : String)
  | unknownType (name : String)
  | unsupportedType (fault : MappingFault)
  /-- The spelling is no numeric literal. -/
  | unsupportedLiteral (spelling : String)
  /-- The input is no JSON text, or its records lack what they need. -/
  | unreadableInput
  | malformedInput (cause : ShapeError)
  /-- The configuration is no JSON text, or has fields it should not have. -/
  | unreadableConfig
  | invalidConfig (fault : NamespaceFault)
deriving Repr, DecidableEq

namespace Error

/-- The code of a failure. -/
def code : Error → ErrorCode
  | .duplicateDefinition _ => .duplicateDefinition
  | .duplicateTypedef _ => .duplicateTypedef
  | .partialWithoutMain _ => .partialWithoutMain
  | .unknownMixin .. => .unknownMixin
  | .unknownIncludesTarget .. => .unknownIncludesTarget
  | .unknownDefinition _ => .unknownDefinition
  | .mixinConflict .. => .mixinConflict
  | .mixinCycle _ => .mixinCycle
  | .missingName .. => .missingName
  | .protocolConflict .. => .protocolConflict
  | .unknownType _ => .unknownType
  | .unsupportedType _ => .unsupportedType
  | .unsupportedLiteral _ => .unsupportedLiteral
  | .unreadableInput => .input
  | .malformedInput _ => .input
  | .unreadableConfig => .invalidConfig
  | .invalidConfig _ => .invalidConfig

/-- The wording of a failure. -/
def message : Error → String
  | .duplicateDefinition name => s!"duplicate definition `{name}`"
  | .duplicateTypedef name => s!"duplicate typedef `{name}`"
  | .partialWithoutMain name =>
    s!"partial definition `{name}` has no main definition to merge into"
  | .unknownMixin definition mixin =>
    s!"`{definition}` inherits or includes unknown definition `{mixin}`"
  | .unknownIncludesTarget target mixin =>
    s!"`includes` targets unknown definition `{target}` (including `{mixin}`)"
  | .unknownDefinition name => s!"unknown definition `{name}`"
  | .mixinConflict definition mixin name =>
    s!"mixins must not conflict: `{mixin}` introduces `{name}` which is already used in " ++
      s!"`{definition}`"
  | .mixinCycle path =>
    let trail := joinWith " -> " path
    s!"inheritance/mixin cycle: {trail}"
  | .missingName definition category key =>
    s!"no generated name for {category} `{key}` of `{definition}`"
  | .protocolConflict definition protocol name =>
    s!"`{definition}` needs `{name}` for `{protocol}`, but an inherited or included member " ++
      "already uses it"
  | .unknownType name => s!"unknown type `{name}`"
  | .unsupportedType fault =>
    let detail := fault.message
    s!"unsupported type: {detail}"
  | .unsupportedLiteral spelling =>
    s!"unsupported literal: `{spelling}` is not a numeric literal"
  | .unreadableInput => "malformed input: not a JSON array of nodes"
  | .malformedInput cause =>
    let detail := cause.message
    s!"malformed input: {detail}"
  | .unreadableConfig => "invalid configuration: not a JSON configuration"
  | .invalidConfig fault =>
    let detail := fault.message
    s!"invalid configuration: {detail}"

end Error

end WebIdl
