import WebIdl.Text.CaseTable
import WebIdl.Text.Case
import WebIdl.Text.Ascii
import WebIdl.Text.Blank
import WebIdl.Text.Split
import WebIdl.Text.Quoted
import WebIdl.Text.Sink
import WebIdl.Text.LineBuffer
import WebIdl.Ordered
import WebIdl.Json.Number
import WebIdl.Json.Basic
import WebIdl.Json.Parser
import WebIdl.ExtAttr
import WebIdl.IdlType
import WebIdl.Definition
import WebIdl.Error
import WebIdl.Wire.Record
import WebIdl.Wire.TypeRecord
import WebIdl.Wire.NodeRecord
import WebIdl.Wire.Tree
import WebIdl.Walk
import WebIdl.Catalog.Basic
import WebIdl.Catalog.Ingest
import WebIdl.Catalog.Typedef
import WebIdl.Capability
import WebIdl.Naming.Category
import WebIdl.Naming.Identifier
import WebIdl.Naming.NameMap
import WebIdl.Naming.Scope
import WebIdl.Naming.Resolver
import WebIdl.Naming.Session
import WebIdl.Registry
import WebIdl.Catalog.TypeTree
import WebIdl.Code.TypeText
import WebIdl.Code.LiteralText
import WebIdl.Code.Signature
import WebIdl.Code.Overload
import WebIdl.Code.Imports
import WebIdl.Code.Method
import WebIdl.Code.File
import WebIdl.Feature
import WebIdl.Accessor
import WebIdl.Artifact.Target
import WebIdl.Artifact.Contract
import WebIdl.Artifact.Reflected
import WebIdl.Artifact.Keyed
import WebIdl.Artifact.Cast
import WebIdl.Artifact.Defaults
import WebIdl.Artifact.Scaffold
import WebIdl.Config
import WebIdl.Generator
import WebIdl.Proofs.Outcome
import WebIdl.Proofs.Walk
import WebIdl.Proofs.Graph
import WebIdl.Proofs.Ingest
import WebIdl.Proofs.WrittenTypes
import WebIdl.Proofs.NameMap
import WebIdl.Proofs.Causes
import WebIdl.Proofs.Resolution
import WebIdl.Proofs.Scope
import WebIdl.Proofs.Requests
import WebIdl.Proofs.Naming
import WebIdl.Proofs.Draft
import WebIdl.Proofs.Capability
import WebIdl.Proofs.Surface
import WebIdl.Proofs.Emission
import WebIdl.Proofs.Files
import WebIdl.Proofs.Coverage
import WebIdl.Proofs.Calls
import WebIdl.Proofs.Order
import WebIdl.Proofs.Reserved
import WebIdl.Proofs.Faults
import WebIdl.Proofs.Lookup
import WebIdl.Proofs.Failures
import WebIdl.Proofs.Distinct
import WebIdl.Proofs.Agreement
import WebIdl.Proofs.Session
import WebIdl.Proofs.Overload
import WebIdl.Proofs.Protocol
import WebIdl.Proofs.Renaming
import WebIdl.Proofs.Assembly
import WebIdl.Proofs.Typedef
import WebIdl.Proofs.Split
import WebIdl.Proofs.Rendering
import WebIdl.Proofs.Documentation
import WebIdl.Proofs.Widening
import WebIdl.Proofs.Imports
import WebIdl.Proofs.Expansion
import WebIdl.Proofs.Erasure
import WebIdl.Proofs.Flattening
import WebIdl.Proofs.Sharing
import WebIdl.Proofs.Snapshot
import WebIdl.Proofs.Completion
import WebIdl.Proofs.LineBuffer
import WebIdl.Proofs.Conversion
import WebIdl.Proofs.Matching
import WebIdl.Proofs.Enumeration
import WebIdl.Proofs.Keywords
import WebIdl.Proofs.Grouping
import WebIdl.Proofs.Preorder
import WebIdl.Proofs.Conflict
import WebIdl.Proofs.Inheriting
import WebIdl.Proofs.Forwarding
import WebIdl.Proofs.Attempts
import WebIdl.Proofs.Generation
import WebIdl.Proofs.Literals
