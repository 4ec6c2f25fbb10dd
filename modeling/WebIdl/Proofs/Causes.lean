import WebIdl.Naming.Resolver
import WebIdl.Proofs.Outcome

/-!
# WebIdl.Proofs.Causes

Why the names of one definition cannot be chosen: two names meet, a protocol's method is
taken, or a typedef leads back to itself (`failsOnly_nameTable_of`).  In particular no
cycle of the graph is reported there, and no definition is missed.
-/

namespace WebIdl

/-- The causes for which the names of a definition cannot be chosen. -/
def Error.ofNaming : Error → Prop
  | .mixinConflict .. => True
  | .protocolConflict .. => True
  | .unsupportedType (.typedefCycle _) => True
  | _ => False

/-- A typedef leads back to itself. -/
def Error.ofTypedef : Error → Prop
  | .unsupportedType (.typedefCycle _) => True
  | _ => False

/-- A typedef that leads back to itself is a cause for which names cannot be chosen. -/
theorem Error.ofNaming_of_typedef (e : Error) (h : e.ofTypedef) : e.ofNaming := by
  unfold ofTypedef at h
  split at h
  · trivial
  · exact h.elim

/-! ## types and capabilities -/

/-- Following typedefs fails only where one leads back to itself. -/
theorem Catalog.failsOnly_follow (c : Catalog) (seen : List String) (type target : IdlType) :
    FailsOnly Error.ofTypedef (c.follow seen type target) := by
  fun_induction Catalog.follow c seen type target with
  | case1 => exact FailsOnly.ok _
  | case2 => exact FailsOnly.error trivial
  | case3 => exact FailsOnly.ok _
  | case4 seen type target next name hname hfresh target' htarget ih => exact ih

/-- Resolving a type fails only so. -/
theorem Catalog.failsOnly_resolve (c : Catalog) (type : IdlType) :
    FailsOnly Error.ofTypedef (c.resolve type) := by
  rw [Catalog.resolve]
  split
  · exact FailsOnly.ok _
  · split
    · exact FailsOnly.ok _
    · exact c.failsOnly_follow _ _ _

/-- Whether a type is an integer can be told unless a typedef leads back to itself. -/
theorem Catalog.failsOnly_isInteger (c : Catalog) (type : IdlType) :
    FailsOnly Error.ofTypedef (c.isInteger type) :=
  (c.failsOnly_resolve type).bind fun _ => FailsOnly.ok _

theorem Catalog.failsOnly_specialKind (c : Catalog) (special : OperationSpecial)
    (signature : Signature) : FailsOnly Error.ofTypedef (c.specialKind special signature) := by
  rw [Catalog.specialKind]
  split
  · exact (c.failsOnly_isInteger _).bind fun _ => FailsOnly.ok _
  · exact FailsOnly.ok _

/-- Attributes are noted unless a typedef leads back to itself. -/
theorem Capabilities.failsOnly_noteAttribute (c : Catalog) (caps : Capabilities) (owner : String)
    (decl : Attribute) : FailsOnly Error.ofTypedef (caps.noteAttribute c owner decl) := by
  simp only [noteAttribute]
  generalize (if decl.special == .stringifier then _ else caps) = noted
  split
  · refine (c.failsOnly_isInteger _).bind fun integer => ?_
    split <;> exact FailsOnly.ok _
  · exact FailsOnly.ok _

theorem Capabilities.failsOnly_note (c : Catalog) (caps : Capabilities) (item : SurfaceMember) :
    FailsOnly Error.ofTypedef (caps.note c item) := by
  rw [Capabilities.note]
  split
  · refine (c.failsOnly_specialKind _ _).bind fun kind => ?_
    split
    · exact FailsOnly.ok _
    · split <;> exact FailsOnly.ok _
  · exact failsOnly_noteAttribute c _ _ _
  all_goals exact FailsOnly.ok _

/-- The capabilities of a definition are known unless a typedef leads back to itself. -/
theorem Capabilities.failsOnly_of (c : Catalog) (d : Definition) :
    FailsOnly Error.ofTypedef (Capabilities.of c d) :=
  FailsOnly.foldlM (Capabilities.failsOnly_note c) _ _

/-! ## requests -/

/-- The names for a definition's kind are known unless a typedef leads back to itself. -/
theorem NameRequest.failsOnly_ofKind (c : Catalog) (d : Definition) :
    FailsOnly Error.ofTypedef (ofKind c d) := by
  rw [ofKind]
  split
  all_goals first
    | exact FailsOnly.ok _
    | exact (Capabilities.failsOnly_of c d).bind fun _ => FailsOnly.ok _

theorem NameRequest.failsOnly_ofUnnamed (c : Catalog) (member : Member) :
    FailsOnly Error.ofTypedef (ofUnnamed c member) := by
  rw [ofUnnamed]
  split
  · refine (c.failsOnly_specialKind _ _).bind fun kind => ?_
    split <;> exact FailsOnly.ok _
  · exact FailsOnly.ok _

theorem NameRequest.failsOnly_ofMembers (c : Catalog) (d : Definition) :
    FailsOnly Error.ofTypedef (ofMembers c d) := by
  refine (Capabilities.failsOnly_of c d).bind fun caps => ?_
  exact (FailsOnly.mapM (failsOnly_ofUnnamed c) d.members).bind fun _ => FailsOnly.ok _

/-! ## scopes -/

namespace Scope

/-- A reservation is folded in, or a mixin or a protocol is in conflict. -/
theorem failsOnly_fold (scope : Scope) (included : Bool) (origin : String)
    (reservation : Reservation) :
    FailsOnly Error.ofNaming (scope.fold included origin reservation) := by
  simp only [fold]
  split
  · exact FailsOnly.ok _
  · split
    · exact FailsOnly.ok _
    · exact FailsOnly.error trivial

theorem failsOnly_foldMixins (c : Catalog) (map : NameMap) (d : Definition) (scope : Scope) :
    FailsOnly Error.ofNaming (scope.foldMixins c map d) := by
  have hall : ∀ included scope origin,
      FailsOnly Error.ofNaming (Scope.foldAll map included scope origin) :=
    fun included scope origin =>
      FailsOnly.foldlM (fun scope r => scope.failsOnly_fold included origin r) _ scope
  exact (FailsOnly.foldlM (hall false) _ scope).bind fun scope =>
    FailsOnly.foldlM (hall true) _ scope

/-- A name is reserved, or a protocol is in conflict. -/
theorem failsOnly_reserve (scope : Scope) (category : NameCategory) (key desired : String) :
    FailsOnly Error.ofNaming (scope.reserve category key desired) := by
  rw [reserve]
  split
  · exact FailsOnly.ok _
  · refine FailsOnly.bind ?_ fun _ => FailsOnly.ok _
    rw [free]
    split
    · exact FailsOnly.ok _
    · exact FailsOnly.error trivial
    · exact FailsOnly.ok _

/-- A request is granted, or fails for a cause of naming. -/
theorem failsOnly_grant (c : Catalog) (map : NameMap) (d : Definition) (scope : Scope)
    (request : NameRequest) : FailsOnly Error.ofNaming (scope.grant c map d request) := by
  cases request with
  | structural category =>
      rw [grant, reserveStructural]
      split
      · exact FailsOnly.ok _
      · split
        · exact FailsOnly.ok _
        · split
          · split
            · exact FailsOnly.error trivial
            · exact failsOnly_reserve _ _ _ _
          · exact failsOnly_reserve _ _ _ _
  | own category key desired => exact failsOnly_reserve _ _ _ _
  | inheriting category key desired =>
      rw [grant]
      split
      · exact FailsOnly.ok _
      · exact failsOnly_reserve _ _ _ _

end Scope

/-- The names of a definition fail to be chosen for these causes only. -/
theorem failsOnly_nameTable_of (c : Catalog) (map : NameMap) (d : Definition) :
    FailsOnly Error.ofNaming (NameTable.of c map d) := by
  have hgrants : ∀ (requests : List NameRequest) (scope : Scope),
      FailsOnly Error.ofNaming (requests.foldlM (Scope.grant c map d) scope) :=
    FailsOnly.foldlM (Scope.failsOnly_grant c map d)
  refine (Scope.failsOnly_foldMixins c map d _).bind fun scope => ?_
  refine ((NameRequest.failsOnly_ofKind c d).mono Error.ofNaming_of_typedef).bind
    fun requests => ?_
  refine (hgrants requests scope).bind fun scope => ?_
  refine ((NameRequest.failsOnly_ofMembers c d).mono Error.ofNaming_of_typedef).bind
    fun requests => ?_
  exact (hgrants requests scope).bind fun _ => FailsOnly.ok _

end WebIdl
