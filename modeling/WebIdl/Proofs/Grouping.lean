import WebIdl.Proofs.Surface
import Mathlib.Data.List.Induction
import Mathlib.Tactic.Push

/-!
# WebIdl.Proofs.Grouping

Which members a feature is made of.

Two members belong together if they declare one named operation of an owner, or are both
constructors of it; everything else stands alone.  This divides the positions of a list of
members into covers, each with its first position and all later ones that belong to it
(`covers`).  Going through the list, a member opens a feature, is one by itself, or belongs
to a feature that was opened before (`ofMembersAfter_step`), so the features are made of
these covers, one after the other (`forall₂_ofMembersAfter`):

* `members_are_visited_once`: every member belongs to one feature, which stands where the
  first of its members stands and has what all of them declare, in order.
-/

namespace WebIdl

/-! ## positions that have the same key -/

namespace Positions

variable {κ : Type} [DecidableEq κ] (key : Nat → κ) (n : Nat)

/-- Whether no position before has the same key. -/
def isFirst (i : Nat) : Bool :=
  (List.range i).all fun j => key j ≠ key i

/-- The positions below `n` that have the key of a position. -/
def alike (i : Nat) : List Nat :=
  (List.range n).filter fun j => key j = key i

/-- The positions below `n`, divided by their keys, in the order of the first ones. -/
def divide : List (List Nat) :=
  ((List.range n).filter (isFirst key)).map (alike key n)

variable {key n}

theorem isFirst_iff {i : Nat} : isFirst key i = true ↔ ∀ j < i, key j ≠ key i := by
  simp [isFirst]

theorem mem_alike {i j : Nat} : j ∈ alike key n i ↔ j < n ∧ key j = key i := by
  simp [alike]

theorem pairwise_alike (i : Nat) : (alike key n i).Pairwise (· < ·) :=
  List.pairwise_lt_range.filter _

/-- Every key has a first position. -/
theorem exists_first (key : Nat → κ) (i : Nat) :
    ∃ j ≤ i, key j = key i ∧ isFirst key j = true := by
  induction i using Nat.strong_induction_on with
  | _ i ih =>
      by_cases hfirst : isFirst key i = true
      · exact ⟨i, Nat.le_refl i, rfl, hfirst⟩
      · rw [isFirst_iff] at hfirst
        push Not at hfirst
        obtain ⟨j, hj, hsame⟩ := hfirst
        obtain ⟨k, hk, hkey, hfirst⟩ := ih j hj
        exact ⟨k, by omega, hkey.trans hsame, hfirst⟩

/-- First positions come in order and have different keys. -/
theorem pairwise_firsts (key : Nat → κ) (n : Nat) :
    ((List.range n).filter (isFirst key)).Pairwise fun i j => i < j ∧ key i ≠ key j := by
  have hlt : ((List.range n).filter (isFirst key)).Pairwise (· < ·) :=
    List.pairwise_lt_range.filter _
  refine hlt.imp_of_mem fun {i j} _ hj hij => ⟨hij, ?_⟩
  exact isFirst_iff.mp (List.mem_filter.mp hj).2 i hij

/-- The first of the positions that have the key of a first position is that position. -/
theorem head_alike {i : Nat} (hi : i < n) (hfirst : isFirst key i = true) :
    (alike key n i).head? = some i := by
  have hmem : i ∈ alike key n i := mem_alike.mpr ⟨hi, rfl⟩
  have hordered : (alike key n i).Pairwise (· < ·) := pairwise_alike i
  cases hlist : alike key n i with
  | nil => simp [hlist] at hmem
  | cons j rest =>
      have hj := mem_alike.mp (hlist ▸ List.mem_cons_self : j ∈ alike key n i)
      rw [hlist] at hmem hordered
      rcases List.mem_cons.mp hmem with rfl | hrest
      · rfl
      · have hlt := (List.pairwise_cons.mp hordered).1 i hrest
        exact absurd hj.2 (isFirst_iff.mp hfirst j hlt)

/-- Dividing the positions keeps each of them, once. -/
theorem flatten_divide (key : Nat → κ) (n : Nat) : (divide key n).flatten.Perm (List.range n) := by
  have hnodup : (divide key n).flatten.Nodup := by
    rw [List.nodup_flatten]
    constructor
    · intro cover hcover
      obtain ⟨i, -, rfl⟩ := List.mem_map.mp hcover
      exact (pairwise_alike i).imp fun h => Nat.ne_of_lt h
    · rw [divide, List.pairwise_map]
      refine (pairwise_firsts key n).imp fun h x hx hy => ?_
      exact h.2 ((mem_alike.mp hx).2.symm.trans (mem_alike.mp hy).2)
  refine (List.perm_ext_iff_of_nodup hnodup List.nodup_range).mpr fun i => ?_
  rw [List.mem_flatten, List.mem_range]
  constructor
  · rintro ⟨cover, hcover, hi⟩
    obtain ⟨j, -, rfl⟩ := List.mem_map.mp hcover
    exact (mem_alike.mp hi).1
  · intro hi
    obtain ⟨j, hj, hkey, hfirst⟩ := exists_first key i
    refine ⟨alike key n j, List.mem_map_of_mem (List.mem_filter.mpr ⟨?_, hfirst⟩),
      mem_alike.mpr ⟨hi, hkey.symm⟩⟩
    exact List.mem_range.mpr (by omega)

/-- What stands at the positions where something with a property stands. -/
theorem filterMap_filter_range {α : Type} (items : List α) (p : α → Bool) :
    ((List.range items.length).filter fun i => items[i]?.any p).filterMap (fun i => items[i]?) =
      items.filter p := by
  induction items using List.reverseRecOn with
  | nil => rfl
  | append_singleton items item ih =>
      have hfront : ∀ i ∈ List.range items.length, (items ++ [item])[i]? = items[i]? :=
        fun i hi => List.getElem?_append_left (List.mem_range.mp hi)
      have hfilter : (List.range items.length).filter (fun i => (items ++ [item])[i]?.any p) =
          (List.range items.length).filter fun i => items[i]?.any p :=
        List.filter_congr fun i hi => by rw [hfront i hi]
      have hread : ((List.range items.length).filter fun i => items[i]?.any p).filterMap
          (fun i => (items ++ [item])[i]?) = items.filter p := by
        rw [← ih]
        exact List.filterMap_congr fun i hi => hfront i (List.mem_of_mem_filter hi)
      rw [List.length_append, List.length_singleton, List.range_succ, List.filter_append, hfilter,
        List.filterMap_append, hread, List.filter_append]
      cases hp : p item <;> simp [hp]

end Positions

/-! ## members that belong together -/

namespace SurfaceMember

/-- What a member is grouped by: a named operation by its owner and name, and a constructor by
its owner. -/
def group? (item : SurfaceMember) : Option (String × Option String) :=
  match item.member.kind with
  | .operation decl => decl.name.map fun name => (item.owner.name, some name)
  | .constructor _ => some (item.owner.name, none)
  | _ => none

/-- The signature that a member declares. -/
def signature? (item : SurfaceMember) : Option Signature :=
  match item.member.kind with
  | .operation decl => some decl.signature
  | _ => none

/-- The arguments that a member declares a constructor with. -/
def arguments? (item : SurfaceMember) : Option (List Argument) :=
  match item.member.kind with
  | .constructor arguments => some arguments
  | _ => none

/-- Two members declare one named operation of an owner, or are both constructors of it. -/
def Together (a b : SurfaceMember) : Prop :=
  a.owner = b.owner ∧
    ((∃ x y name, a.member.kind = .operation x ∧ b.member.kind = .operation y ∧
        x.name = some name ∧ y.name = some name) ∨
      ∃ x y, a.member.kind = .constructor x ∧ b.member.kind = .constructor y)

/-- Owners are known by their names. -/
def OwnersByName (items : List SurfaceMember) : Prop :=
  ∀ a ∈ items, ∀ b ∈ items, a.owner.name = b.owner.name → a.owner = b.owner

theorem group?_eq_some {item : SurfaceMember} {group : String × Option String} :
    item.group? = some group ↔
      (∃ decl name, item.member.kind = .operation decl ∧ decl.name = some name ∧
        group = (item.owner.name, some name)) ∨
      ∃ arguments, item.member.kind = .constructor arguments ∧ group = (item.owner.name, none) := by
  cases hkind : item.member.kind with
  | operation decl => cases hname : decl.name <;> simp [group?, hkind, hname, eq_comm]
  | constructor arguments => simp [group?, hkind, eq_comm]
  | constant _ | «attribute» _ | field _ | iterable _ => simp [group?, hkind]

/-- Members are grouped by one thing if they belong together. -/
theorem together_iff {a b : SurfaceMember}
    (howner : a.owner.name = b.owner.name → a.owner = b.owner) :
    a.Together b ↔ ∃ group, a.group? = some group ∧ b.group? = some group := by
  constructor
  · rintro ⟨hsame, ⟨x, y, name, hx, hy, hxname, hyname⟩ | ⟨x, y, hx, hy⟩⟩
    · exact ⟨_, group?_eq_some.mpr (Or.inl ⟨x, name, hx, hxname, rfl⟩),
        group?_eq_some.mpr (Or.inl ⟨y, name, hy, hyname, by rw [hsame]⟩)⟩
    · exact ⟨_, group?_eq_some.mpr (Or.inr ⟨x, hx, rfl⟩),
        group?_eq_some.mpr (Or.inr ⟨y, hy, by rw [hsame]⟩)⟩
  · rintro ⟨group, ha, hb⟩
    rcases group?_eq_some.mp ha with ⟨x, name, hx, hxname, rfl⟩ | ⟨x, hx, rfl⟩
    · rcases group?_eq_some.mp hb with ⟨y, other, hy, hyname, hsame⟩ | ⟨y, hy, hsame⟩
      · obtain ⟨hname, hkey⟩ := Prod.mk.inj hsame
        cases hkey
        exact ⟨howner hname, Or.inl ⟨x, y, name, hx, hy, hxname, hyname⟩⟩
      · cases (Prod.mk.inj hsame).2
    · rcases group?_eq_some.mp hb with ⟨y, other, hy, hyname, hsame⟩ | ⟨y, hy, hsame⟩
      · cases (Prod.mk.inj hsame).2
      · exact ⟨howner (Prod.mk.inj hsame).1, Or.inr ⟨x, y, hx, hy⟩⟩

end SurfaceMember

/-! ## going through a list of members -/

namespace Feature

open Positions SurfaceMember

/-- A feature is made of some members, of which the first one decides what it is.  A named
operation has the signatures of all of them, and a constructor the arguments. -/
inductive MadeOf : List SurfaceMember → Feature → Prop where
  | constant {item : SurfaceMember} {decl : Constant} (h : item.member.kind = .constant decl) :
      MadeOf [item] (.constant item.owner decl)
  | attribute {item : SurfaceMember} {decl : Attribute} (h : item.member.kind = .attribute decl) :
      MadeOf [item] (.attribute { owner := item.owner, decl, attrs := item.member.attrs })
  | field {item : SurfaceMember} {decl : Field} (h : item.member.kind = .field decl) :
      MadeOf [item] (.field { owner := item.owner, decl })
  | iterable {item : SurfaceMember} {decl : Iterable} (h : item.member.kind = .iterable decl) :
      MadeOf [item] (.iterable item.owner decl)
  | unnamed {item : SurfaceMember} {decl : Operation} (h : item.member.kind = .operation decl)
      (hname : decl.name = none) :
      MadeOf [item] (.operation {
        owner := item.owner, name := none, special := decl.special,
        overloads := [decl.signature] })
  | named {item : SurfaceMember} {others : List SurfaceMember} {decl : Operation} {name : String}
      {overloads : List Signature} (h : item.member.kind = .operation decl)
      (hname : decl.name = some name)
      (hoverloads : (item :: others).map signature? = overloads.map some) :
      MadeOf (item :: others) (.operation {
        owner := item.owner, name := some name, special := decl.special, overloads })
  | constructors {item : SurfaceMember} {others : List SurfaceMember} {arguments : List Argument}
      {overloads : List (List Argument)} (h : item.member.kind = .constructor arguments)
      (hoverloads : (item :: others).map arguments? = overloads.map some) :
      MadeOf (item :: others) (.constructors item.owner overloads)

theorem overload?_eq (owner name : String) (item : SurfaceMember) :
    overload? owner name item =
      if item.group? == some (owner, some name) then item.signature? else none := by
  cases hkind : item.member.kind with
  | operation decl =>
      cases hname : decl.name <;> simp [overload?, group?, signature?, hkind, hname]
  | constructor _ | constant _ | «attribute» _ | field _ | iterable _ =>
      simp [overload?, group?, hkind]

theorem constructor?_eq (owner : String) (item : SurfaceMember) :
    constructor? owner item =
      if item.group? == some (owner, none) then item.arguments? else none := by
  cases hkind : item.member.kind with
  | operation decl => cases hname : decl.name <;> simp [constructor?, group?, hkind, hname]
  | constructor arguments => simp [constructor?, group?, arguments?, hkind]
  | constant _ | «attribute» _ | field _ | iterable _ => simp [constructor?, group?, hkind]

/-- What is read off the elements with a property, if each of them has it. -/
theorem map_filter_eq {α β : Type} {p : α → Bool} {f : α → Option β} {items : List α}
    (h : ∀ x, p x = true → (f x).isSome = true) :
    (items.filter p).map f = (items.filterMap fun x => if p x then f x else none).map some := by
  induction items with
  | nil => rfl
  | cons item rest ih =>
      cases hp : p item with
      | false => simp [hp, ih]
      | true =>
          obtain ⟨value, hvalue⟩ := Option.isSome_iff_exists.mp (h item hp)
          simp [hp, hvalue, ih]

/-- The overloads of an operation are what the members of its group declare. -/
theorem map_signature? (owner name : String) (items : List SurfaceMember) :
    (items.filter fun x => x.group? == some (owner, some name)).map signature? =
      (items.filterMap (overload? owner name)).map some := by
  rw [funext (overload?_eq owner name)]
  refine map_filter_eq fun x hx => ?_
  rcases group?_eq_some.mp (beq_iff_eq.mp hx) with ⟨decl, _, hkind, -⟩ | ⟨_, -, hsame⟩
  · simp [signature?, hkind]
  · cases (Prod.mk.inj hsame).2

/-- The overloads of a constructor are what the members of its group declare. -/
theorem map_arguments? (owner : String) (items : List SurfaceMember) :
    (items.filter fun x => x.group? == some (owner, none)).map arguments? =
      (items.filterMap (constructor? owner)).map some := by
  rw [funext (constructor?_eq owner)]
  refine map_filter_eq fun x hx => ?_
  rcases group?_eq_some.mp (beq_iff_eq.mp hx) with ⟨_, _, -, -, hsame⟩ | ⟨arguments, hkind, -⟩
  · cases (Prod.mk.inj hsame).2
  · simp [arguments?, hkind]

/-- What one member does: it is a feature by itself, belongs to a feature that has had its
turn, or opens one with all later members of its group. -/
theorem ofMembersAfter_step (operations : List (String × String)) (constructors : List String)
    (item : SurfaceMember) (rest : List SurfaceMember) :
    (item.group? = none ∧ ∃ feature, MadeOf [item] feature ∧
      ofMembersAfter operations constructors (item :: rest) =
        feature :: ofMembersAfter operations constructors rest) ∨
    ∃ group, item.group? = some group ∧
      ((Done operations constructors group ∧
        ofMembersAfter operations constructors (item :: rest) =
          ofMembersAfter operations constructors rest) ∨
      (¬ Done operations constructors group ∧ ∃ feature operations' constructors',
        MadeOf (item :: rest.filter fun x => x.group? == some group) feature ∧
        (∀ key, Done operations' constructors' key ↔
          key = group ∨ Done operations constructors key) ∧
        ofMembersAfter operations constructors (item :: rest) =
          feature :: ofMembersAfter operations' constructors' rest)) := by
  rw [ofMembersAfter]
  cases hkind : item.member.kind with
  | constant decl => exact Or.inl ⟨by simp [group?, hkind], _, .constant hkind, rfl⟩
  | «attribute» decl => exact Or.inl ⟨by simp [group?, hkind], _, .attribute hkind, rfl⟩
  | field decl => exact Or.inl ⟨by simp [group?, hkind], _, .field hkind, rfl⟩
  | iterable decl => exact Or.inl ⟨by simp [group?, hkind], _, .iterable hkind, rfl⟩
  | operation decl =>
      obtain ⟨name, signature, special⟩ := decl
      cases name with
      | none => exact Or.inl ⟨by simp [group?, hkind], _, .unnamed hkind rfl, rfl⟩
      | some name =>
          refine Or.inr ⟨(item.owner.name, some name), by simp [group?, hkind], ?_⟩
          dsimp only
          split
          next hdone => exact Or.inl ⟨List.contains_iff_mem.mp hdone, rfl⟩
          next hnew =>
            refine Or.inr ⟨fun hdone => hnew (List.contains_iff_mem.mpr hdone), _, _, _,
              .named hkind rfl ?_, ?_, rfl⟩
            · rw [List.map_cons, List.map_cons, map_signature?, signature?, hkind]
            · rintro ⟨owner, _ | other⟩ <;> simp [Done]
  | constructor arguments =>
      refine Or.inr ⟨(item.owner.name, none), by simp [group?, hkind], ?_⟩
      dsimp only
      split
      next hdone => exact Or.inl ⟨List.contains_iff_mem.mp hdone, rfl⟩
      next hnew =>
        refine Or.inr ⟨fun hdone => hnew (List.contains_iff_mem.mpr hdone), _, _, _,
          .constructors hkind ?_, ?_, rfl⟩
        · rw [List.map_cons, List.map_cons, map_arguments?, arguments?, hkind]
        · rintro ⟨owner, _ | other⟩ <;> simp [Done]

/-- What the position of a member is grouped by; a member that stands alone, by itself. -/
def groupAt (items : List SurfaceMember) (i : Nat) : Nat ⊕ (String × Option String) :=
  match items[i]?.bind group? with
  | some group => .inr group
  | none => .inl i

/-- The positions of a list of members, divided by the features that the members belong to. -/
def covers (items : List SurfaceMember) : List (List Nat) :=
  divide (groupAt items) items.length

/-- The members that belong to one feature with the member at a position. -/
def membersWith (items : List SurfaceMember) (i : Nat) : List SurfaceMember :=
  (alike (groupAt items) items.length i).filterMap fun j => items[j]?

theorem groupAt_eq_inr {items : List SurfaceMember} {i : Nat} {group : String × Option String} :
    groupAt items i = .inr group ↔ items[i]?.any (fun x => x.group? == some group) = true := by
  unfold groupAt
  cases hitem : items[i]? with
  | none => simp
  | some item => cases hgroup : item.group? <;> simp [hgroup]

theorem groupAt_eq_inl {items : List SurfaceMember} {i j : Nat}
    (h : groupAt items i = .inl j) : i = j := by
  unfold groupAt at h
  split at h
  · cases h
  · exact Sum.inl.inj h

section

variable {front rest : List SurfaceMember} {item : SurfaceMember}

/-- A member that stands alone is the only one with it. -/
theorem membersWith_alone (h : item.group? = none) :
    isFirst (groupAt (front ++ item :: rest)) front.length = true ∧
      membersWith (front ++ item :: rest) front.length = [item] := by
  have hat : groupAt (front ++ item :: rest) front.length = .inl front.length := by
    simp [groupAt, h]
  constructor
  · rw [isFirst_iff]
    intro j hj hsame
    rw [hat] at hsame
    exact Nat.ne_of_lt hj (groupAt_eq_inl hsame)
  · have hfilter : alike (groupAt (front ++ item :: rest)) (front ++ item :: rest).length
        front.length = (List.range (front ++ item :: rest).length).filter (· = front.length) := by
      refine List.filter_congr fun j _ => ?_
      rw [hat, decide_eq_decide]
      exact ⟨groupAt_eq_inl, fun hsame => hsame ▸ hat⟩
    have honly : (List.range (front ++ item :: rest).length).filter (· = front.length) =
        [front.length] := by
      rw [List.filter_eq, List.count_eq_one_of_mem List.nodup_range (by simp)]
      rfl
    rw [membersWith, hfilter, honly]
    simp

/-- A member opens a group if no member before it is of the group. -/
theorem isFirst_iff_of_group {group : String × Option String} (h : item.group? = some group) :
    isFirst (groupAt (front ++ item :: rest)) front.length = true ↔
      ¬ ∃ x ∈ front, x.group? = some group := by
  have hat : groupAt (front ++ item :: rest) front.length = .inr group := by
    simp [groupAt, h]
  rw [isFirst_iff, hat]
  constructor
  · rintro hfirst ⟨x, hx, hgroup⟩
    obtain ⟨j, hj, rfl⟩ := List.getElem_of_mem hx
    refine hfirst j hj (groupAt_eq_inr.mpr ?_)
    rw [List.getElem?_append_left hj, List.getElem?_eq_getElem hj]
    simp [hgroup]
  · rintro hnone j hj hsame
    rw [groupAt_eq_inr, List.getElem?_append_left hj, List.getElem?_eq_getElem hj,
      Option.any_some, beq_iff_eq] at hsame
    exact hnone ⟨front[j], List.getElem_mem hj, hsame⟩

/-- With a member that opens a group are the later ones of the group. -/
theorem membersWith_group {group : String × Option String} (h : item.group? = some group)
    (hnew : ¬ ∃ x ∈ front, x.group? = some group) :
    membersWith (front ++ item :: rest) front.length =
      item :: rest.filter fun x => x.group? == some group := by
  have hat : groupAt (front ++ item :: rest) front.length = .inr group := by
    simp [groupAt, h]
  have halike : alike (groupAt (front ++ item :: rest)) (front ++ item :: rest).length
      front.length = (List.range (front ++ item :: rest).length).filter fun j =>
        (front ++ item :: rest)[j]?.any fun x => x.group? == some group := by
    refine List.filter_congr fun j _ => ?_
    rw [hat, Bool.eq_iff_iff, decide_eq_true_iff, groupAt_eq_inr]
  have hfront : (front.filter fun x => x.group? == some group) = [] := by
    rw [List.filter_eq_nil_iff]
    intro x hx hgroup
    exact hnew ⟨x, hx, beq_iff_eq.mp hgroup⟩
  rw [membersWith, halike, filterMap_filter_range, List.filter_append, hfront, List.nil_append,
    List.filter_cons_of_pos (by simp [h])]

end

/-- The features of the rest of a list are made of the members with each first position. -/
theorem forall₂_ofMembersAfter {items front rest : List SurfaceMember}
    {operations : List (String × String)} {constructors : List String}
    (hitems : items = front ++ rest)
    (hdone : ∀ key, Done operations constructors key ↔ ∃ x ∈ front, x.group? = some key) :
    List.Forall₂ (fun i feature => MadeOf (membersWith items i) feature)
      ((List.range' front.length rest.length).filter (isFirst (groupAt items)))
      (ofMembersAfter operations constructors rest) := by
  induction rest generalizing front operations constructors with
  | nil => exact List.Forall₂.nil
  | cons item rest ih =>
      have hnext : items = (front ++ [item]) ++ rest := by simp [hitems]
      have hlength : (front ++ [item]).length = front.length + 1 := by simp
      have hdone' : ∀ key, (∃ x ∈ front ++ [item], x.group? = some key) ↔
          item.group? = some key ∨ Done operations constructors key := by
        intro key
        rw [hdone key]
        simp [or_and_right, exists_or, or_comm]
      rw [List.length_cons, List.range'_succ]
      rcases ofMembersAfter_step operations constructors item rest with
        ⟨halone, feature, hmade, hstep⟩ | ⟨group, hgroup, ⟨hturn, hstep⟩ |
          ⟨hturn, feature, operations', constructors', hmade, hafter, hstep⟩⟩
      · have hfirst : isFirst (groupAt items) front.length = true :=
          hitems ▸ (membersWith_alone halone).1
        have hmembers : membersWith items front.length = [item] :=
          hitems ▸ (membersWith_alone halone).2
        rw [hstep, List.filter_cons_of_pos hfirst]
        refine List.Forall₂.cons (by rwa [hmembers]) ?_
        rw [← hlength]
        exact ih hnext fun key => by rw [hdone', halone]; simp
      · have hfirst : ¬ isFirst (groupAt items) front.length = true := by
          rw [hitems, isFirst_iff_of_group hgroup, not_not]
          exact (hdone group).mp hturn
        rw [hstep, List.filter_cons_of_neg hfirst, ← hlength]
        refine ih hnext fun key => ?_
        rw [hdone', hgroup, Option.some.injEq]
        exact ⟨Or.inr, fun h => h.elim (fun hsame => hsame ▸ hturn) id⟩
      · have hnew : ¬ ∃ x ∈ front, x.group? = some group := fun h => hturn ((hdone group).mpr h)
        have hfirst : isFirst (groupAt items) front.length = true := by
          rw [hitems, isFirst_iff_of_group hgroup]
          exact hnew
        rw [hstep, List.filter_cons_of_pos hfirst]
        refine List.Forall₂.cons ?_ ?_
        · rw [hitems, membersWith_group hgroup hnew]
          exact hmade
        · rw [← hlength]
          refine ih hnext fun key => ?_
          rw [hdone', hgroup, hafter, Option.some.injEq, eq_comm]

/-- How features go through a list of members, where each of them covers some positions. -/
structure GoThrough (items : List SurfaceMember) (covers : List (List Nat))
    (features : List Feature) : Prop where
  /-- Every position is covered once. -/
  once : covers.flatten.Perm (List.range items.length)
  /-- The positions that a feature covers are in order, -/
  ordered : ∀ cover ∈ covers, cover.Pairwise (· < ·)
  /-- and features are in the order of the first positions that they cover. -/
  inOrder : covers.Pairwise fun a b => ∃ i ∈ a.head?, ∃ j ∈ b.head?, i < j
  /-- With a position those are covered whose members belong together with its member. -/
  together : ∀ cover ∈ covers, ∀ i ∈ cover, ∀ j, j ∈ cover ↔
    ∃ a b, items[i]? = some a ∧ items[j]? = some b ∧ (i = j ∨ a.Together b)
  /-- A feature is made of the members at the positions that it covers. -/
  made : List.Forall₂ (fun cover feature => MadeOf (cover.filterMap fun i => items[i]?) feature)
    covers features

/-- Positions are alike if they are the same or their members belong together. -/
theorem groupAt_eq_iff {items : List SurfaceMember} (h : OwnersByName items) {i j : Nat}
    {a b : SurfaceMember} (ha : items[i]? = some a) (hb : items[j]? = some b) :
    groupAt items j = groupAt items i ↔ i = j ∨ a.Together b := by
  have howner := h a (List.mem_of_getElem? ha) b (List.mem_of_getElem? hb)
  rw [together_iff howner]
  by_cases hij : i = j
  · subst hij
    simp
  · simp only [groupAt, ha, hb, Option.bind_some, hij, false_or]
    cases hx : a.group? <;> cases hy : b.group? <;> simp [Ne.symm hij]

theorem goThrough_ofMembers {items : List SurfaceMember} (h : OwnersByName items) :
    GoThrough items (covers items) (ofMembers items) where
  once := flatten_divide _ _
  ordered := by
    intro cover hcover
    obtain ⟨i, -, rfl⟩ := List.mem_map.mp hcover
    exact pairwise_alike i
  inOrder := by
    rw [covers, divide, List.pairwise_map]
    refine (pairwise_firsts _ _).imp_of_mem fun {i j} hi hj hlt => ?_
    obtain ⟨hi, hfirst⟩ := List.mem_filter.mp hi
    obtain ⟨hj, hfirst'⟩ := List.mem_filter.mp hj
    exact ⟨i, head_alike (List.mem_range.mp hi) hfirst, j,
      head_alike (List.mem_range.mp hj) hfirst', hlt.1⟩
  together := by
    intro cover hcover i hi j
    obtain ⟨first, -, rfl⟩ := List.mem_map.mp hcover
    obtain ⟨hi, hsame⟩ := mem_alike.mp hi
    rw [mem_alike, ← hsame]
    constructor
    · rintro ⟨hj, hkey⟩
      exact ⟨_, _, List.getElem?_eq_getElem hi, List.getElem?_eq_getElem hj,
        (groupAt_eq_iff h (List.getElem?_eq_getElem hi) (List.getElem?_eq_getElem hj)).mp hkey⟩
    · rintro ⟨a, b, ha, hb, hboth⟩
      exact ⟨(List.getElem?_eq_some_iff.mp hb).1, (groupAt_eq_iff h ha hb).mpr hboth⟩
  made := by
    have hnone : ∀ key, Done [] [] key ↔ ∃ x ∈ ([] : List SurfaceMember), x.group? = some key := by
      rintro ⟨owner, _ | name⟩ <;> simp [Done]
    have hmade := forall₂_ofMembersAfter (List.nil_append items).symm hnone
    rw [List.length_nil, ← List.range_eq_range'] at hmade
    exact List.forall₂_map_left_iff.mpr hmade

/-- On a surface owners are known by their names. -/
theorem ownersByName_surface (c : Catalog) (d : Definition) : OwnersByName (c.surface d) := by
  have howner : ∀ item ∈ c.surface d, item.owner ∈ c.owners d := by
    intro item hitem
    rw [Catalog.surface_eq] at hitem
    obtain ⟨o, ho, hitem⟩ := List.mem_flatMap.mp hitem
    obtain ⟨member, -, rfl⟩ := List.mem_map.mp hitem
    exact ho
  intro a ha b hb hname
  exact List.inj_on_of_nodup_map (c.nodup_owners d) (howner a ha) (howner b hb) hname

/-- All members of a definition have one owner. -/
theorem ownersByName_ownMembers (d : Definition) : OwnersByName d.ownMembers := by
  intro a ha b hb _
  obtain ⟨x, -, rfl⟩ := List.mem_map.mp ha
  obtain ⟨y, -, rfl⟩ := List.mem_map.mp hb
  rfl

/-- **Every member is visited once, with all that it belongs together with.**  In a list of
members whose owners are known by their names, as surfaces and the members of a definition
are, every member belongs to exactly one feature.  Declarations of one named operation of an
owner make one feature, and so do the constructors of an owner; every other member makes one
by itself.  A feature stands where the first of its members stands, and it has the signatures
or the arguments of all of them in the order of the list. -/
theorem members_are_visited_once :
    (∀ (c : Catalog) (d : Definition), OwnersByName (c.surface d)) ∧
    (∀ d : Definition, OwnersByName d.ownMembers) ∧
    ∀ items, OwnersByName items → GoThrough items (covers items) (ofMembers items) :=
  ⟨ownersByName_surface, ownersByName_ownMembers, fun _ => goThrough_ofMembers⟩

/-- An operation without special role, with a number of arguments. -/
def drawing (count : Nat) : Member where
  kind := .operation {
    name := some "draw"
    signature := {
      result := .named "undefined" false {}
      arguments := List.replicate count { name := "x", type := .named "long" false {} } } }

/-- An interface whose overloads and constructors are mixed with other members. -/
def canvas : Definition where
  name := "Canvas"
  kind := .interface
  members :=
    [{ kind := .constructor [] },
     drawing 1,
     { kind := .constant { name := "MAX", type := .named "long" false {}, value := .number "9" } },
     { kind := .constructor [{ name := "x", type := .named "long" false {} }] },
     { kind := .operation {
        name := none, special := .getter,
        signature := { result := .named "long" false {}, arguments := [] } } },
     drawing 2]

/-- The interface includes a mixin with an operation of the same name. -/
def canvasCatalog : Catalog where
  definitions := [canvas, { name := "Path", kind := .mixin, members := [drawing 3] }]
  typedefs := []
  includes := [("Canvas", ["Path"]), ("Path", [])]

/-- Overloads and constructors that are mixed with other members are grouped where the first
one stands, and those of a mixin stay apart. -/
theorem canvas_members_are_grouped :
    covers (canvasCatalog.surface canvas) = [[0, 3], [1, 5], [2], [4], [6]] ∧
    ((ofMembers (canvasCatalog.surface canvas)).filterMap fun
      | .operation group => some (group.owner.name, group.overloads.map (·.arguments.length))
      | _ => none) = [("Canvas", [1, 2]), ("Canvas", [0]), ("Path", [3])] ∧
    OwnersByName (canvasCatalog.surface canvas) ∧
    GoThrough (canvasCatalog.surface canvas) [[0, 3], [1, 5], [2], [4], [6]]
      (ofMembers (canvasCatalog.surface canvas)) := by
  obtain ⟨hsurface, -, hall⟩ := members_are_visited_once
  have hcovers : covers (canvasCatalog.surface canvas) = [[0, 3], [1, 5], [2], [4], [6]] := by
    decide +kernel
  refine ⟨hcovers, by decide +kernel, hsurface canvasCatalog canvas, ?_⟩
  rw [← hcovers]
  exact hall _ (hsurface canvasCatalog canvas)

end Feature

end WebIdl
