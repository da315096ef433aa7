import Typings.Proofs.Body.Renderer
import Typings.Proofs.Descriptor.Grouping

/-!
# The names that a body refers to

The pass over some descriptors takes down names while it writes, and it goes through arrays in
two ways. What it takes down does not depend on the way. All types of members are trees: an array
contains the type of its items, an inline type contains the types of its members. Walk through the
trees from the outside in, in the order in which the declarations are written, and let each node
speak for itself: it refers to its name if it has one and is no dictionary. These are the names
that the body refers to.

What stands above a node makes no difference to it. An array with a name does not keep its items
from being counted, and a dictionary in an array only silences the arrays around it.

## Main definitions

* `ValueType.nodes` — the nodes of a type from the outside in.
* `ValueType.Inside` — where a node can stand.
* `ValueType.ownReference?` — the name that a node refers to by itself.
* `Body.nodes` — the nodes of all types of members in a body.

## Main results

* `ValueType.mem_nodes` — a type is walked through completely.
* `Body.referenced_render` — the names that a body refers to, in order.
* `Body.mem_referenced_render` — which names these are.
-/

namespace Typings

/-! ## The nodes of a type -/

mutual

/-- The nodes of a type, each in front of what is inside of it. -/
def ValueType.nodes : ValueType → List ValueType
  | ⟨kind, referenceName⟩ => ⟨kind, referenceName⟩ :: kind.innerNodes

/-- The nodes inside a kind: those of the items of an array, and those of the members of an
inline type. -/
def ValueKind.innerNodes : ValueKind → List ValueType
  | .array item => item.nodes
  | .shape members => membersNodes members
  | .known _ | .dictionary _ | .unknown => []

/-- The nodes of the type of a member. -/
def Member.nodes : Member → List ValueType
  | ⟨_, _, _, _, type⟩ => type.nodes

/-- The nodes of the types of some members. -/
def membersNodes : List Member → List ValueType
  | [] => []
  | m :: rest => m.nodes ++ membersNodes rest

end

/-- The name that a node refers to by itself. Dictionaries, and arrays of them, refer to
nothing. -/
def ValueType.ownReference? (node : ValueType) : Option String :=
  if node.isDictionary then none else node.referenceName

/-- A node stands inside a type: it is the type, or it stands inside of the items of an array or
inside of a member of an inline type. -/
inductive ValueType.Inside (node : ValueType) : ValueType → Prop where
  | self : Inside node node
  | item {item : ValueType} {referenceName : Option String} (h : Inside node item) :
      Inside node ⟨.array item, referenceName⟩
  | member {members : List Member} {m : Member} {referenceName : Option String} (hm : m ∈ members)
      (h : Inside node m.type) : Inside node ⟨.shape members, referenceName⟩

theorem mem_membersNodes {node : ValueType} {members : List Member} :
    node ∈ membersNodes members ↔ ∃ m ∈ members, node ∈ m.type.nodes := by
  induction members with
  | nil => simp [membersNodes]
  | cons m rest ih =>
      have hnodes : m.nodes = m.type.nodes := by
        obtain ⟨_, _, _, _, type⟩ := m
        rw [Member.nodes]
      rw [membersNodes, List.mem_append, ih, hnodes, List.exists_mem_cons_iff]

namespace ValueType

mutual

theorem inside_of_mem_nodes {node : ValueType} :
    (type : ValueType) → node ∈ type.nodes → Inside node type
  | ⟨kind, referenceName⟩, h => by
      rw [nodes, List.mem_cons] at h
      rcases h with rfl | h
      · exact .self
      · exact inside_of_mem_innerNodes kind h referenceName

theorem inside_of_mem_innerNodes {node : ValueType} :
    (kind : ValueKind) → node ∈ kind.innerNodes → ∀ referenceName, Inside node ⟨kind, referenceName⟩
  | .array item, h => fun _ => .item (inside_of_mem_nodes item (by rwa [ValueKind.innerNodes] at h))
  | .shape members, h => by
      rw [ValueKind.innerNodes] at h
      obtain ⟨m, hm, hinside⟩ := inside_of_mem_membersNodes members h
      exact fun _ => .member hm hinside
  | .known _, h | .dictionary _, h | .unknown, h => by simp [ValueKind.innerNodes] at h

theorem inside_of_mem_membersNodes {node : ValueType} :
    (members : List Member) → node ∈ membersNodes members → ∃ m ∈ members, Inside node m.type
  | [], h => by simp [membersNodes] at h
  | ⟨_, _, _, _, type⟩ :: rest, h => by
      rw [membersNodes, List.mem_append, Member.nodes] at h
      rcases h with h | h
      · exact ⟨_, List.mem_cons_self, inside_of_mem_nodes type h⟩
      · obtain ⟨m, hm, hinside⟩ := inside_of_mem_membersNodes rest h
        exact ⟨m, List.mem_cons_of_mem _ hm, hinside⟩

end

theorem Inside.mem_nodes {node type : ValueType} (h : Inside node type) : node ∈ type.nodes := by
  induction h with
  | self =>
      obtain ⟨kind, referenceName⟩ := node
      rw [nodes]
      exact List.mem_cons_self
  | item _ ih =>
      rw [nodes, ValueKind.innerNodes]
      exact List.mem_cons_of_mem _ ih
  | member hm _ ih =>
      rw [nodes, ValueKind.innerNodes]
      exact List.mem_cons_of_mem _ (mem_membersNodes.mpr ⟨_, hm, ih⟩)

/-- **A type is walked through completely.** -/
theorem mem_nodes {node type : ValueType} : node ∈ type.nodes ↔ Inside node type :=
  ⟨inside_of_mem_nodes type, Inside.mem_nodes⟩

end ValueType

/-! ## The names that the nodes refer to -/

mutual

theorem ValueType.referenceNames_eq :
    (type : ValueType) → type.referenceNames = type.nodes.filterMap ValueType.ownReference?
  | ⟨kind, referenceName⟩ => by
      have hown : ValueType.ownReference? ⟨kind, referenceName⟩
          = if kind.isDictionary then none else referenceName := by
        rw [ValueType.ownReference?, ValueType.isDictionary]
      rw [ValueType.referenceNames, ValueType.nodes, List.filterMap_cons, hown,
        ValueKind.referenceNames_eq kind]
      cases kind.isDictionary <;> cases referenceName <;> rfl

theorem ValueKind.referenceNames_eq :
    (kind : ValueKind) → kind.referenceNames = kind.innerNodes.filterMap ValueType.ownReference?
  | .array item => by
      rw [ValueKind.referenceNames, ValueKind.innerNodes, ValueType.referenceNames_eq item]
  | .shape members => by
      rw [ValueKind.referenceNames, ValueKind.innerNodes, membersReferenceNames_eq members]
  | .known _ | .dictionary _ | .unknown => by
      simp [ValueKind.referenceNames, ValueKind.innerNodes]

/-- The members of a type refer to what the nodes inside of them refer to by themselves. -/
theorem membersReferenceNames_eq :
    (members : List Member) →
      membersReferenceNames members = (membersNodes members).filterMap ValueType.ownReference?
  | [] => by simp [membersReferenceNames, membersNodes]
  | ⟨_, _, _, _, type⟩ :: rest => by
      rw [membersReferenceNames, membersNodes, Member.referenceNames, Member.nodes,
        List.filterMap_append, ValueType.referenceNames_eq type, membersReferenceNames_eq rest]

end

/-! ## The names that a body refers to -/

namespace Body

/-- The nodes of all types of members in a body, in the order in which they are written. The
members of an enumeration have no types to write. -/
def nodes (types : List Descriptor) : List ValueType :=
  ((Descriptor.renderOrder types).filter (!·.isEnum)).flatMap fun d => membersNodes d.members

theorem flatMap_referenceNames (types : List Descriptor) :
    types.flatMap Descriptor.referenceNames
      = ((types.filter (!·.isEnum)).flatMap fun d => membersNodes d.members).filterMap
        ValueType.ownReference? := by
  induction types with
  | nil => rfl
  | cons d rest ih =>
      rw [List.flatMap_cons, ih, Descriptor.referenceNames]
      cases h : d.isEnum with
      | true => rw [if_pos rfl, List.filter_cons_of_neg (by simp [h]), List.nil_append]
      | false =>
          rw [if_neg Bool.false_ne_true, List.filter_cons_of_pos (by simp [h]), List.flatMap_cons,
            List.filterMap_append, membersReferenceNames_eq]

/-- **The names that a body refers to.** The pass over the descriptors takes down the names of all
nodes that refer to something by themselves, as they are spelled, in the order in which the nodes
are written, and each name once. -/
theorem referenced_render (o : Options) (types : List Descriptor) :
    Renderer.body o types = render o types ∧
      (render o types).names.referenced.toList
        = distinctBy id (((nodes types).filterMap ValueType.ownReference?).map o.typeName) ∧
      (render o types).names.referenced.toList.Nodup := by
  refine ⟨Renderer.body_eq_render o types, ?_, (render o types).names.referenced.nodup⟩
  show (OrderedSet.ofList _).toList = _
  rw [flatMap_referenceNames]
  rfl

/-- A name is referred to exactly if some node inside the type of a member, which is not one of an
enumeration, has a name that is spelled like this and is no dictionary. -/
theorem mem_referenced_render {o : Options} {types : List Descriptor} {name : String} :
    name ∈ (render o types).names.referenced ↔
      ∃ d ∈ types, d.isEnum = false ∧ ∃ m ∈ d.members, ∃ node : ValueType, node.Inside m.type ∧
        node.isDictionary = false ∧ ∃ given, node.referenceName = some given ∧
          o.typeName given = name := by
  have hnodes (node : ValueType) : node ∈ nodes types ↔
      ∃ d ∈ types, d.isEnum = false ∧ ∃ m ∈ d.members, node.Inside m.type := by
    simp only [nodes, List.mem_flatMap, List.mem_filter, Descriptor.mem_renderOrder,
      mem_membersNodes, ValueType.mem_nodes, Bool.not_eq_true', and_assoc]
  have hown (node : ValueType) (given : String) : node.ownReference? = some given ↔
      node.isDictionary = false ∧ node.referenceName = some given := by
    rw [ValueType.ownReference?]
    cases node.isDictionary <;> simp
  show name ∈ OrderedSet.ofList (((Descriptor.renderOrder types).flatMap _).map o.typeName) ↔ _
  rw [flatMap_referenceNames, OrderedSet.mem_ofList, List.mem_map]
  constructor
  · rintro ⟨given, hgiven, hname⟩
    obtain ⟨node, hnode, hreference⟩ := List.mem_filterMap.mp hgiven
    obtain ⟨d, hd, henum, m, hm, hinside⟩ := (hnodes node).mp hnode
    obtain ⟨hdictionary, hgivenName⟩ := (hown node given).mp hreference
    exact ⟨d, hd, henum, m, hm, node, hinside, hdictionary, given, hgivenName, hname⟩
  · rintro ⟨d, hd, henum, m, hm, node, hinside, hdictionary, given, hgivenName, hname⟩
    have hnode : node ∈ nodes types := (hnodes node).mpr ⟨d, hd, henum, m, hm, hinside⟩
    exact ⟨given, List.mem_filterMap.mpr ⟨node, hnode, (hown node given).mpr
      ⟨hdictionary, hgivenName⟩⟩, hname⟩

end Body

end Typings
