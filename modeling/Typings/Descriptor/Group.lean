import Typings.Descriptor.Basic
import Typings.OrderedSet

/-!
# Namespaces of a list of descriptors

Declarations are written namespace by namespace, each namespace where it first occurs.
Inside a namespace the order of the list stays.

## Main definitions

* `Descriptor.scopes` — the namespaces, in the order of their first occurrence.
* `Descriptor.groups` — each namespace with its descriptors.
* `Descriptor.renderOrder` — the descriptors in the order in which they are declared.
-/

namespace Typings.Descriptor

/-- The namespaces of some descriptors, in the order of their first occurrence. -/
def scopes (types : List Descriptor) : List String := distinctBy id (types.map scope)

/-- The descriptors of one namespace. -/
def ofScope (types : List Descriptor) (scope : String) : List Descriptor :=
  types.filter (·.scope = scope)

/-- Each namespace with its descriptors. -/
def groups (types : List Descriptor) : List (String × List Descriptor) :=
  (scopes types).map fun scope => (scope, ofScope types scope)

/-- The descriptors in the order in which they are declared. -/
def renderOrder (types : List Descriptor) : List Descriptor :=
  (groups types).flatMap (·.2)

end Typings.Descriptor
