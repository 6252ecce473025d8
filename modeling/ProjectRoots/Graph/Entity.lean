/- What a project is made of: entities, each with the roots that its properties refer to.

   Correspondence (term ↔ Lean):
     reference of an entity to a path ↔ `Root`
     pair of an entity and a property ↔ `Reference` -/
namespace ProjectRoots

/-- The kinds of entities. -/
inductive Entity.Kind
  | module
  | library
  | sdk
  | facet
deriving DecidableEq

/-- A path that an entity refers to through one of its properties. The path is kept as written
and may denote nothing. -/
structure Root where
  property : String
  url : String
  /-- The root is a directory of archives, whose contents are not listed one by one. -/
  archiveMount : Bool := false
deriving DecidableEq

/-- A part of a project. -/
structure Entity where
  id : String
  kind : Entity.Kind
  name : String
  roots : List Root
deriving DecidableEq

/-- A property of an entity. -/
structure Reference where
  entity : String
  property : String
deriving DecidableEq

namespace Reference

/-- References are ordered by entity and then by property. -/
def precedes (a b : Reference) : Bool :=
  decide (a.entity < b.entity) || a.entity == b.entity && decide (a.property < b.property)

theorem precedes_irrefl (a : Reference) : a.precedes a = false := by
  have hentity := decide_eq_false (String.lt_irrefl a.entity)
  have hproperty := decide_eq_false (String.lt_irrefl a.property)
  simp only [precedes, hentity, hproperty, Bool.and_false, Bool.or_false]

end Reference

/-- The roots of an entity, each with the reference that it is for. -/
def Entity.references (entity : Entity) : List (Reference × Root) :=
  entity.roots.map fun root => (⟨entity.id, root.property⟩, root)

end ProjectRoots
