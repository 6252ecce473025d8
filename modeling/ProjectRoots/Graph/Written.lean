import ProjectRoots.Graph.Entity
import ProjectRoots.Json.Record

/- Roots and entities as JSON. Both are records; only the mount flag of a root may be missing. -/
namespace ProjectRoots

open Json

namespace Entity.Kind

/-- The word for a kind of entity. -/
def text : Entity.Kind → String
  | module => "module"
  | library => "library"
  | sdk => "sdk"
  | facet => "facet"

/-- The kind that a word stands for. -/
def ofText? (word : String) : Option Entity.Kind :=
  [module, library, sdk, facet].find? (·.text == word)

/-- The kind that a value names. -/
def ofValue? (value : Value) : Option Entity.Kind :=
  value.choice?.bind ofText?

theorem ofText?_text (kind : Entity.Kind) : ofText? kind.text = some kind := by
  cases kind <;> decide

end Entity.Kind

namespace Root

/-- The names of the fields, in the order in which they are written. -/
def fieldNames : List String :=
  ["property", "url", "archive_mount"]

/-- The root as a value. -/
def toValue (root : Root) : Value :=
  .ofMembers [
    ("property", .ofString root.property), ("url", .ofString root.url),
    ("archive_mount", .bool root.archiveMount)]

/-- The root that a value is. -/
def ofValue? (value : Value) : Option Root :=
  match value.fields fieldNames with
  | some [property, url, archiveMount] => do
    let property ← Value.required Value.string? property
    let url ← Value.required Value.string? url
    let archiveMount ← Value.optional false Value.bool? archiveMount
    return ⟨property, url, archiveMount⟩
  | _ => none

/-- The root as a text. -/
def text (root : Root) : String :=
  root.toValue.text

/-- The root that a text is. -/
def ofText? (text : String) : Option Root :=
  (Value.ofText? text).bind ofValue?

end Root

namespace Entity

/-- The names of the fields, in the order in which they are written. -/
def fieldNames : List String :=
  ["id", "kind", "name", "roots"]

/-- The entity as a value. -/
def toValue (entity : Entity) : Value :=
  .ofMembers [
    ("id", .ofString entity.id), ("kind", .ofString entity.kind.text),
    ("name", .ofString entity.name), ("roots", .array (entity.roots.map Root.toValue))]

/-- The entity that a value is. -/
def ofValue? (value : Value) : Option Entity :=
  match value.fields fieldNames with
  | some [id, kind, name, roots] => do
    let id ← Value.required Value.string? id
    let kind ← Value.required Entity.Kind.ofValue? kind
    let name ← Value.required Value.string? name
    let roots ← Value.required (Value.list? Root.ofValue?) roots
    return ⟨id, kind, name, roots⟩
  | _ => none

/-- The entity as a text. -/
def text (entity : Entity) : String :=
  entity.toValue.text

/-- The entity that a text is. -/
def ofText? (text : String) : Option Entity :=
  (Value.ofText? text).bind ofValue?

end Entity

end ProjectRoots
