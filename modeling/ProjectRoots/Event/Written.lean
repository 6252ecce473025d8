import ProjectRoots.Event.Basic
import ProjectRoots.Json.Record

/- Events as JSON. An event is an object with a tag and the fields that go with the tag, or an
   array of these. The reader holds the whole object before it knows the tag, so what it holds is
   bounded: arrays and objects nest at most 127 deep, and every text and number in it has to be
   one. -/
namespace ProjectRoots.Event

open Json

/-- The name of the member that holds the tag. -/
def tagName : String :=
  "type"

/-- The deepest nesting that is read. -/
def deepest : Nat :=
  127

/-- The event as a value. -/
def toValue : Event → Value
  | create parent name isDirectory => .ofMembers [
      (tagName, .ofString "create"), ("parent", .ofString parent), ("name", .ofString name),
      ("is_directory", .bool isDirectory)]
  | delete path => .ofMembers [(tagName, .ofString "delete"), ("path", .ofString path)]
  | move old new => .ofMembers [
      (tagName, .ofString "move"), ("old", .ofString old), ("new", .ofString new)]
  | rename old new isDirectory => .ofMembers [
      (tagName, .ofString "rename"), ("old", .ofString old), ("new", .ofString new),
      ("is_directory", .bool isDirectory)]
  | copy source target => .ofMembers [
      (tagName, .ofString "copy"), ("source", .ofString source), ("target", .ofString target)]

/-- The names of the fields that go with a tag. -/
def fieldNames (tag : String) : List String :=
  match tag with
  | "create" => ["parent", "name", "is_directory"]
  | "delete" => ["path"]
  | "move" => ["old", "new"]
  | "rename" => ["old", "new", "is_directory"]
  | "copy" => ["source", "target"]
  | _ => []

/-- The event with a tag and the values of its fields. -/
def ofFields? (tag : String) (fields : List (Option Value)) : Option Event :=
  match tag, fields with
  | "create", [parent, name, isDirectory] => do
    let parent ← Value.required Value.string? parent
    let name ← Value.required Value.string? name
    let isDirectory ← Value.required Value.bool? isDirectory
    return create parent name isDirectory
  | "delete", [path] => do
    let path ← Value.required Value.string? path
    return delete path
  | "move", [old, new] => do
    let old ← Value.required Value.string? old
    let new ← Value.required Value.string? new
    return move old new
  | "rename", [old, new, isDirectory] => do
    let old ← Value.required Value.string? old
    let new ← Value.required Value.string? new
    let isDirectory ← Value.required Value.bool? isDirectory
    return rename old new isDirectory
  | "copy", [source, target] => do
    let source ← Value.required Value.string? source
    let target ← Value.required Value.string? target
    return copy source target
  | _, _ => none

/-- The event that a value is. -/
def ofValue? : Value → Option Event
  | .object members => do
    let members ← Value.named members
    let tag ← Value.required Value.string? (← Value.member? members tagName)
    let fields ← Value.fieldsOfMembers (fieldNames tag) members
    ofFields? tag fields
  | .array (tag :: items) => do
    let tag ← tag.string?
    let fields ← Value.fieldsOfItems (fieldNames tag) items
    ofFields? tag fields
  | _ => none

/-- The event as a text. -/
def text (event : Event) : String :=
  event.toValue.text

/-- The event that a text is. -/
def ofText? (text : String) : Option Event := do
  let tokens ← lex text.toList
  if tokens.all Token.isHeld && nestsWithin deepest 0 tokens then
    let value ← Value.ofTokens? tokens
    ofValue? value
  else none

end ProjectRoots.Event
