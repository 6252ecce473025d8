import ProjectRoots.Disk.Tree
import ProjectRoots.Json.Record
import ProjectRoots.Settings.Basic

/- Settings as JSON. A settings text is a record whose fields may all be missing; a settings file is
   a file with such a text, and only usable settings are accepted. -/
namespace ProjectRoots

/-- Why no settings can be taken from a text or a file. -/
inductive LoadFault
  /-- There is no file to read, or it holds no text. -/
  | unreadable
  /-- The text is no settings record. -/
  | malformed
  | unusable (fault : SettingsFault)
deriving DecidableEq

namespace Settings

open Json

/-- The names of the fields, in the order in which they are written. -/
def fieldNames : List String :=
  ["archive_suffixes", "descriptor_extensions", "short_circuit_on_generic", "channel_capacity"]

/-- A number of batches; it has to fit into 64 bits. -/
def capacity? (value : Value) : Option UInt64 :=
  value.nat?.bind fun n => if n < UInt64.size then some (UInt64.ofNat n) else none

/-- The settings as a value. -/
def toValue (settings : Settings) : Value :=
  .ofMembers [
    ("archive_suffixes", .array (settings.archiveSuffixes.map .ofString)),
    ("descriptor_extensions", .array (settings.descriptorExtensions.map .ofString)),
    ("short_circuit_on_generic", .bool settings.shortCircuit),
    ("channel_capacity", .number (.ofNat settings.channelCapacity.toNat))]

/-- The settings that a value is; a missing field keeps what it is without a file. -/
def ofValue? (value : Value) : Option Settings :=
  match value.fields fieldNames with
  | some [suffixes, extensions, shortCircuit, capacity] => do
    let plain : Settings := {}
    let suffixes ← Value.optional plain.archiveSuffixes (Value.list? Value.string?) suffixes
    let extensions ←
      Value.optional plain.descriptorExtensions (Value.list? Value.string?) extensions
    let shortCircuit ← Value.optional plain.shortCircuit Value.bool? shortCircuit
    let capacity ← Value.optional plain.channelCapacity capacity? capacity
    return ⟨suffixes, extensions, shortCircuit, capacity⟩
  | _ => none

/-- The settings as a text. -/
def text (settings : Settings) : String :=
  settings.toValue.text

/-- The settings that a text is, usable or not. -/
def ofText? (text : String) : Option Settings :=
  (Value.ofText? text).bind ofValue?

/-- The usable settings that a text is. -/
def read (text : String) : Except LoadFault Settings :=
  match ofText? text with
  | none => .error .malformed
  | some settings =>
    match settings.fault? with
    | some fault => .error (.unusable fault)
    | none => .ok settings

/-- The usable settings in a file. -/
def load (disk : Disk) (path : Disk.Bytes) : Except LoadFault Settings :=
  match (disk.content? path).bind Utf8.decode? with
  | none => .error .unreadable
  | some text => read (String.ofList text)

end Settings

end ProjectRoots
