/- The settings of a watcher. Settings are usable when events can be queued at all and every archive
   suffix says something. -/
namespace ProjectRoots

/-- How a watcher judges names and queues batches. -/
structure Settings where
  /-- A file whose name ends so, and is longer, is an archive. -/
  archiveSuffixes : List String := [".jar", ".zip"]
  /-- Files with these extensions carry the name of an entity. -/
  descriptorExtensions : List String := ["iml"]
  /-- Judge no further event of a batch once its impact is generic. -/
  shortCircuit : Bool := true
  /-- How many batches may wait. -/
  channelCapacity : UInt64 := 1000
deriving DecidableEq

/-- Why settings are unusable. -/
inductive SettingsFault
  | zeroCapacity
  | emptySuffix
deriving DecidableEq

/-- The wording of a settings fault. -/
def SettingsFault.message : SettingsFault → String
  | zeroCapacity => "configuration error: channel_capacity must be greater than zero"
  | emptySuffix => "configuration error: empty archive suffix: \"\""

namespace Settings

/-- What makes the settings unusable; the capacity is looked at first. -/
def fault? (settings : Settings) : Option SettingsFault :=
  if settings.channelCapacity = 0 then some .zeroCapacity
  else if "" ∈ settings.archiveSuffixes then some .emptySuffix
  else none

/-- The settings, if they are usable. -/
def validate (settings : Settings) : Except SettingsFault Settings :=
  match settings.fault? with
  | some fault => .error fault
  | none => .ok settings

/-- Add an archive suffix. -/
def addArchiveSuffix (settings : Settings) (suffix : String) : Settings :=
  { settings with archiveSuffixes := settings.archiveSuffixes ++ [suffix] }

/-- Add a descriptor extension. -/
def addDescriptorExtension (settings : Settings) (extension : String) : Settings :=
  { settings with descriptorExtensions := settings.descriptorExtensions ++ [extension] }

/-- Whether `name` ends with `suffix`, up to the case of ASCII letters, and is longer. -/
def hasSuffix (name : List Char) (suffix : String) : Bool :=
  suffix.length < name.length &&
    (suffix.toList.map Char.toLower).isSuffixOf (name.map Char.toLower)

/-- Whether a file with this name is an archive. -/
def isArchiveName (settings : Settings) (name : List Char) : Bool :=
  settings.archiveSuffixes.any (hasSuffix name)

end Settings

end ProjectRoots
