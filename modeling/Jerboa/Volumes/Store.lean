import Jerboa.Boot.Config
import Jerboa.Lib.Run

/-!
# Volumes

The store of package `volume` and what `handleRun` of the API server does with the
volumes of a request: it looks them up by name, formats those that have no filesystem,
and passes their labels to the guest, which finds a volume by its label.  Paths are
relative to the root of the store, and names are told apart by their exact text, as on a
host whose filesystem tells cases apart; on one that does not, `Data` and `data` are one
volume.  What the system calls answer is a parameter.
-/

namespace Jerboa.Volumes

open Boot Lib Naming Net.Address

def maxLabelLen : Nat := 31

/-- `SanitizeLabel`.  Its argument is a resource name, in which a character is a byte. -/
def sanitizeLabel (name : Text) : Text :=
  if maxLabelLen < byteLen name then name.take maxLabelLen else name

/-- `Volume`, with the label that the filesystem on its disk has, if there is one. -/
structure Volume where
  id : Text
  label : Text
  disk : Option Text
  deriving DecidableEq

/-- The `DiskPath` of a volume. -/
def diskPath (name : Text) : Text := name ++ "/disk.img".toList

inductive Err where
  | name (err : NameErr)
  | labelName (err : NameErr)
  | sizeOrLabel
  | alreadyExists (name : Text)
  | notFound (name : Text)
  | system
  | byName
  | readOnlyEmpty (guestPath : Text)
  | inUse (diskPath : Text)
  | emptyLabel (diskPath : Text)
  | format (diskPath : Text)
  | config (err : ConfigErr)
  | other
  deriving DecidableEq

abbrev Store := List Volume

namespace Store

def find (s : Store) (name : Text) : Option Volume := List.find? (·.id = name) s

/-- `Create`; `made` tells whether the directory, the disk and the metadata could be written. -/
def create (s : Store) (name : Text) (made : Bool) : Except Err Store := do
  (validateResourceName name).mapError .name
  throwIf (s.find name ≠ none) (.alreadyExists name)
  throwIf (made = false) .system
  return s ++ [⟨name, sanitizeLabel name, none⟩]

/-- `Import` of a disk, with the label of the filesystem that is on it. -/
def importVolume (s : Store) (name label : Text) (size : Int) (disk : Option Text) (made : Bool) :
    Except Err Store := do
  (validateResourceName name).mapError .name
  throwIf (size ≤ 0 ∨ maxLabelLen < byteLen label) .sizeOrLabel
  (validateResourceName label).mapError .labelName
  throwIf (made = false) .system
  throwIf (s.find name ≠ none) (.alreadyExists name)
  return s ++ [⟨name, label, disk⟩]

def remove (s : Store) (name : Text) (removed : Bool) : Except Err Store := do
  (validateResourceName name).mapError .name
  throwIf (s.find name = none) (.notFound name)
  throwIf (removed = false) .system
  return s.filter (·.id ≠ name)

def get (s : Store) (name : Text) : Except Err Volume := do
  (validateResourceName name).mapError .name
  match s.find name with
  | none => .error (.notFound name)
  | some v => .ok v

/-- The label of the filesystem on a disk: `IsFormatted` asks whether there is one. -/
def diskLabel (s : Store) (path : Text) : Option Text :=
  (List.find? (fun v => diskPath v.id = path) s).bind Volume.disk

def format (s : Store) (path label : Text) : Store :=
  s.map fun v => if diskPath v.id = path then { v with disk := some label } else v

end Store

structure VolumeMountSpec where
  name : Text
  diskPath : Text := []
  guestPath : Text
  readOnly : Bool := false
  label : Text := []

/-- `RunParams`: the volumes and the rest of the configuration.  Whether the steps that have
nothing to do with volumes succeed, and whether a disk is unused and can be formatted. -/
structure Request where
  volumes : List VolumeMountSpec
  config : Config
  others : Bool := true
  unused : Text → Bool := fun _ => true
  formats : Text → Bool := fun _ => true

/-- `resolveNamedVolumes`, for one volume. -/
def resolve (s : Store) (m : VolumeMountSpec) : Except Err VolumeMountSpec := do
  throwIf (m.name = []) .byName
  let v ← s.get m.name
  return { m with diskPath := diskPath m.name, label := v.label }

def resolveNamedVolumes (s : Store) (mounts : List VolumeMountSpec) :
    Except Err (List VolumeMountSpec) :=
  mounts.mapM (resolve s)

/-- `ensureVolumesFormatted`, for one volume.  The directory of a disk has the name of the
volume. -/
def ensureFormatted (req : Request) (s : Store) (sp : VolumeMountSpec) : Except Err Store :=
  if sp.diskPath = [] ∨ sp.guestPath = [] then .ok s
  else if sp.readOnly then do
    throwIf (s.diskLabel sp.diskPath = none) (.readOnlyEmpty sp.guestPath)
    return s
  else if s.diskLabel sp.diskPath ≠ none then .ok s
  else do
    let label := if sp.label = [] then sanitizeLabel sp.name else sp.label
    throwIf (req.unused sp.diskPath = false) (.inUse sp.diskPath)
    throwIf (label = []) (.emptyLabel sp.diskPath)
    throwIf (req.formats sp.diskPath = false) (.format sp.diskPath)
    return s.format sp.diskPath label

/-- `ensureVolumesFormatted`: what was formatted before an error stays so. -/
def ensureVolumesFormatted (req : Request) : Store → List VolumeMountSpec → Store × Except Err Unit
  | s, [] => (s, .ok ())
  | s, sp :: specs =>
    match ensureFormatted req s sp with
    | .error err => (s, .error err)
    | .ok s' => ensureVolumesFormatted req s' specs

def volumeMountFromSpec (sp : VolumeMountSpec) : VolumeMount :=
  ⟨sp.diskPath, sp.guestPath, sp.readOnly, sp.label⟩

/-- `handleRun`, with the configuration of the VM that is created. -/
def handleRun (s : Store) (req : Request) : Store × Except Err Config :=
  match resolveNamedVolumes s req.volumes with
  | .error err => (s, .error err)
  | .ok specs =>
    let (s, formatted) := ensureVolumesFormatted req s specs
    let cfg := { req.config with volumes := specs.map volumeMountFromSpec }
    (s, do
      formatted
      throwIf (req.others = false) .other
      (validateVMConfig cfg).mapError .config
      return cfg)

inductive Action where
  | create (name : Text) (made : Bool)
  | importVolume (name label : Text) (size : Int) (disk : Option Text) (made : Bool)
  | remove (name : Text) (removed : Bool)
  | run (req : Request)

/-- An operation that fails leaves the volumes as they are, but for disks that were formatted. -/
def step (s : Store) : Action → Store
  | .create name made => (s.create name made).toOption.getD s
  | .importVolume name label size disk made =>
    (s.importVolume name label size disk made).toOption.getD s
  | .remove name removed => (s.remove name removed).toOption.getD s
  | .run req => (handleRun s req).1

/-- A volume as the kernel of the guest sees it: its label, and the attachment ids and UUIDs
that name it. -/
structure GuestVolume where
  label : Text
  attachId : Text → Bool
  uuid : Text → Bool

def volumeMatch (k : Text) (v : GuestVolume) : Bool :=
  (decide (1 < k.length) && k.head? == some '%' && v.attachId k.tail) || k == v.label ||
    (k.length == 36 && v.uuid k)

end Jerboa.Volumes
