import Jerboa.Lib.Except
import Jerboa.Naming

/-!
# VM configurations

`validateVMConfig` of package `vm`: the checks a configuration passes before a
hypervisor's command line is built from it.  Texts are sequences of characters; a
configuration comes out of JSON, which carries no other.  An error says which field
it is about, with what the source prints of it.
-/

namespace Jerboa.Boot

open Lib Lib.Delimited Naming Net.Address

structure VolumeMount where
  diskPath : Text
  guestPath : Text
  readOnly : Bool
  label : Text

structure PortMap where
  hostPort : UInt16
  guestPort : UInt16
  protocol : Text

structure HealthCheckConfig where
  type : Text
  port : Int

/-- `Config`, with the fields that `validateVMConfig` reads. -/
structure Config where
  networkAliases : List Text := []
  imagePath : Text
  memory : Text
  cpus : Int := 0
  diskIOEngine : Text := []
  volumeCache : Text := []
  networkName : Text := []
  bridgeName : Text := []
  healthCheck : Option HealthCheckConfig := none
  portMaps : List PortMap := []
  ipAddress : Text := []
  gatewayIP : Text := []
  subnetMask : Text := []
  env : List Text := []
  volumes : List VolumeMount := []

inductive ConfigErr where
  | tooManyAliases
  | invalidAlias
  | imagePathRequired
  | memoryRequired
  | memory (value : Text)
  | cpus (value : Int)
  | diskIOEngine (value : Text)
  | volumeCache (value : Text)
  | networkName (value : Text)
  | bridgeName (value : Text)
  | healthCheck
  | protocol (i : Nat) (value : Text)
  | ports (i : Nat)
  | ipAddress (value : Text)
  | gatewayIP (value : Text)
  | subnetMask (value : Text)
  | envPair (i : Nat) (value : Text)
  | envKey (i : Nat) (key : Text)
  | envValue (i : Nat) (key : Text)
  | diskPathRequired (i : Nat)
  | label (i : Nat) (value : Text)
  | guestPath (i : Nat) (value : Text)
deriving DecidableEq

def isNameChar (c : Char) : Bool := c.isAlphanum || c ∈ ['_', '.', ':', '-']

def logicalNetworkNameRe (s : Text) : Bool := s.length ∈ List.range' 1 128 && s.all isNameChar

def networkNameRe (s : Text) : Bool := s.length ∈ List.range' 1 15 && s.all isNameChar

def memoryUnit : Text → Bool
  | [] => true
  | c :: rest => c ∈ ['K', 'k', 'M', 'm', 'G', 'g', 'T', 't'] &&
      rest ∈ [[], ['i'], ['B'], ['b'], ['i', 'B'], ['i', 'b']]

def memoryRe : Text → Bool
  | [] => false
  | c :: rest => decide ('1' ≤ c ∧ c ≤ '9') && memoryUnit (rest.dropWhile Char.isDigit)

def envKeyRe : Text → Bool
  | [] => false
  | c :: rest => (c.isAlpha || c == '_') && rest.all fun d => d.isAlphanum || d == '_'

def hasBootArgUnsafe (s : Text) : Bool :=
  s.any (· ∈ [' ', '\t', '\r', '\n', '\x0b', '\x0c', '\x00'])

def sign : Text → Bool × Text
  | '-' :: rest => (true, rest)
  | '+' :: rest => (false, rest)
  | rest => (false, rest)

/-- `strconv.Atoi`, where `int` has 64 bits. -/
def atoi (s : Text) : Option Int :=
  let (negative, digits) := sign s
  if digits = [] ∨ digits.all Char.isDigit = false then none
  else if negative then
    if decimalValue digits ≤ 2 ^ 63 then some (-(decimalValue digits : Int)) else none
  else if decimalValue digits < 2 ^ 63 then some (decimalValue digits : Int) else none

def checkAlias (name : Text) : Except ConfigErr Unit := do
  throwIf (byteLen name = 0 ∨ 253 < byteLen name) .invalidAlias
  throwIf (name.any fun r => !r.isAlphanum && r ∉ ['-', '_', '.']) .invalidAlias

def validateDiskIO (cfg : Config) : Except ConfigErr Unit := do
  throwIf (cfg.diskIOEngine ∉ [[], "sync".toList, "async".toList]) (.diskIOEngine cfg.diskIOEngine)
  throwIf (cfg.volumeCache ∉ [[], "writeback".toList, "unsafe".toList])
    (.volumeCache cfg.volumeCache)

def checkHealthCheck (hc : HealthCheckConfig) : Except ConfigErr Unit :=
  throwIf ((hc.type ≠ "tcp".toList ∧ hc.type ≠ "http".toList) ∨ hc.port < 1 ∨ 65535 < hc.port)
    .healthCheck

def checkPortMap (pm : PortMap) (i : Nat) : Except ConfigErr Unit := do
  throwIf (pm.protocol ∉ [[], "tcp".toList, "udp".toList]) (.protocol i pm.protocol)
  throwIf (pm.hostPort = 0 ∨ pm.guestPort = 0) (.ports i)

def maskAccepted (mask : Text) : Bool :=
  match atoi mask with
  | none => false
  | some n => decide (0 ≤ n ∧ n ≤ 32)

def checkEnv (kv : Text) (i : Nat) : Except ConfigErr Unit :=
  match cut '=' kv with
  | none => .error (.envPair i kv)
  | some (key, val) => do
    throwIf (envKeyRe key = false) (.envKey i key)
    throwIf (hasBootArgUnsafe val) (.envValue i key)

def checkVolume (vol : VolumeMount) (i : Nat) : Except ConfigErr Unit := do
  throwIf (vol.diskPath = []) (.diskPathRequired i)
  throwIf (hasBootArgUnsafe vol.label ∨ vol.label.any (· ∈ ['=', ':', '.'])) (.label i vol.label)
  throwIf (vol.guestPath ≠ [] ∧ (vol.guestPath.head? ≠ some '/' ∨ hasBootArgUnsafe vol.guestPath))
    (.guestPath i vol.guestPath)

def validateVMConfig (cfg : Config) : Except ConfigErr Unit := do
  throwIf (64 < cfg.networkAliases.length) .tooManyAliases
  cfg.networkAliases.forM checkAlias
  throwIf (cfg.imagePath = []) .imagePathRequired
  throwIf (cfg.memory = []) .memoryRequired
  throwIf (memoryRe cfg.memory = false) (.memory cfg.memory)
  throwIf (cfg.cpus < 0) (.cpus cfg.cpus)
  validateDiskIO cfg
  throwIf (cfg.networkName ≠ [] ∧ logicalNetworkNameRe cfg.networkName = false)
    (.networkName cfg.networkName)
  throwIf (cfg.bridgeName ≠ [] ∧ networkNameRe cfg.bridgeName = false) (.bridgeName cfg.bridgeName)
  cfg.healthCheck.toList.forM checkHealthCheck
  cfg.portMaps.zipIdx.forM fun x => checkPortMap x.1 x.2
  throwIf (cfg.ipAddress ≠ [] ∧ parseIP cfg.ipAddress = none) (.ipAddress cfg.ipAddress)
  throwIf (cfg.gatewayIP ≠ [] ∧ parseIP cfg.gatewayIP = none) (.gatewayIP cfg.gatewayIP)
  throwIf (cfg.subnetMask ≠ [] ∧ maskAccepted cfg.subnetMask = false) (.subnetMask cfg.subnetMask)
  cfg.env.zipIdx.forM fun x => checkEnv x.1 x.2
  cfg.volumes.zipIdx.forM fun x => checkVolume x.1 x.2

structure Assigned (kv key val : Text) : Prop where
  cut : cut '=' kv = some (key, val)
  key : envKeyRe key = true
  val : hasBootArgUnsafe val = false

/-- What an accepted configuration promises about the texts that reach the guest. -/
structure Accepted (cfg : Config) : Prop where
  ipAddress : cfg.ipAddress ≠ [] → parseIP cfg.ipAddress ≠ none
  gatewayIP : cfg.gatewayIP ≠ [] → parseIP cfg.gatewayIP ≠ none
  subnetMask : cfg.subnetMask ≠ [] → maskAccepted cfg.subnetMask = true
  env : ∀ kv ∈ cfg.env, ∃ key val, Assigned kv key val
  label : ∀ vol ∈ cfg.volumes, hasBootArgUnsafe vol.label = false ∧
    ∀ c ∈ vol.label, c ≠ '=' ∧ c ≠ ':' ∧ c ≠ '.'
  guestPath : ∀ vol ∈ cfg.volumes, vol.guestPath ≠ [] → hasBootArgUnsafe vol.guestPath = false

theorem checkEnv_eq_ok {kv : Text} {i : Nat} (h : checkEnv kv i = .ok ()) :
    ∃ key val, Assigned kv key val := by
  unfold checkEnv at h
  split at h
  · cases h
  · rename_i key val hcut
    simp only [bind_eq_ok, throwIf_eq_ok, Bool.not_eq_false, Bool.not_eq_true] at h
    obtain ⟨-, hkey, hval⟩ := h
    exact ⟨key, val, hcut, hkey, hval⟩

theorem checkVolume_eq_ok {vol : VolumeMount} {i : Nat} (h : checkVolume vol i = .ok ()) :
    (hasBootArgUnsafe vol.label = false ∧ ∀ c ∈ vol.label, c ≠ '=' ∧ c ≠ ':' ∧ c ≠ '.') ∧
      (vol.guestPath ≠ [] → hasBootArgUnsafe vol.guestPath = false) := by
  simp only [checkVolume, bind_eq_ok, throwIf_eq_ok] at h
  obtain ⟨-, -, ⟨⟩, hlabel, hpath⟩ := h
  rw [not_or, Bool.not_eq_true] at hlabel
  refine ⟨⟨hlabel.1, fun c hc => ?_⟩, fun hne => ?_⟩
  · have hall := hlabel.2
    simp only [List.any_eq_true, decide_eq_true_eq, not_exists, not_and, List.mem_cons,
      List.not_mem_nil, or_false, not_or] at hall
    exact hall c hc
  · rw [not_and, not_or, Bool.not_eq_true] at hpath
    exact (hpath hne).2

theorem accepted_of_validate {cfg : Config} (h : validateVMConfig cfg = .ok ()) : Accepted cfg := by
  simp only [validateVMConfig, bind_eq_ok, throwIf_eq_ok] at h
  obtain ⟨-, -, ⟨⟩, -, ⟨⟩, -, ⟨⟩, -, ⟨⟩, -, ⟨⟩, -, ⟨⟩, -, ⟨⟩, -, ⟨⟩, -, ⟨⟩, -, ⟨⟩, -, ⟨⟩, hip,
    ⟨⟩, hgw, ⟨⟩, hmask, ⟨⟩, henv, hvolumes⟩ := h
  have hzip : ∀ {β : Type} {l : List β} {x : β}, x ∈ l → ∃ i, (x, i) ∈ l.zipIdx := by
    intro β l x hx
    obtain ⟨i, hi, rfl⟩ := List.mem_iff_getElem.mp hx
    exact ⟨i, List.mem_zipIdx_iff_getElem?.mpr (List.getElem?_eq_getElem hi)⟩
  have hvol : ∀ vol ∈ cfg.volumes, ∃ i, checkVolume vol i = .ok () := fun vol hvol => by
    obtain ⟨i, hi⟩ := hzip hvol
    exact ⟨i, forM_eq_ok hvolumes _ hi⟩
  refine ⟨fun hne => ?_, fun hne => ?_, fun hne => ?_, fun kv hkv => ?_, fun vol hv => ?_,
    fun vol hv => ?_⟩
  · exact fun hnone => hip ⟨hne, hnone⟩
  · exact fun hnone => hgw ⟨hne, hnone⟩
  · exact Bool.of_not_eq_false fun hfalse => hmask ⟨hne, hfalse⟩
  · obtain ⟨i, hi⟩ := hzip hkv
    exact checkEnv_eq_ok (forM_eq_ok henv _ hi)
  · obtain ⟨i, hi⟩ := hvol vol hv
    exact (checkVolume_eq_ok hi).1
  · obtain ⟨i, hi⟩ := hvol vol hv
    exact (checkVolume_eq_ok hi).2

theorem notMem_of_safe {s : Text} (h : hasBootArgUnsafe s = false) {c : Char}
    (hc : c ∈ [' ', '\t', '\r', '\n', '\x0b', '\x0c', '\x00']) : c ∉ s := by
  intro hmem
  rw [hasBootArgUnsafe, List.any_eq_false] at h
  exact h c hmem (decide_eq_true hc)

end Jerboa.Boot
