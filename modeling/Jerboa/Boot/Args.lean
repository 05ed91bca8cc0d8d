import Jerboa.Boot.Config

/-!
# Boot arguments

What a guest is told about its environment, its network and its volumes: on
Firecracker as arguments of the kernel's command line, on QEMU as values of its
`fw_cfg` files.  Both are texts with separators, built from texts of the
configuration.  No configured text breaks out of its place: split at the
separators, both give back what was configured.
-/

namespace Jerboa.Boot

open List Lib Lib.Delimited Net.Address VolumeMount

def cidrToNetmask (cidr : Text) : Text :=
  let n : Nat := match atoi cidr with
    | none => 24
    | some n => if n < 0 ∨ 32 < n then 24 else n.toNat
  let mask : BitVec 32 := if n = 0 then 0 else 0xffffffff#32 <<< (32 - n)
  (IPv4.ofNat mask.toNat).toText

def maskOf (cfg : Config) : Text := if cfg.subnetMask = [] then "24".toList else cfg.subnetMask

def VolumeMount.mounted (vol : VolumeMount) : Bool := vol.label ≠ [] ∧ vol.guestPath ≠ []

/-- `buildFCBootArgs`.  The size of the largest packet is `netconst.BridgeMTU`. -/
def buildFCBootArgs (cfg : Config) : Text :=
  let args := "console=ttyS0 reboot=k panic=1 pci=off".toList
  let args := cfg.env.foldl (fun args kv => args ++ " environment.".toList ++ kv) args
  let args :=
    if cfg.networkName ≠ [] ∧ cfg.ipAddress ≠ [] then
      let args := args ++ " en1.ipaddr=".toList ++ cfg.ipAddress ++ " en1.netmask=".toList ++
        cidrToNetmask (maskOf cfg)
      let args := if cfg.gatewayIP ≠ [] then args ++ " en1.gateway=".toList ++ cfg.gatewayIP
        else args
      args ++ " en1.mtu=9000".toList
    else args
  cfg.volumes.foldl (fun args vol =>
    if vol.label = [] ∨ vol.guestPath = [] then args
    else args ++ " mounts.".toList ++ vol.label ++ "=".toList ++ vol.guestPath) args

def escapeFwCfgValue (s : Text) : Text := double ',' s

def fwCfgArgs (file value : Text) : List Text :=
  ["-fw_cfg".toList, "name=".toList ++ file ++ ",string=".toList ++ escapeFwCfgValue value]

def buildMountArgs (vols : List VolumeMount) : List Text :=
  let entries := (vols.filter VolumeMount.mounted).map fun vol =>
    vol.label ++ ":".toList ++ vol.guestPath
  if entries = [] then [] else fwCfgArgs "opt/uni/mounts".toList (['\n'].intercalate entries)

def buildEnvArgs (env : List Text) : List Text :=
  if env = [] then [] else fwCfgArgs "opt/uni/env".toList (['\n'].intercalate env)

def buildNetworkCfgArgs (cfg : Config) : List Text :=
  if cfg.ipAddress = [] ∨ cfg.gatewayIP = [] then []
  else
    fwCfgArgs "opt/uni/network".toList
      (cfg.ipAddress ++ "/".toList ++ maskOf cfg ++ ",".toList ++ cfg.gatewayIP)

/-- An argument of the command line: a variable of the environment, a mount or
another one. -/
inductive Arg where
  | environment (name value : Text)
  | mount (label path : Text)
  | other (text : Text)
deriving DecidableEq

/-- The name of an argument ends at the first `=`, and its first part at the first
dot of the name. -/
def decodeArg (text : Text) : Arg :=
  match cut '=' text with
  | none => .other text
  | some (name, value) =>
    match cut '.' name with
    | none => .other text
    | some (scope, rest) =>
      if scope = "environment".toList then .environment rest value
      else if scope = "mounts".toList then .mount rest value
      else .other text

/-- QEMU's reading of a list of options: values end at a comma that is not written
twice. -/
def qemuOpts : Nat → Text → List (Text × Text)
  | 0, _ => []
  | fuel + 1, s =>
    match cut '=' s with
    | none => []
    | some (name, rest) =>
      let value := undouble ',' rest
      (name, value.1) :: qemuOpts fuel value.2

def fwCfgFile (file : Text) : List Text → Option Text
  | [flag, opts] =>
    if flag ≠ "-fw_cfg".toList then none
    else
      match qemuOpts opts.length opts with
      | [(key, name), (key', value)] =>
        if key = "name".toList ∧ name = file ∧ key' = "string".toList then some value else none
      | _ => none
  | _ => none

def lines (value : Option Text) : List Text := (value.map (·.splitOn '\n')).getD []

def decodeEnv (value : Option Text) : List (Text × Text) := (lines value).filterMap (cut '=')

def decodeMounts (value : Option Text) : List (Text × Text) := (lines value).filterMap (cut ':')

def decodeNetwork (value : Option Text) : Option (Text × Text × Text) := do
  let (ip, rest) ← cut '/' (← value)
  let (mask, gateway) ← cut ',' rest
  return (ip, mask, gateway)

def fixedArgs : List Text :=
  ["console=ttyS0".toList, "reboot=k".toList, "panic=1".toList, "pci=off".toList]

def networkArgs (cfg : Config) : List Text :=
  if cfg.networkName ≠ [] ∧ cfg.ipAddress ≠ [] then
    ["en1.ipaddr=".toList ++ cfg.ipAddress, "en1.netmask=".toList ++ cidrToNetmask (maskOf cfg)] ++
      (if cfg.gatewayIP ≠ [] then ["en1.gateway=".toList ++ cfg.gatewayIP] else []) ++
      ["en1.mtu=9000".toList]
  else []

def mountedVolumes (cfg : Config) : List VolumeMount := cfg.volumes.filter VolumeMount.mounted

/-- The guest is told what was configured: `vars` are the variables of the
environment with their names and values. -/
structure Intact (cfg : Config) (vars : List (Text × Text)) : Prop where
  env : cfg.env = vars.map fun v => v.1 ++ '=' :: v.2
  names : ∀ v ∈ vars, '=' ∉ v.1
  tokens : (buildFCBootArgs cfg).splitOn ' ' =
    fixedArgs ++ vars.map (fun v => "environment.".toList ++ v.1 ++ '=' :: v.2) ++
      networkArgs cfg ++
      (mountedVolumes cfg).map fun vol => "mounts.".toList ++ vol.label ++ '=' :: vol.guestPath
  decoded : ((buildFCBootArgs cfg).splitOn ' ').map decodeArg =
    fixedArgs.map .other ++ vars.map (fun v => .environment v.1 v.2) ++
      (networkArgs cfg).map .other ++ (mountedVolumes cfg).map fun vol =>
        .mount vol.label vol.guestPath
  qemuEnv : decodeEnv (fwCfgFile "opt/uni/env".toList (buildEnvArgs cfg.env)) = vars
  qemuMounts : decodeMounts (fwCfgFile "opt/uni/mounts".toList (buildMountArgs cfg.volumes)) =
    (mountedVolumes cfg).map fun vol => (vol.label, vol.guestPath)
  qemuNetwork : decodeNetwork (fwCfgFile "opt/uni/network".toList (buildNetworkCfgArgs cfg)) =
    if cfg.ipAddress = [] ∨ cfg.gatewayIP = [] then none
    else some (cfg.ipAddress, maskOf cfg, cfg.gatewayIP)

theorem foldl_append_eq {β : Type} (f : β → Text) (l : List β) (s : Text) :
    l.foldl (fun s x => s ++ f x) s = s ++ l.flatMap f := by
  induction l generalizing s with
  | nil => simp
  | cons x l ih => rw [foldl_cons, ih, flatMap_cons, append_assoc]

theorem foldl_mounts_eq (vols : List VolumeMount) (s : Text) :
    vols.foldl (fun args vol => if vol.label = [] ∨ vol.guestPath = [] then args
      else args ++ " mounts.".toList ++ vol.label ++ "=".toList ++ vol.guestPath) s =
    s ++ (vols.filter mounted).flatMap fun vol =>
      ' ' :: ("mounts.".toList ++ vol.label ++ '=' :: vol.guestPath) := by
  induction vols generalizing s with
  | nil => simp
  | cons vol vols ih =>
    rw [foldl_cons, ih]
    by_cases hvol : vol.label = [] ∨ vol.guestPath = []
    · have hnot : mounted vol = false := by
        rw [mounted, decide_eq_false_iff_not, not_and_or, not_not, not_not]
        exact hvol
      rw [if_pos hvol, filter_cons_of_neg (by simp [hnot])]
    · have hmounted : mounted vol = true := by
        rw [mounted, decide_eq_true_iff]
        exact not_or.mp hvol
      rw [if_neg hvol, filter_cons_of_pos hmounted, flatMap_cons]
      simp

theorem buildFCBootArgs_eq (cfg : Config) :
    buildFCBootArgs cfg = "console=ttyS0".toList ++
      (fixedArgs.tail ++ cfg.env.map ("environment.".toList ++ ·) ++ networkArgs cfg ++
        (mountedVolumes cfg).map fun vol => "mounts.".toList ++ vol.label ++
          '=' :: vol.guestPath).flatMap
          (' ' :: ·) := by
  have hfixed : "console=ttyS0 reboot=k panic=1 pci=off".toList =
      "console=ttyS0".toList ++ fixedArgs.tail.flatMap (' ' :: ·) := by decide
  have henv : ∀ s : Text, cfg.env.foldl (fun args kv => args ++ " environment.".toList ++ kv) s =
      s ++ (cfg.env.map ("environment.".toList ++ ·)).flatMap (' ' :: ·) := by
    intro s
    simp only [append_assoc]
    rw [foldl_append_eq, flatMap_map]
    rfl
  have hnetwork : ∀ s : Text, (if cfg.networkName ≠ [] ∧ cfg.ipAddress ≠ [] then
      (if cfg.gatewayIP ≠ [] then s ++ " en1.ipaddr=".toList ++ cfg.ipAddress ++
          " en1.netmask=".toList ++ cidrToNetmask (maskOf cfg) ++ " en1.gateway=".toList ++
            cfg.gatewayIP
        else s ++ " en1.ipaddr=".toList ++ cfg.ipAddress ++ " en1.netmask=".toList ++
          cidrToNetmask (maskOf cfg)) ++ " en1.mtu=9000".toList
      else s) = s ++ (networkArgs cfg).flatMap (' ' :: ·) := by
    intro s
    unfold networkArgs
    split_ifs <;> simp
  unfold buildFCBootArgs
  rw [foldl_mounts_eq, henv, hnetwork, hfixed]
  simp [flatMap_map, mountedVolumes]

theorem envKey_char {key : Text} (h : envKeyRe key = true) :
    ∀ c ∈ key, (c.isAlphanum || c == '_') = true := by
  cases key with
  | nil => cases h
  | cons =>
    rw [envKeyRe, Bool.and_eq_true, all_eq_true] at h
    refine forall_mem_cons.mpr ⟨?_, h.2⟩
    have hc := h.1
    simp only [Bool.or_eq_true, Char.isAlphanum] at hc ⊢
    exact hc.imp_left .inl

variable {c : Char}

theorem notMem_envKey {key : Text} (h : envKeyRe key = true)
    (hc : (c.isAlphanum || c == '_') = false) : c ∉ key := by
  intro hmem
  rw [envKey_char h c hmem] at hc
  cases hc

theorem notMem_address {s : Text} (h : s ≠ [] → parseIP s ≠ none) (hc : addressChar c = false) :
    c ∉ s := by
  intro hmem
  rw [addressChar_of_parseIP (h (ne_nil_of_mem hmem)) c hmem] at hc
  cases hc

theorem mask_char {mask : Text} (h : maskAccepted mask = true) :
    ∀ c ∈ mask, c = '-' ∨ c = '+' ∨ c.isDigit = true := by
  unfold maskAccepted at h
  split at h
  · cases h
  · rename_i n hn
    have hdigits : ∀ {ds : Text}, ¬ (ds = [] ∨ ds.all Char.isDigit = false) →
        ∀ c ∈ ds, c.isDigit = true := by
      intro ds hds
      rw [not_or, Bool.not_eq_false] at hds
      exact all_eq_true.mp hds.2
    unfold atoi at hn
    split at hn
    rename_i negative digits hsign
    split at hn
    · cases hn
    rename_i hds
    unfold sign at hsign
    split at hsign <;> cases hsign
    · exact forall_mem_cons.mpr ⟨.inl rfl, fun c hc => .inr (.inr (hdigits hds c hc))⟩
    · exact forall_mem_cons.mpr ⟨.inr (.inl rfl), fun c hc => .inr (.inr (hdigits hds c hc))⟩
    · exact fun c hc => .inr (.inr (hdigits hds c hc))

variable {cfg : Config}

theorem comma_notMem_maskOf (h : Accepted cfg) : ',' ∉ maskOf cfg := by
  unfold maskOf
  split_ifs with hmask
  · decide
  · intro hmem
    rcases mask_char (h.subnetMask hmask) _ hmem with hc | hc | hc <;> revert hc <;> decide

theorem space_notMem_cidrToNetmask (cidr : Text) : ' ' ∉ cidrToNetmask cidr := by
  intro hmem
  rcases mem_intercalate hmem with heq | ⟨part, hpart, hmem⟩
  · revert heq
    decide
  · simp only [mem_cons, not_mem_nil, or_false] at hpart
    rcases hpart with rfl | rfl | rfl | rfl <;> have hc := isDigit_of_mem_octetText hmem <;>
      revert hc <;> decide

theorem space_notMem_networkArgs (h : Accepted cfg) :
    ∀ token ∈ networkArgs cfg, ' ' ∉ token := by
  have hip : ' ' ∉ cfg.ipAddress := notMem_address h.ipAddress rfl
  have hgw : ' ' ∉ cfg.gatewayIP := notMem_address h.gatewayIP rfl
  have hmask := space_notMem_cidrToNetmask (maskOf cfg)
  unfold networkArgs
  split_ifs <;> simp [hip, hgw, hmask]

def varsOf (cfg : Config) : List (Text × Text) := cfg.env.filterMap (cut '=')

theorem map_filterMap_cut {l : List Text} (h : ∀ s ∈ l, cut c s ≠ none) :
    (l.filterMap (cut c)).map (fun v => v.1 ++ c :: v.2) = l := by
  induction l with
  | nil => rfl
  | cons s l ih =>
    rw [forall_mem_cons] at h
    obtain ⟨⟨a, b⟩, hcut⟩ := Option.ne_none_iff_exists'.mp h.1
    rw [filterMap_cons_some hcut, map_cons, ih h.2, (eq_of_cut hcut).1]

section

variable (h : Accepted cfg)
include h

theorem env_eq_map_varsOf :
    cfg.env = (varsOf cfg).map fun v => v.1 ++ '=' :: v.2 := by
  refine (map_filterMap_cut fun kv hkv => ?_).symm
  obtain ⟨key, val, ha⟩ := h.env kv hkv
  exact Option.ne_none_iff_exists'.mpr ⟨_, ha.cut⟩

theorem mem_varsOf {v : Text × Text} (hv : v ∈ varsOf cfg) :
    envKeyRe v.1 = true ∧ hasBootArgUnsafe v.2 = false := by
  obtain ⟨kv, hkv, hcut⟩ := mem_filterMap.mp hv
  obtain ⟨key, val, ha⟩ := h.env kv hkv
  cases ha.cut.symm.trans hcut
  exact ⟨ha.key, ha.val⟩

theorem notMem_env (hkey : (c.isAlphanum || c == '_') = false) (heq : c ≠ '=')
    (hc : c ∈ [' ', '\t', '\r', '\n', '\x0b', '\x0c', '\x00']) : ∀ kv ∈ cfg.env, c ∉ kv := by
  intro kv hkv
  rw [env_eq_map_varsOf h, mem_map] at hkv
  obtain ⟨v, hv, rfl⟩ := hkv
  obtain ⟨hname, hvalue⟩ := mem_varsOf h hv
  rw [mem_append, mem_cons, not_or, not_or]
  exact ⟨notMem_envKey hname hkey, heq, notMem_of_safe hvalue hc⟩

theorem mem_mountedVolumes {vol : VolumeMount} (hvol : vol ∈ mountedVolumes cfg) :
    hasBootArgUnsafe vol.label = false ∧ (∀ c ∈ vol.label, c ≠ '=' ∧ c ≠ ':' ∧ c ≠ '.') ∧
      hasBootArgUnsafe vol.guestPath = false := by
  obtain ⟨hmem, hmounted⟩ := mem_filter.mp hvol
  rw [mounted, decide_eq_true_iff] at hmounted
  exact ⟨(h.label vol hmem).1, (h.label vol hmem).2, h.guestPath vol hmem hmounted.2⟩

theorem splitOn_buildFCBootArgs :
    (buildFCBootArgs cfg).splitOn ' ' =
      fixedArgs ++ (varsOf cfg).map (fun v => "environment.".toList ++ v.1 ++ '=' :: v.2) ++
        networkArgs cfg ++
        (mountedVolumes cfg).map fun vol => "mounts.".toList ++ vol.label ++
          '=' :: vol.guestPath := by
  have henv : cfg.env.map ("environment.".toList ++ ·) =
      (varsOf cfg).map fun v => "environment.".toList ++ v.1 ++ '=' :: v.2 := by
    conv_lhs => rw [env_eq_map_varsOf h]
    simp
  rw [buildFCBootArgs_eq, splitOn_tokens _ (by decide), henv]
  · rfl
  · intro token htoken
    rw [mem_append, mem_append, mem_append] at htoken
    rcases htoken with ((hfixed | hvar) | hnetwork) | hmount
    · revert token
      decide
    · obtain ⟨kv, hkv, rfl⟩ := mem_map.mp hvar
      rw [mem_append, not_or]
      exact ⟨by decide, notMem_env h rfl (by decide) (by decide) kv hkv⟩
    · exact space_notMem_networkArgs h token hnetwork
    · obtain ⟨vol, hvol, rfl⟩ := mem_map.mp hmount
      obtain ⟨hlabel, -, hpath⟩ := mem_mountedVolumes h hvol
      rw [mem_append, mem_append, mem_cons, not_or, not_or, not_or]
      exact ⟨⟨by decide, notMem_of_safe hlabel (by decide)⟩, by decide,
        notMem_of_safe hpath (by decide)⟩

end

theorem decodeArg_scoped (scope : Text) {rest : Text} (hscope : '=' ∉ scope ∧ '.' ∉ scope)
    (hrest : '=' ∉ rest) (value : Text) :
    decodeArg (scope ++ '.' :: rest ++ '=' :: value) =
      if scope = "environment".toList then .environment rest value
      else if scope = "mounts".toList then .mount rest value
      else .other (scope ++ '.' :: rest ++ '=' :: value) := by
  have hname : '=' ∉ scope ++ '.' :: rest := by
    rw [mem_append, mem_cons, not_or, not_or]
    exact ⟨hscope.1, by decide, hrest⟩
  rw [decodeArg, cut_append hname]
  dsimp only
  rw [cut_append hscope.2]

theorem decodeArg_environment {name : Text} (h : '=' ∉ name) (value : Text) :
    decodeArg ("environment.".toList ++ name ++ '=' :: value) = .environment name value :=
  decodeArg_scoped "environment".toList (by decide) h value

theorem decodeArg_mount {label : Text} (h : '=' ∉ label) (path : Text) :
    decodeArg ("mounts.".toList ++ label ++ '=' :: path) = .mount label path :=
  decodeArg_scoped "mounts".toList (by decide) h path

theorem decodeArg_networkArgs (cfg : Config) :
    (networkArgs cfg).map decodeArg = (networkArgs cfg).map .other := by
  have hother : ∀ name value : Text, '=' ∉ name →
      decodeArg ("en1.".toList ++ name ++ '=' :: value) =
          .other ("en1.".toList ++ name ++ '=' :: value) :=
    fun name value h => decodeArg_scoped "en1".toList (by decide) h value
  have hip := hother "ipaddr".toList cfg.ipAddress (by decide)
  have hmask := hother "netmask".toList (cidrToNetmask (maskOf cfg)) (by decide)
  have hgw := hother "gateway".toList cfg.gatewayIP (by decide)
  have hmtu := hother "mtu".toList "9000".toList (by decide)
  unfold networkArgs
  split_ifs
  · exact congrArg₂ List.cons hip (congrArg₂ List.cons hmask
      (congrArg₂ List.cons hgw (congrArg₂ List.cons hmtu rfl)))
  · exact congrArg₂ List.cons hip (congrArg₂ List.cons hmask (congrArg₂ List.cons hmtu rfl))
  · rfl

theorem map_decodeArg_buildFCBootArgs (h : Accepted cfg) :
    ((buildFCBootArgs cfg).splitOn ' ').map decodeArg =
      fixedArgs.map .other ++ (varsOf cfg).map (fun v => .environment v.1 v.2) ++
        (networkArgs cfg).map .other ++
        (mountedVolumes cfg).map fun vol => .mount vol.label vol.guestPath := by
  have hfixed : fixedArgs.map decodeArg = fixedArgs.map .other := by decide
  rw [splitOn_buildFCBootArgs h, map_append, map_append, map_append, hfixed,
    decodeArg_networkArgs, map_map, map_map]
  congr 1
  · congr 2
    refine map_congr_left fun v hv => ?_
    exact decodeArg_environment (notMem_envKey (mem_varsOf h hv).1 rfl) v.2
  · refine map_congr_left fun vol hvol => ?_
    obtain ⟨-, hlabel, -⟩ := mem_mountedVolumes h hvol
    exact decodeArg_mount (fun hmem => (hlabel _ hmem).1 rfl) vol.guestPath

theorem qemuOpts_nil (fuel : Nat) : qemuOpts fuel [] = [] := by
  cases fuel <;> rfl

theorem fwCfgFile_fwCfgArgs {file : Text} (hfile : ',' ∉ file) (value : Text) :
    fwCfgFile file (fwCfgArgs file value) = some value := by
  let opts := "name".toList ++ '=' :: (file ++
    ',' :: 's' :: ("tring".toList ++ '=' :: double ',' value))
  have hargs : fwCfgArgs file value = ["-fw_cfg".toList, opts] := by
    simp [fwCfgArgs, escapeFwCfgValue, opts]
  obtain ⟨fuel, hfuel⟩ : ∃ fuel, opts.length = fuel + 2 := ⟨opts.length - 2, by simp [opts]⟩
  have hstring : ∀ fuel, qemuOpts (fuel + 1) ('s' :: ("tring".toList ++ '=' :: double ',' value)) =
      [("string".toList, value)] := by
    intro fuel
    rw [qemuOpts, show 's' :: ("tring".toList ++ '=' :: double ',' value) =
      "string".toList ++ '=' :: double ',' value from rfl, cut_append (by decide)]
    dsimp only
    rw [undouble_double, qemuOpts_nil]
  have hopts : qemuOpts opts.length opts = [("name".toList, file), ("string".toList, value)] := by
    rw [hfuel, qemuOpts, cut_append (by decide)]
    dsimp only
    rw [undouble_append hfile (by decide), hstring]
  rw [hargs, fwCfgFile, if_neg (by simp), hopts]
  simp

theorem lines_intercalate {parts : List Text} (hne : parts ≠ []) (h : ∀ part ∈ parts, '\n' ∉ part) :
    lines (some (['\n'].intercalate parts)) = parts :=
  splitOn_intercalate '\n' h hne

theorem decodeEnv_buildEnvArgs (h : Accepted cfg) :
    decodeEnv (fwCfgFile "opt/uni/env".toList (buildEnvArgs cfg.env)) = varsOf cfg := by
  unfold buildEnvArgs
  split_ifs with henv
  · rw [varsOf, henv]
    rfl
  · rw [fwCfgFile_fwCfgArgs (by decide), decodeEnv,
      lines_intercalate henv (notMem_env h rfl (by decide) (by decide))]
    rfl

theorem decodeMounts_buildMountArgs (h : Accepted cfg) :
    decodeMounts (fwCfgFile "opt/uni/mounts".toList (buildMountArgs cfg.volumes)) =
      (mountedVolumes cfg).map fun vol => (vol.label, vol.guestPath) := by
  have hline : ∀ vol ∈ mountedVolumes cfg, '\n' ∉ vol.label ++ ":".toList ++ vol.guestPath := by
    intro vol hvol
    obtain ⟨hlabel, -, hpath⟩ := mem_mountedVolumes h hvol
    rw [mem_append, mem_append, not_or, not_or]
    exact ⟨⟨notMem_of_safe hlabel (by decide), by decide⟩, notMem_of_safe hpath (by decide)⟩
  have hcut : ∀ vol ∈ mountedVolumes cfg, cut ':' (vol.label ++ ":".toList ++ vol.guestPath) =
      some (vol.label, vol.guestPath) := by
    intro vol hvol
    obtain ⟨-, hlabel, -⟩ := mem_mountedVolumes h hvol
    rw [append_assoc]
    exact cut_append (fun hmem => (hlabel _ hmem).2.1 rfl) vol.guestPath
  unfold buildMountArgs
  rw [← mountedVolumes]
  dsimp only
  split_ifs with hnone
  · rw [map_eq_nil_iff.mp hnone]
    rfl
  · rw [fwCfgFile_fwCfgArgs (by decide), decodeMounts,
      lines_intercalate hnone (forall_mem_map.mpr hline), filterMap_map,
      ← filterMap_eq_map]
    exact filterMap_congr hcut

theorem decodeNetwork_buildNetworkCfgArgs (h : Accepted cfg) :
    decodeNetwork (fwCfgFile "opt/uni/network".toList (buildNetworkCfgArgs cfg)) =
      if cfg.ipAddress = [] ∨ cfg.gatewayIP = [] then none
      else some (cfg.ipAddress, maskOf cfg, cfg.gatewayIP) := by
  unfold buildNetworkCfgArgs
  split_ifs
  · rfl
  · have hip : cut '/' (cfg.ipAddress ++ '/' :: (maskOf cfg ++ ',' :: cfg.gatewayIP)) =
        some (cfg.ipAddress, maskOf cfg ++ ',' :: cfg.gatewayIP) :=
      cut_append (notMem_address h.ipAddress rfl) _
    have hmask : cut ',' (maskOf cfg ++ ',' :: cfg.gatewayIP) = some (maskOf cfg, cfg.gatewayIP) :=
      cut_append (comma_notMem_maskOf h) _
    have hvalue : cfg.ipAddress ++ "/".toList ++ maskOf cfg ++ ",".toList ++ cfg.gatewayIP =
        cfg.ipAddress ++ '/' :: (maskOf cfg ++ ',' :: cfg.gatewayIP) := by simp
    rw [fwCfgFile_fwCfgArgs (by decide), hvalue]
    simp [decodeNetwork, hip, hmask]

/-- Whatever the texts of an accepted configuration are, the guest is told them and
nothing else. -/
theorem boot_args_intact (cfg : Config) (h : validateVMConfig cfg = .ok ()) :
    ∃ vars, Intact cfg vars := by
  have ha := accepted_of_validate h
  refine ⟨varsOf cfg, env_eq_map_varsOf ha, fun v hv => ?_, splitOn_buildFCBootArgs ha,
    map_decodeArg_buildFCBootArgs ha, decodeEnv_buildEnvArgs ha, decodeMounts_buildMountArgs ha,
    decodeNetwork_buildNetworkCfgArgs ha⟩
  exact notMem_envKey (mem_varsOf ha hv).1 rfl

/-- A configuration with a value that looks like other arguments. -/
def crafted : Config :=
  { imagePath := "/img".toList
    memory := "256M".toList
    networkName := "n".toList
    ipAddress := "10.0.0.2".toList
    gatewayIP := "10.0.0.1".toList
    env := ["A=b,string=c=d.mounts.x=/y".toList]
    volumes := [⟨"/disk".toList, "/data,ro=1".toList, false, "vol".toList⟩] }

theorem boot_args_intact_crafted :
    validateVMConfig crafted = .ok () ∧ ∃ vars, Intact crafted vars :=
  ⟨by decide +kernel, boot_args_intact crafted (by decide +kernel)⟩

/-- A configuration whose volume has no label, and with an address of no network. -/
def unnamed : Config :=
  { imagePath := "/img".toList
    memory := "256M".toList
    ipAddress := "10.0.0.2".toList
    volumes := [⟨"/disk".toList, "/data".toList, false, []⟩] }

/-- An accepted configuration with a volume and an address: the guest is told of
neither. -/
theorem unnamed_not_told : validateVMConfig unnamed = .ok () ∧ unnamed.volumes.length = 1 ∧
    unnamed.ipAddress ≠ [] ∧ (buildFCBootArgs unnamed).splitOn ' ' = fixedArgs ∧
    buildMountArgs unnamed.volumes = [] ∧ buildNetworkCfgArgs unnamed = [] := by
  decide +kernel

end Jerboa.Boot
