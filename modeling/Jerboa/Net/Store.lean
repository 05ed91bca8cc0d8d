import Jerboa.Lib.Except
import Jerboa.Naming
import Jerboa.Net.Subnet
import Mathlib.Data.List.AList

/-!
# The network store

`network.Store`: the networks of the daemon, each a directory with the
network's own record (`meta.json`) and its leases (`state.json`).  The model
has one `NetworkDir` for a directory and assumes that the host's file system
does what it is asked to, so that a request fails only where the store itself
refuses it.  `store.go` and `lease.go` are here; every method holds the store's
mutex, so each is one atomic function of the store.
-/

namespace Jerboa.Net

open Lib Naming Net.Address Net.Subnet

structure Network where
  id : Text
  name : Text
  subnet : Text
  gateway : Text
  bridge : Text
  driver : Text
deriving DecidableEq, Repr

/-- The leases of a network.  `pendingReleases` maps the id of a VM to the
address its removal is about to give back. -/
structure NetworkState where
  allocatedIPs : List Text
  nextIndex : Nat
  pendingReleases : AList fun _ : Text => Text

structure NetworkDir where
  network : Network
  state : NetworkState

/-- The directories below the store's root, in the order `os.ReadDir` lists
them. -/
structure Store where
  dirs : List NetworkDir

/-- What the store asks of its host: the interface or route that overlaps a
subnet, if any, and the hexadecimal SHA-256 of a name. -/
structure Host where
  hostConflict : IPNet → Text
  sha256Hex : Text → Text

/-- The errors of the store, each with the values its text shows.  `diverges`
is no error of the source: it marks a search that has not come to an end. -/
inductive StoreErr where
  | name (err : NameErr)
  | alreadyExists (name : Text)
  | noAvailableSubnets
  | invalidSubnet (subnet : Text) (err : SubnetErr)
  | overlaps (subnet conflict : Text)
  | bridgeCollides (name bridge other : Text)
  | notFound (name : Text)
  | parseSubnet (subnet : Text)
  | notIPv4 (ip : Text)
  | outside (ip name subnet : Text)
  | networkOrBroadcast (ip name subnet : Text)
  | ipAlreadyAllocated (ip name : Text)
  | noAvailableIPs (name subnet : Text)
  | diverges
deriving DecidableEq, Repr

namespace Store

def empty : Store := ⟨[]⟩

def find? (s : Store) (name : Text) : Option NetworkDir :=
  s.dirs.find? (·.network.name = name)

/-- `networkDir`, whose path is the name: `SafeJoin` accepts every valid
name. -/
def networkDir (name : Text) : Except StoreErr Unit :=
  (validateResourceName name).mapError .name

def readDir (s : Store) (name : Text) : Except StoreErr NetworkDir := do
  networkDir name
  match s.find? name with
  | some d => return d
  | none => throw (.notFound name)

def readMeta (s : Store) (name : Text) : Except StoreErr Network :=
  NetworkDir.network <$> s.readDir name

def readState (s : Store) (name : Text) : Except StoreErr NetworkState :=
  NetworkDir.state <$> s.readDir name

def writeNetworkState (s : Store) (name : Text) (st : NetworkState) : Store :=
  ⟨s.dirs.map fun d => if d.network.name = name then { d with state := st } else d⟩

/-- The subnet of a network's record.  `create` writes IPv4 subnets only. -/
def readSubnet (n : Network) : Except StoreErr IPNet :=
  match parseCIDR n.subnet with
  | some (.v4 ipNet) => return ipNet
  | _ => throw (.parseSubnet n.subnet)

def list (s : Store) : List Network := s.dirs.map NetworkDir.network

def get (s : Store) (name : Text) : Except StoreErr Network := s.readMeta name

def bridgePrefix : Text := "jerboa-br-".toList

def maxIfaceNameLen : Nat := 15

/-- A Linux bridge name for a network: the name itself where it fits, else a
piece of its hash. -/
def deriveBridgeName (sha256Hex : Text → Text) (name : Text) : Text :=
  let candidate := bridgePrefix ++ name
  if byteLen candidate ≤ maxIfaceNameLen then candidate
  else bridgePrefix ++ (sha256Hex name).take (maxIfaceNameLen - bridgePrefix.length)

/-- `allocatedSubnetsLocked`: the subnets in use with the networks that have
them. -/
def allocatedSubnets (s : Store) : List (IPNet × Text) :=
  s.list.filterMap fun n =>
    match readSubnet n with
    | .ok ipNet => some (ipNet, n.name)
    | .error _ => none

def subnetsOverlap (a b : IPNet) : Bool := a.contains b.ip || b.contains a.ip

def overlappingSubnet (candidate : IPNet) (allocated : List (IPNet × Text)) : Option Text :=
  (allocated.find? fun a => subnetsOverlap candidate a.1).map Prod.snd

def allocateSubnet (host : Host) (allocated : List (IPNet × Text)) : Option IPNet :=
  ((List.range 256).map fun i =>
      (⟨{ defaultSubnet.ip with b2 := UInt8.ofNat i, b3 := 0 }, 24⟩ : IPNet)).find? fun cidr =>
    overlappingSubnet cidr allocated = none ∧ host.hostConflict cidr = []

/-- The subnet of a new network: the one asked for, or a free one. -/
def chooseSubnet (host : Host) (s : Store) (subnet : Text) : Except StoreErr IPNet :=
  let allocated := s.allocatedSubnets
  if subnet = [] then
    match allocateSubnet host allocated with
    | some ipNet => return ipNet
    | none => throw .noAvailableSubnets
  else
    match parseSubnet host.hostConflict subnet with
    | .error err => throw (.invalidSubnet subnet err)
    | .ok ipNet =>
      match overlappingSubnet ipNet allocated with
      | some conflict => throw (.overlaps ipNet.toText conflict)
      | none => return ipNet

def ensureBridgeAvailable (s : Store) (name bridge : Text) : Except StoreErr Unit :=
  match s.list.find? fun n => n.name ≠ name ∧ n.bridge = bridge with
  | some n => throw (.bridgeCollides name bridge n.name)
  | none => return ()

def initialState (gateway : IPv4) : NetworkState where
  allocatedIPs := [gateway.toText]
  nextIndex := 2
  pendingReleases := ∅

def insertDir (d : NetworkDir) : List NetworkDir → List NetworkDir
  | [] => [d]
  | e :: rest =>
    if d.network.name < e.network.name then d :: e :: rest else e :: insertDir d rest

def create (host : Host) (s : Store) (name subnet driver : Text) :
    Except StoreErr (Network × Store) := do
  networkDir name
  throwIf (s.find? name).isSome (.alreadyExists name)
  let ipNet ← chooseSubnet host s subnet
  let n : Network :=
    { id := name
      name := name
      subnet := ipNet.toText
      gateway := (firstHost ipNet).toText
      bridge := deriveBridgeName host.sha256Hex name
      driver := if driver = [] then "bridge".toList else driver }
  s.ensureBridgeAvailable name n.bridge
  return (n, ⟨insertDir ⟨n, initialState (firstHost ipNet)⟩ s.dirs⟩)

def remove (s : Store) (name : Text) : Except StoreErr Store := do
  let _ ← s.readDir name
  return ⟨s.dirs.filter (·.network.name ≠ name)⟩

def reserveIP (s : Store) (name ip : Text) : Except StoreErr Store := do
  let n ← s.readMeta name
  match parseTo4 ip with
  | none => throw (.notIPv4 ip)
  | some parsed =>
    let ipNet ← readSubnet n
    throwIf (ipNet.contains parsed = false) (.outside ip name n.subnet)
    throwIf (networkOrBroadcast ipNet parsed) (.networkOrBroadcast ip name n.subnet)
    let st ← s.readState name
    let want := parsed.toText
    throwIf (want ∈ st.allocatedIPs) (.ipAlreadyAllocated want name)
    return s.writeNetworkState name { st with allocatedIPs := st.allocatedIPs ++ [want] }

inductive Search where
  | found (ip : IPv4) (nextIndex : Nat)
  | exhausted
  | running

/-- The loop of `AllocateIP`: the first candidate from `index` on that is not
allocated. -/
def search (ipNet : IPNet) (allocated : List Text) : Nat → Nat → Search
  | 0, _ => .running
  | fuel + 1, index =>
    match nextIP ipNet index with
    | none => .exhausted
    | some candidate =>
      if candidate.toText ∈ allocated then search ipNet allocated fuel (index + 1)
      else .found candidate (index + 1)

def allocateIP (s : Store) (name : Text) : Except StoreErr (IPv4 × Store) := do
  let n ← s.readMeta name
  let st ← s.readState name
  let ipNet ← readSubnet n
  match search ipNet st.allocatedIPs ipNet.size st.nextIndex with
  | .exhausted => throw (.noAvailableIPs name n.subnet)
  | .running => throw .diverges
  | .found ip nextIndex =>
    return (ip, s.writeNetworkState name
      { st with allocatedIPs := st.allocatedIPs ++ [ip.toText], nextIndex := nextIndex })

def dropReleases (pending : AList fun _ : Text => Text) (ip : Text) :
    AList fun _ : Text => Text where
  entries := pending.entries.filter (·.2 ≠ ip)
  nodupKeys := pending.nodupKeys.sublist List.filter_sublist

/-- An address is given back as the text it was listed under; a text that is
not listed is not an error. -/
def releaseState (st : NetworkState) (ip : Text) : NetworkState :=
  if ip ∈ st.allocatedIPs then
    { allocatedIPs := st.allocatedIPs.erase ip
      nextIndex := 2
      pendingReleases := dropReleases st.pendingReleases ip }
  else st

def releaseIP (s : Store) (name ip : Text) : Except StoreErr Store := do
  let st ← s.readState name
  return s.writeNetworkState name (releaseState st ip)

def prepareState (st : NetworkState) (owner ip : Text) : NetworkState :=
  if ip ∈ st.allocatedIPs then
    { st with pendingReleases := st.pendingReleases.insert owner ip }
  else st

/-- Records that the VM `owner` is about to be removed and to give back
`ip`. -/
def prepareRelease (s : Store) (name owner ip : Text) : Except StoreErr Store := do
  let st ← s.readState name
  return s.writeNetworkState name (prepareState st owner ip)

/-- One intent after a restart: its address is freed unless its owner is
still registered. -/
def recoverRelease (live : Text → Bool) (st : NetworkState) (intent : Sigma fun _ : Text => Text) :
    NetworkState :=
  if live intent.1 then st
  else if intent.2 ∈ st.allocatedIPs then
    { st with allocatedIPs := st.allocatedIPs.erase intent.2, nextIndex := 2 }
  else st

def recoverState (live : Text → Bool) (st : NetworkState) : NetworkState :=
  { st.pendingReleases.entries.foldl (recoverRelease live) st with pendingReleases := ∅ }

/-- Runs before the daemon accepts requests: finishes the releases whose
owner is gone and forgets every intent. -/
def recoverReleases (s : Store) (live : Text → Bool) : Store :=
  ⟨s.dirs.map fun d => { d with state := recoverState live d.state }⟩

variable {name : Text} {s : Store}

theorem name_of_find? {d : NetworkDir} (h : s.find? name = some d) :
    d.network.name = name := by
  have hname := List.find?_some h
  simpa using hname

theorem find?_map {f : NetworkDir → NetworkDir} (hf : ∀ d, (f d).network.name = d.network.name)
    (name : Text) :
    (⟨s.dirs.map f⟩ : Store).find? name = (s.find? name).map f := by
  have hcomp : ((fun d : NetworkDir => decide (d.network.name = name)) ∘ f) =
      fun d => decide (d.network.name = name) := by
    funext d
    simp [hf]
  simp only [find?, List.find?_map, hcomp]

theorem find?_writeNetworkState (s : Store) (name : Text) (st : NetworkState) (m : Text) :
    (s.writeNetworkState name st).find? m =
      if m = name then (s.find? name).map fun d => { d with state := st } else s.find? m := by
  rw [writeNetworkState, find?_map (by intro d; split <;> rfl)]
  cases hfind : s.find? m with
  | none =>
    split_ifs with hm
    · rw [← hm, hfind]
      rfl
    · rfl
  | some =>
    have hname := name_of_find? hfind
    split_ifs with hm
    · rw [← hm, hfind]
      simp [hname, hm]
    · simp [hname, hm]

theorem find?_recoverReleases (s : Store) (live : Text → Bool) (name : Text) :
    (s.recoverReleases live).find? name =
      (s.find? name).map fun d => { d with state := recoverState live d.state } := by
  let f : NetworkDir → NetworkDir := fun d => { d with state := recoverState live d.state }
  exact find?_map (f := f) (fun _ => rfl) name

theorem find?_insertDir (d : NetworkDir) (ds : List NetworkDir)
    (hnew : (⟨ds⟩ : Store).find? d.network.name = none) (name : Text) :
    (⟨insertDir d ds⟩ : Store).find? name =
      if name = d.network.name then some d else (⟨ds⟩ : Store).find? name := by
  induction ds with
  | nil =>
    by_cases hname : name = d.network.name
    · simp [insertDir, find?, hname]
    · simp [insertDir, find?, hname, Ne.symm hname]
  | cons e ds ih =>
    have hne : e.network.name ≠ d.network.name := by
      intro he
      simp [find?, he] at hnew
    have hrest : (⟨ds⟩ : Store).find? d.network.name = none := by
      simpa [find?, hne] using hnew
    unfold insertDir
    split_ifs with hlt hname hname
    · simp [find?, hname]
    · simp [find?, Ne.symm hname]
    · simp only [find?] at ih hrest ⊢
      rw [List.find?_cons_of_neg (by simp [hname, hne]), ih hrest, if_pos hname]
    · simp only [find?] at ih hrest ⊢
      by_cases he : e.network.name = name
      · simp [he]
      · rw [List.find?_cons_of_neg (by simpa using he), ih hrest, if_neg hname,
          List.find?_cons_of_neg (by simpa using he)]

theorem find?_filter_ne (s : Store) (name m : Text) :
    (⟨s.dirs.filter (·.network.name ≠ name)⟩ : Store).find? m =
      if m = name then none else s.find? m := by
  simp only [find?, List.find?_filter]
  split_ifs with hm
  · subst hm
    simp
  · congr 1
    funext d
    by_cases hd : d.network.name = m
    · simp [hd, hm]
    · simp [hd]

/-! ## What a request that succeeds has done -/

theorem readDir_eq_ok {d : NetworkDir} :
    s.readDir name = .ok d ↔ validateResourceName name = .ok () ∧ s.find? name = some d := by
  unfold readDir networkDir
  cases s.find? name <;> simp [Unique.exists_iff]

variable {n : Network}

theorem readMeta_eq_ok :
    s.readMeta name = .ok n ↔
      validateResourceName name = .ok () ∧ ∃ d, s.find? name = some d ∧ d.network = n := by
  simp [readMeta, readDir_eq_ok, and_assoc]

variable {st : NetworkState}

theorem readState_eq_ok :
    s.readState name = .ok st ↔
      validateResourceName name = .ok () ∧ ∃ d, s.find? name = some d ∧ d.state = st := by
  simp [readState, readDir_eq_ok, and_assoc]

theorem readMeta_readState_eq_ok :
    s.readMeta name = .ok n ∧ s.readState name = .ok st ↔
      validateResourceName name = .ok () ∧ s.find? name = some ⟨n, st⟩ := by
  rw [readMeta_eq_ok, readState_eq_ok]
  constructor
  · rintro ⟨⟨hname, d, hfind, rfl⟩, -, e, hfind', rfl⟩
    rw [hfind] at hfind'
    cases hfind'
    exact ⟨hname, hfind⟩
  · rintro ⟨hname, hfind⟩
    exact ⟨⟨hname, _, hfind, rfl⟩, hname, _, hfind, rfl⟩

theorem create_eq_ok {host : Host} {s s' : Store} {name subnet driver : Text}
    (h : create host s name subnet driver = .ok (n, s')) :
    validateResourceName name = .ok () ∧ s.find? name = none ∧
      ∃ ipNet, chooseSubnet host s subnet = .ok ipNet ∧ n.name = name ∧
        n.subnet = ipNet.toText ∧ n.gateway = (firstHost ipNet).toText ∧
        s' = ⟨insertDir ⟨n, initialState (firstHost ipNet)⟩ s.dirs⟩ := by
  simp only [create, networkDir, bind_eq_ok, mapError_eq_ok, throwIf_eq_ok, pure_eq_ok] at h
  obtain ⟨⟨⟩, hname, -, hnew, ipNet, hsubnet, -, -, heq⟩ := h
  cases heq
  exact ⟨hname, by simpa using hnew, ipNet, hsubnet, rfl, rfl, rfl, rfl⟩

theorem reserveIP_eq_ok {s s' : Store} {name ip : Text} :
    s.reserveIP name ip = .ok s' ↔
      validateResourceName name = .ok () ∧
        ∃ n st a ipNet, s.find? name = some ⟨n, st⟩ ∧ parseTo4 ip = some a ∧
          readSubnet n = .ok ipNet ∧ ipNet.contains a = true ∧
          networkOrBroadcast ipNet a = false ∧ a.toText ∉ st.allocatedIPs ∧
          s.writeNetworkState name
            { st with allocatedIPs := st.allocatedIPs ++ [a.toText] } = s' := by
  unfold reserveIP
  cases hparse : parseTo4 ip with
  | none => simp
  | some a =>
    simp only [bind_eq_ok, throwIf_eq_ok, pure_eq_ok, Bool.not_eq_true, Bool.not_eq_false]
    constructor
    · rintro ⟨n, hn, ipNet, hnet, -, hin, -, husable, st, hst, -, hfree, hs'⟩
      obtain ⟨hname, hfind⟩ := readMeta_readState_eq_ok.mp ⟨hn, hst⟩
      exact ⟨hname, n, st, a, ipNet, hfind, rfl, hnet, hin, husable, hfree, hs'⟩
    · rintro ⟨hname, n, st, b, ipNet, hfind, hb, hnet, hin, husable, hfree, hs'⟩
      cases hb
      obtain ⟨hn, hst⟩ := readMeta_readState_eq_ok.mpr ⟨hname, hfind⟩
      exact ⟨n, hn, ipNet, hnet, (), hin, (), husable, st, hst, (), hfree, hs'⟩

theorem allocateIP_eq {ipNet : IPNet} (hname : validateResourceName name = .ok ())
    (hfind : s.find? name = some ⟨n, st⟩) (hnet : readSubnet n = .ok ipNet) :
    s.allocateIP name =
      match search ipNet st.allocatedIPs ipNet.size st.nextIndex with
      | .exhausted => .error (.noAvailableIPs name n.subnet)
      | .running => .error .diverges
      | .found ip nextIndex =>
        .ok (ip, s.writeNetworkState name
          { st with allocatedIPs := st.allocatedIPs ++ [ip.toText], nextIndex := nextIndex }) := by
  obtain ⟨hn, hst⟩ := readMeta_readState_eq_ok.mpr ⟨hname, hfind⟩
  simp only [allocateIP, hn, hst, hnet, bind, Except.bind]
  split <;> rfl

theorem allocateIP_eq_ok {s s' : Store} {ip : IPv4} (h : s.allocateIP name = .ok (ip, s')) :
    validateResourceName name = .ok () ∧
      ∃ n st ipNet nextIndex, s.find? name = some ⟨n, st⟩ ∧ readSubnet n = .ok ipNet ∧
        search ipNet st.allocatedIPs ipNet.size st.nextIndex = .found ip nextIndex ∧
        s' = s.writeNetworkState name
          { st with allocatedIPs := st.allocatedIPs ++ [ip.toText], nextIndex := nextIndex } := by
  have hread := h
  simp only [allocateIP, bind_eq_ok] at hread
  obtain ⟨n, hn, st, hst, ipNet, hnet, -⟩ := hread
  obtain ⟨hname, hfind⟩ := readMeta_readState_eq_ok.mp ⟨hn, hst⟩
  rw [allocateIP_eq hname hfind hnet] at h
  split at h
  · cases h
  · cases h
  · rename_i found nextIndex hsearch
    cases h
    exact ⟨hname, n, st, ipNet, nextIndex, hfind, hnet, hsearch, rfl⟩

theorem releaseIP_eq_ok {s s' : Store} {name ip : Text} :
    s.releaseIP name ip = .ok s' ↔
      validateResourceName name = .ok () ∧ ∃ d, s.find? name = some d ∧
        s.writeNetworkState name (releaseState d.state ip) = s' := by
  simp [releaseIP, readState_eq_ok, and_assoc]

theorem prepareRelease_eq_ok {s s' : Store} {name owner ip : Text} :
    s.prepareRelease name owner ip = .ok s' ↔
      validateResourceName name = .ok () ∧ ∃ d, s.find? name = some d ∧
        s.writeNetworkState name (prepareState d.state owner ip) = s' := by
  simp [prepareRelease, readState_eq_ok, and_assoc]

end Store

end Jerboa.Net
