import Jerboa.Net.Address

/-!
# The VM registry

The VMs the daemon knows (`vm.Store`), their life cycle states and the checks
the managers make before a state changes.  Of a VM's configuration the model
has the fields the daemon's address handling reads and writes.
-/

namespace Jerboa.Api

open Net.Address

inductive State where
  | created
  | starting
  | running
  | stopping
  | stopped
  | restoring
deriving DecidableEq, Repr

def validTransitions : State → List State
  | .created => [.starting]
  | .starting => [.running, .stopped]
  | .running => [.stopping, .stopped]
  | .stopping => [.stopped]
  | .stopped => [.restoring]
  | .restoring => [.running, .stopped]

structure Config where
  name : Text
  networkName : Text
  ipAddress : Text
  gatewayIP : Text
  bridgeName : Text
  subnetMask : Text
deriving DecidableEq, Repr

structure VM where
  id : Text
  cfg : Config
  state : State
deriving DecidableEq, Repr

/-- The states in which a VM has, or is about to have, a process. -/
def State.active : State → Bool
  | .starting => true
  | .running => true
  | _ => false

/-- The registered VMs. -/
abbrev Registry := List VM

namespace Registry

def get (vms : Registry) (id : Text) : Option VM := vms.find? (·.id = id)

def has (vms : Registry) (id : Text) : Bool := vms.any (·.id = id)

/-- `Store.Create`.  Ids are 48 random bits; the model takes them to be
new, so `id` is one that is not registered. -/
def create (vms : Registry) (id : Text) (cfg : Config) : Registry :=
  vms ++ [⟨id, cfg, .created⟩]

def setState (vms : Registry) (id : Text) (state : State) : Registry :=
  vms.map fun v => if v.id = id then { v with state := state } else v

/-- `VM.transition`, refused unless the state machine has the edge. -/
def transition (vms : Registry) (id : Text) (next : State) : Option Registry :=
  match vms.get id with
  | some v => if next ∈ validTransitions v.state then some (vms.setState id next) else none
  | none => none

def unregister (vms : Registry) (id : Text) : Registry := vms.filter (·.id ≠ id)

/-- `Manager.Remove`: only a VM without a process is removed, and not while
another operation owns it (`busy`). -/
def remove (vms : Registry) (id : Text) (busy : Bool) : Option Registry :=
  match vms.get id with
  | some v =>
    if (v.state = .stopped ∨ v.state = .created) ∧ busy = false then some (vms.unregister id)
    else none
  | none => none

/-! ## Who is registered -/

/-- A VM with this id and configuration is registered. -/
def Holds (vms : Registry) (id : Text) (cfg : Config) : Prop :=
  ∃ v ∈ vms, v.id = id ∧ v.cfg = cfg

variable {vms vms' : Registry} {id : Text}

theorem has_iff : vms.has id = true ↔ ∃ cfg, vms.Holds id cfg := by
  simp only [has, List.any_eq_true, decide_eq_true_eq, Holds]
  constructor
  · rintro ⟨v, hv, rfl⟩
    exact ⟨v.cfg, v, hv, rfl, rfl⟩
  · rintro ⟨cfg, v, hv, rfl, -⟩
    exact ⟨v, hv, rfl⟩

theorem not_holds_of_has (hnew : vms.has id = false) (c : Config) : ¬vms.Holds id c := by
  intro hc
  rw [has_iff.mpr ⟨c, hc⟩] at hnew
  cases hnew

theorem mem_of_get {v : VM} (h : vms.get id = some v) : v ∈ vms ∧ v.id = id := by
  refine ⟨List.mem_of_find?_eq_some h, ?_⟩
  have hid := List.find?_some h
  simpa using hid

theorem holds_of_get {v : VM} (h : vms.get id = some v) : vms.Holds id v.cfg :=
  ⟨v, (mem_of_get h).1, (mem_of_get h).2, rfl⟩

theorem mem_create {cfg : Config} {v : VM} :
    v ∈ vms.create id cfg ↔ v ∈ vms ∨ v = ⟨id, cfg, .created⟩ := by
  simp [create]

theorem holds_create {cfg : Config} :
    (vms.create id cfg).Holds = fun i c => vms.Holds i c ∨ i = id ∧ c = cfg := by
  funext i c
  apply propext
  constructor
  · rintro ⟨v, hv, rfl, rfl⟩
    rcases mem_create.mp hv with hold | rfl
    · exact .inl ⟨v, hold, rfl, rfl⟩
    · exact .inr ⟨rfl, rfl⟩
  · rintro (⟨v, hv, rfl, rfl⟩ | ⟨rfl, rfl⟩)
    · exact ⟨v, mem_create.mpr (.inl hv), rfl, rfl⟩
    · exact ⟨_, mem_create.mpr (.inr rfl), rfl, rfl⟩

theorem mem_setState {state : State} {v : VM} :
    v ∈ vms.setState id state ↔
      ∃ w ∈ vms, v = if w.id = id then { w with state := state } else w := by
  simp [setState, eq_comm]

theorem holds_map {f : VM → VM} (hid : ∀ v, (f v).id = v.id) (hcfg : ∀ v, (f v).cfg = v.cfg) :
    Holds (vms.map f) = vms.Holds := by
  funext i c
  apply propext
  constructor
  · rintro ⟨v, hv, rfl, rfl⟩
    obtain ⟨w, hw, rfl⟩ := List.mem_map.mp hv
    exact ⟨w, hw, (hid w).symm, (hcfg w).symm⟩
  · rintro ⟨v, hv, rfl, rfl⟩
    exact ⟨f v, List.mem_map.mpr ⟨v, hv, rfl⟩, hid v, hcfg v⟩

theorem holds_restored (vms : Registry) (states : Text → State) :
    Holds (vms.map fun v => { v with state := states v.id }) = vms.Holds :=
  holds_map (fun _ => rfl) fun _ => rfl

theorem holds_setState {state : State} : (vms.setState id state).Holds = vms.Holds := by
  apply holds_map <;> intro v <;> split_ifs <;> rfl

theorem transition_eq_some {next : State} (h : vms.transition id next = some vms') :
    ∃ v, vms.get id = some v ∧ next ∈ validTransitions v.state ∧
      vms' = vms.setState id next := by
  unfold transition at h
  split at h
  · rename_i v hget
    split_ifs at h with hvalid
    cases h
    exact ⟨v, hget, hvalid, rfl⟩
  · cases h

theorem holds_transition {next : State} (h : vms.transition id next = some vms') :
    vms'.Holds = vms.Holds := by
  obtain ⟨-, -, -, rfl⟩ := transition_eq_some h
  exact holds_setState

theorem holds_getD_transition (vms : Registry) (id : Text) (next : State) :
    ((vms.transition id next).getD vms).Holds = vms.Holds := by
  cases htransition : vms.transition id next with
  | none => rfl
  | some => exact holds_transition htransition

theorem mem_unregister {v : VM} : v ∈ vms.unregister id ↔ v ∈ vms ∧ v.id ≠ id := by
  simp [unregister]

theorem holds_unregister :
    (vms.unregister id).Holds = fun i c => vms.Holds i c ∧ i ≠ id := by
  funext i c
  apply propext
  constructor
  · rintro ⟨v, hv, rfl, rfl⟩
    obtain ⟨hmem, hne⟩ := mem_unregister.mp hv
    exact ⟨⟨v, hmem, rfl, rfl⟩, hne⟩
  · rintro ⟨⟨v, hv, rfl, rfl⟩, hne⟩
    exact ⟨v, mem_unregister.mpr ⟨hv, hne⟩, rfl, rfl⟩

theorem remove_eq_some {busy : Bool} (h : vms.remove id busy = some vms') :
    ∃ v, vms.get id = some v ∧ v.state.active = false ∧ vms' = vms.unregister id := by
  unfold remove at h
  split at h
  · rename_i v hget
    split_ifs at h with hstate
    cases h
    refine ⟨v, hget, ?_, rfl⟩
    rcases hstate.1 with hstopped | hcreated
    · rw [hstopped]
      rfl
    · rw [hcreated]
      rfl
  · cases h

end Registry

end Jerboa.Api
