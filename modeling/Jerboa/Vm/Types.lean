import Jerboa.Api.Registry
import Mathlib.Data.List.AList

/-!
# VMs and their records

The VM of package `vm` and the record a store keeps of it, with the decision
recovery takes about a VM that was running when the daemon went away.

A stored text (the JSON of a record or of a configuration, an instant in
RFC 3339) is represented by the value it decodes to, with `none` for a text
that does not decode: encoding a value and decoding the text gives the value
back.  The answers of the host about a process are parameters (`Probe`), and so
is the clock.
-/

namespace Jerboa.Vm

open Net.Address

/-- `vm.State` as it is stored: a text, of which the program writes six. -/
inductive StateText where
  | known (state : Api.State)
  | unknown (text : Text)
deriving DecidableEq, Repr

def StateText.active : StateText → Bool
  | .known .running => true
  | .known .starting => true
  | .known .stopping => true
  | _ => false

/-- An instant, in nanoseconds. -/
abbrev Time := Int

/-- `Config`: the exported fields, which JSON carries, and the private ones,
which it does not. -/
structure Config (Public : Type) where
  shown : Public
  nativeSocket : Text
  nativeMAC : Text
  nativeControl : Text
  privateBootDisk : Bool
deriving DecidableEq

def Config.ofPublic {Public : Type} (shown : Public) : Config Public :=
  ⟨shown, [], [], [], false⟩

/-- `vmState`, the record of a VM.  The health status is a text the stores
only copy; it is empty where the VM has none. -/
structure VmState (Public : Type) where
  id : Text
  config : Public
  state : StateText
  createdAt : Time
  startedAt : Option Time
  stoppedAt : Option Time
  daemonRecovered : Bool
  healthStatus : Text
  restartCount : Int
  pid : Int
deriving DecidableEq

/-- `VM`.  `proc` is the process handle and `doneClosed` says whether the
channel `Done` returns is closed. -/
structure VM (Public : Type) where
  id : Text
  cfg : Config Public
  state : StateText
  createdAt : Time
  startedAt : Option Time
  stoppedAt : Option Time
  daemonRecovered : Bool
  healthStatus : Text
  restartCount : Int
  pid : Int
  proc : Option Int
  doneClosed : Bool
deriving DecidableEq

/-- What the host says about processes. -/
structure Probe where
  processAlive : Int → Bool
  processOwnsVM : Int → Text → Bool

/-- No process of the last daemon is alive. -/
def Probe.dead : Probe := ⟨fun _ => false, fun _ _ => false⟩

variable {Public : Type}

def VM.toState (v : VM Public) : VmState Public where
  id := v.id
  config := v.cfg.shown
  state := v.state
  createdAt := v.createdAt
  startedAt := v.startedAt
  stoppedAt := v.stoppedAt
  daemonRecovered := v.daemonRecovered
  healthStatus := v.healthStatus
  restartCount := v.restartCount
  pid := v.pid

def Probe.survived (probe : Probe) (pid : Int) (id : Text) : Prop :=
  0 < pid ∧ probe.processAlive pid = true ∧ probe.processOwnsVM pid id = true
deriving Decidable

/-- `recoverVM`: a VM recorded as active is adopted again if its process
survived the daemon, and marked stopped otherwise.  The answer says whether the
VM now differs from its record. -/
def recoverVM (probe : Probe) (now : Time) (v : VM Public) (pid : Int) : VM Public × Bool :=
  if probe.survived pid v.id then
    ({ v with state := .known .running, pid := pid, proc := some pid }, false)
  else
    ({ v with
        state := .known .stopped
        stoppedAt := some now
        daemonRecovered := true
        doneClosed := true }, true)

/-- What both stores do with a VM they read, by its recorded state. -/
def recovered (probe : Probe) (now : Time) (v : VM Public) (pid : Int) : VM Public × Bool :=
  if v.state.active then recoverVM probe now v pid
  else if v.state = .known .stopped then ({ v with doneClosed := true }, false)
  else (v, false)

end Jerboa.Vm
