import Jerboa.Cluster.Membership
import Jerboa.Lib.Table

/-!
# What peers can change

Whatever peers send, in whatever order: the entry of the node itself stays, the
address of a member changes and a member leaves only by a message of its own,
a member that is gone does not come back while it is in the table, no entry is
further ahead of the clock than the permitted skew, and the table keeps to its
cap.
-/

namespace Jerboa.Cluster

open Net.Address Lib.Run AList

def MemberStatus.gone : MemberStatus → Bool
  | .dead | .left => true
  | .alive | .suspect => false

def Swim.Action.sender : Swim.Action → Option Text
  | .gossip p _ | .answer p _ | .joined p => some p.memberId
  | _ => none

/-- What an action may do to the entry of a member. -/
structure Allowed (localId : Text) (a : Swim.Action) (m m' : Member) : Prop where
  id : m'.id = m.id
  own : a.sender.isSome = true → m.id = localId → m' = m
  addr : m'.addr ≠ m.addr → a.sender = some m.id
  left : m'.status = .left → m.status ≠ .left →
    a.sender = some m.id ∨ a = .leave ∧ m.id = localId
  gone : m.status.gone = true → m'.status.gone = true

variable {status : MemberStatus}

namespace Allowed

variable {localId : Text} {a : Swim.Action} {m m' m'' : Member}

theorem refl : Allowed localId a m m :=
  ⟨rfl, fun _ _ => rfl, fun h => absurd rfl h, fun h h' => absurd h h', fun h => h⟩

theorem trans (h : Allowed localId a m m') (h' : Allowed localId a m' m'') :
    Allowed localId a m m'' := by
  refine ⟨h'.id.trans h.id, fun hsender hlocal => ?_, fun haddr => ?_, fun hleft hnot => ?_,
    fun hgone => h'.gone (h.gone hgone)⟩
  · rw [h'.own hsender (h.id.trans hlocal), h.own hsender hlocal]
  · by_cases hsame : m'.addr = m.addr
    · rw [← h.id]
      exact h'.addr (by rwa [hsame])
    · exact h.addr hsame
  · by_cases hmid : m'.status = .left
    · exact h.left hmid hnot
    · have hlater := h'.left hleft hmid
      rwa [h.id] at hlater

theorem of_same (hid : m'.id = m.id) (haddr : m'.addr = m.addr) (hstatus : m'.status = m.status)
    (hown : a.sender.isSome = true → m.id ≠ localId) : Allowed localId a m m' :=
  ⟨hid, fun hsender hlocal => absurd hlocal (hown hsender), fun h => absurd haddr h,
    fun h h' => absurd (hstatus ▸ h) h', fun h => hstatus ▸ h⟩

theorem of_status (hleft : status ≠ .left) (hgone : m.status.gone = true → status.gone = true)
    (hown : a.sender.isSome = true → m.id ≠ localId) :
    Allowed localId a m { m with status := status } :=
  ⟨rfl, fun hsender hlocal => absurd hlocal (hown hsender), fun h => absurd rfl h,
    fun h _ => absurd h hleft, hgone⟩

end Allowed

/-! ## The invariant -/

structure Inv (s : Swim) : Prop where
  ids : ∀ id m, s.find id = some m → m.id = id
  own : ∃ m, s.find s.localId = some m
  skew : ∀ id m, s.find id = some m → m.lastSeen ≤ s.now + maxClockSkew
  cap : s.members.keys.length ≤ maxMembers

variable {m : Member} {id : Text}

namespace Swim

variable {s s' s'' : Swim} {a : Action} {m m' : Member}

theorem find_put_self (s : Swim) (m : Member) : (s.put m).find m.id = some m :=
  lookup_insert _

theorem find_put_of_ne (s : Swim) (hne : id ≠ m.id) :
    (s.put m).find id = s.find id :=
  lookup_insert_ne hne

theorem find_put_eq_some (h : (s.put m).find id = some m') :
    id = m.id ∧ m' = m ∨ s.find id = some m' := by
  by_cases hid : id = m.id
  · subst hid
    rw [find_put_self] at h
    exact .inl ⟨rfl, (Option.some.inj h).symm⟩
  · rw [find_put_of_ne s hid] at h
    exact .inr h

def Keeps (a : Action) (s s' : Swim) : Prop :=
  s'.localId = s.localId ∧ ∀ id m, s.find id = some m →
    ∃ m', s'.find id = some m' ∧ Allowed s.localId a m m'

theorem Keeps.refl : Keeps a s s := ⟨rfl, fun _ m hm => ⟨m, hm, .refl⟩⟩

theorem Keeps.trans (h : Keeps a s s') (h' : Keeps a s' s'') : Keeps a s s'' := by
  refine ⟨h'.1.trans h.1, fun id m hm => ?_⟩
  obtain ⟨m', hm', hallowed⟩ := h.2 id m hm
  obtain ⟨m'', hm'', hallowed'⟩ := h'.2 id m' hm'
  rw [h.1] at hallowed'
  exact ⟨m'', hm'', hallowed.trans hallowed'⟩

/-- No member is new, and the changes are those that the action may make. -/
def Drops (a : Action) (s s' : Swim) : Prop :=
  s'.localId = s.localId ∧ ∀ id m', s'.find id = some m' →
    ∃ m, s.find id = some m ∧ Allowed s.localId a m m'

theorem Drops.refl : Drops a s s := ⟨rfl, fun _ m hm => ⟨m, hm, .refl⟩⟩

theorem Drops.trans (h : Drops a s s') (h' : Drops a s' s'') : Drops a s s'' := by
  refine ⟨h'.1.trans h.1, fun id m'' hm'' => ?_⟩
  obtain ⟨m', hm', hallowed'⟩ := h'.2 id m'' hm''
  obtain ⟨m, hm, hallowed⟩ := h.2 id m' hm'
  rw [h.1] at hallowed'
  exact ⟨m, hm, hallowed.trans hallowed'⟩

theorem keeps_put (hfind : s.find m.id = some m) (h : Allowed s.localId a m m') :
    Keeps a s (s.put m') := by
  refine ⟨rfl, fun id x hx => ?_⟩
  by_cases hid : id = m'.id
  · subst hid
    rw [h.id, hfind] at hx
    cases hx
    exact ⟨m', find_put_self s m', h⟩
  · exact ⟨x, (find_put_of_ne s hid).trans hx, .refl⟩

theorem keeps_put_new (hfind : s.find m.id = none) : Keeps a s (s.put m) := by
  refine ⟨rfl, fun id x hx => ?_⟩
  have hid : id ≠ m.id := by
    rintro rfl
    rw [hfind] at hx
    cases hx
  exact ⟨x, (find_put_of_ne s hid).trans hx, .refl⟩

theorem drops_put (hfind : s.find m.id = some m) (h : Allowed s.localId a m m') :
    Drops a s (s.put m') := by
  refine ⟨rfl, fun id x hx => ?_⟩
  rcases find_put_eq_some hx with ⟨rfl, rfl⟩ | hx
  · rw [h.id]
    exact ⟨m, hfind, h⟩
  · exact ⟨x, hx, .refl⟩

theorem drops_erase (id : Text) : Drops a s { s with members := s.members.erase id } := by
  refine ⟨rfl, fun id' x hx => ?_⟩
  have hne : id' ≠ id := by
    rintro rfl
    rw [find, lookup_erase] at hx
    cases hx
  rw [find, lookup_erase_ne hne] at hx
  exact ⟨x, hx, .refl⟩

end Swim

namespace Inv

variable {s : Swim} {a : Swim.Action} {m m' : Member}

theorem put (h : Inv s) (hlast : m.lastSeen ≤ s.now + maxClockSkew)
    (hlen : (s.put m).members.keys.length ≤ maxMembers) : Inv (s.put m) := by
  refine ⟨fun id x hx => ?_, ?_, fun id x hx => ?_, hlen⟩
  · rcases Swim.find_put_eq_some hx with ⟨rfl, rfl⟩ | hx
    · rfl
    · exact h.ids id x hx
  · by_cases hid : s.localId = m.id
    · exact ⟨m, by rw [Swim.put, hid]; exact Swim.find_put_self s m⟩
    · obtain ⟨x, hx⟩ := h.own
      exact ⟨x, (Swim.find_put_of_ne s hid).trans hx⟩
  · rcases Swim.find_put_eq_some hx with ⟨rfl, rfl⟩ | hx
    · exact hlast
    · exact h.skew id x hx

theorem put_same (h : Inv s) (hfind : s.find m.id = some m) (hid : m'.id = m.id)
    (hlast : m'.lastSeen ≤ s.now + maxClockSkew) : Inv (s.put m') := by
  refine h.put hlast ?_
  have hsome : (s.find m'.id).isSome = true := by rw [hid, hfind, Option.isSome_some]
  have hmem : m'.id ∈ s.members := lookup_isSome.mp hsome
  exact Nat.le_trans (Nat.le_of_eq (Lib.Table.length_keys_insert_of_mem m' hmem)) h.cap

theorem find_self (h : Inv s) (hm : s.find id = some m) : s.find m.id = some m := by
  rwa [h.ids id m hm]

theorem later (h : Inv s) (elapsed : Nat) : Inv { s with now := s.now + elapsed } := by
  refine ⟨h.ids, h.own, fun id m hm => ?_, h.cap⟩
  have hskew := h.skew id m hm
  push_cast
  omega

end Inv

/-! ## Messages -/

namespace Swim

theorem clampTime_le (now : Nat) (t : Int) : clampTime now t ≤ now + maxClockSkew := by
  unfold clampTime
  split_ifs
  · omega
  · omega

variable {localId : Text} {a : Action}

theorem recover_allowed (hown : a.sender.isSome = true → m.id ≠ localId) :
    Allowed localId a m (recover m) := by
  unfold recover
  split_ifs with hsuspect
  · refine .of_status (by decide) (fun h => ?_) hown
    rw [hsuspect] at h
    cases h
  · exact .refl

@[simp] theorem recover_lastSeen (m : Member) : (recover m).lastSeen = m.lastSeen := by
  unfold recover
  split_ifs <;> rfl

variable {e : MemberEntry} {self : Bool}

theorem takeEntry_lastSeen {t limit : Int} (ht : t ≤ limit) (hm : m.lastSeen ≤ limit) :
    (takeEntry status self t e m).lastSeen ≤ limit := by
  unfold takeEntry
  split_ifs
  · exact hm
  · exact ht
  · exact ht
  · exact hm

theorem takeEntry_allowed {t : Int} (hown : a.sender.isSome = true → m.id ≠ localId)
    (hself : self = true → a.sender = some m.id) :
    Allowed localId a m (takeEntry status self t e m) := by
  unfold takeEntry
  split_ifs with hgone hnewer hsent
  · refine ⟨rfl, fun h hl => absurd hl (hown h), fun h => absurd rfl h, fun hleft _ => ?_,
      fun _ => ?_⟩
    · rcases hgone with rfl | ⟨-, hsent⟩
      · cases hleft
      · exact .inl (hself hsent)
    · rcases hgone with rfl | ⟨rfl, -⟩
      · rfl
      · rfl
  · exact ⟨rfl, fun h hl => absurd hl (hown h), fun _ => hself hsent, fun h h' => absurd h h',
      fun h => h⟩
  · exact .of_same rfl rfl rfl hown
  · exact .refl

theorem mergeExisting_allowed {t : Int} (hown : a.sender.isSome = true → m.id ≠ localId)
    (hself : self = true → a.sender = some m.id) :
    Allowed localId a m (mergeExisting status self t e m) := by
  have htake : Allowed localId a m (takeEntry status self t e m) := takeEntry_allowed hown hself
  unfold mergeExisting
  split_ifs
  · exact htake.trans (recover_allowed fun h => htake.id ▸ hown h)
  · exact htake

theorem mergeExisting_lastSeen {t limit : Int} (ht : t ≤ limit) (hm : m.lastSeen ≤ limit) :
    (mergeExisting status self t e m).lastSeen ≤ limit := by
  unfold mergeExisting
  split_ifs
  · rw [recover_lastSeen]
    exact takeEntry_lastSeen ht hm
  · exact takeEntry_lastSeen ht hm

variable {s : Swim} {a : Action} (refused : Text → Bool)

theorem mergeEntry_keeps (h : Inv s) {sender : Text} (hsender : a.sender = some sender)
    (e : MemberEntry) :
    Inv (s.mergeEntry refused sender e) ∧ Keeps a s (s.mergeEntry refused sender e) := by
  unfold mergeEntry
  by_cases hlocal : e.id = s.localId
  · rw [if_pos hlocal]
    exact ⟨h, .refl⟩
  rw [if_neg hlocal]
  by_cases hvalid : (!validEntry refused e) = true
  · rw [if_pos hvalid]
    exact ⟨h, .refl⟩
  rw [if_neg hvalid]
  cases e.status with
  | none => exact ⟨h, .refl⟩
  | some status =>
    cases hfind : s.find e.id with
    | none =>
      split_ifs with hfull
      · exact ⟨h, .refl⟩
      · refine ⟨h.put (clampTime_le _ _) ?_, keeps_put_new hfind⟩
        exact Nat.le_trans (Lib.Table.length_keys_insert_le _ _ _) (Nat.lt_of_not_le hfull)
    | some m =>
      have hid := h.ids e.id m hfind
      have hallowed : Allowed s.localId a m
          (mergeExisting status (e.id = sender) (clampTime s.now e.lastSeen) e m) := by
        refine mergeExisting_allowed (fun _ => hid ▸ hlocal) fun hself => ?_
        rw [hsender, hid, of_decide_eq_true hself]
      have hself := h.find_self hfind
      refine ⟨h.put_same hself hallowed.id ?_, keeps_put hself hallowed⟩
      exact mergeExisting_lastSeen (clampTime_le _ _) (h.skew _ m hfind)

theorem mergeEntries_keeps (h : Inv s) {p : GossipPayload} (hsender : a.sender = some p.memberId) :
    Inv (s.mergeEntries refused p) ∧ Keeps a s (s.mergeEntries refused p) := by
  refine run_invariant (I := fun s' => Inv s' ∧ Keeps a s s') (fun s' e hs' => ?_) ⟨h, .refl⟩
    p.members
  obtain ⟨hinv, hkeeps⟩ := mergeEntry_keeps refused hs'.1 hsender e
  exact ⟨hinv, hs'.2.trans hkeeps⟩

theorem heard_keeps (h : Inv s) (elapsed : Nat) {sender : Text} {f : Member → Member}
    (hf : ∀ m : Member, m.id ≠ s.localId → Allowed s.localId a m (f m))
    (hlast : ∀ m : Member, (f m).lastSeen = m.lastSeen) (hother : sender ≠ s.localId) :
    Inv (s.heard elapsed sender f) ∧ Keeps a s (s.heard elapsed sender f) := by
  have hlater := h.later elapsed
  unfold heard
  dsimp only
  cases hfind : ({ s with now := s.now + elapsed } : Swim).find sender with
  | none => exact ⟨hlater, .refl⟩
  | some m =>
    have hid : m.id ≠ s.localId := by
      rw [hlater.ids sender m hfind]
      exact hother
    have hseen : Allowed s.localId a m { m with lastSeen := ((s.now + elapsed : Nat) : Int) } :=
      .of_same rfl rfl rfl fun _ => hid
    have hallowed := hseen.trans (hf _ hid)
    have hself := hlater.find_self hfind
    refine ⟨hlater.put_same hself hallowed.id ?_, keeps_put hself hallowed⟩
    rw [hlast]
    dsimp only
    omega

/-! ## Suspicion and the node's own calls -/

theorem suspicion_allowed (now : Nat) (hid : m.id ≠ localId) :
    Allowed localId a m (suspicion now m) := by
  have hsuspect : Allowed localId a m (if m.status = .alive ∧ suspTimeout < now - m.lastSeen then
      { m with status := .suspect } else m) := by
    split_ifs with halive
    · refine .of_status (by decide) (fun h => ?_) fun _ => hid
      rw [halive.1] at h
      cases h
    · exact .refl
  have hdead : ∀ x : Member, x.id ≠ localId → Allowed localId a x
      (if x.status = .suspect ∧ deadTimeout < now - x.lastSeen then { x with status := .dead }
        else x) := by
    intro x hx
    split_ifs
    · exact .of_status (by decide) (fun _ => rfl) fun _ => hx
    · exact .refl
  exact hsuspect.trans (hdead _ (by rw [hsuspect.id]; exact hid))

theorem suspicion_lastSeen (now : Nat) (m : Member) : (suspicion now m).lastSeen = m.lastSeen := by
  unfold suspicion
  dsimp only
  split_ifs <;> rfl

section

variable (h : Inv s)
include h

theorem checkSuspicion_drops (id : Text) :
    Inv (s.checkSuspicion id) ∧ Drops a s (s.checkSuspicion id) := by
  unfold checkSuspicion
  by_cases hlocal : id = s.localId
  · rw [if_pos hlocal]
    exact ⟨h, .refl⟩
  rw [if_neg hlocal]
  cases hfind : s.find id with
  | none => exact ⟨h, .refl⟩
  | some m =>
    have hid := h.ids id m hfind
    have hself := h.find_self hfind
    have hallowed : Allowed s.localId a m (suspicion s.now m) :=
      suspicion_allowed s.now (hid ▸ hlocal)
    dsimp only
    split_ifs with hforgotten
    · have hdrops : Drops a s { s with members := s.members.erase id } := drops_erase id
      refine ⟨⟨fun i x hx => ?_, ?_, fun i x hx => ?_, ?_⟩, hdrops⟩
      · obtain ⟨y, hy, hxy⟩ := hdrops.2 i x hx
        rw [hxy.id]
        exact h.ids i y hy
      · obtain ⟨x, hx⟩ := h.own
        exact ⟨x, (lookup_erase_ne fun heq => hlocal heq.symm).trans hx⟩
      · have hne : i ≠ id := by
          rintro rfl
          rw [find, lookup_erase] at hx
          cases hx
        rw [find, lookup_erase_ne hne] at hx
        exact h.skew i x hx
      · exact Nat.le_trans (Lib.Table.length_keys_erase_le _ _) h.cap
    · refine ⟨h.put_same hself hallowed.id ?_, drops_put hself hallowed⟩
      rw [suspicion_lastSeen]
      exact h.skew id m hfind

theorem checkSuspicions_drops :
    Inv s.checkSuspicions ∧ Drops a s s.checkSuspicions := by
  refine run_invariant (I := fun s' => Inv s' ∧ Drops a s s') (fun s' id hs' => ?_) ⟨h, .refl⟩
    s.members.keys
  obtain ⟨hinv, hdrops⟩ := checkSuspicion_drops (a := a) hs'.1 id
  exact ⟨hinv, hs'.2.trans hdrops⟩

theorem markMember_keeps (addr id : Text) :
    Inv (s.markMember addr id) ∧ Keeps a s (s.markMember addr id) := by
  unfold markMember
  cases hfind : s.find id with
  | none => exact ⟨h, .refl⟩
  | some m =>
    dsimp only
    split_ifs with hmark
    · obtain ⟨-, hlocal, halive⟩ := hmark
      have hid := h.ids id m hfind
      have hself := h.find_self hfind
      have hallowed : Allowed s.localId a m { m with status := .suspect } := by
        refine .of_status (by decide) (fun hgone => ?_) fun _ => hid ▸ hlocal
        rw [halive] at hgone
        cases hgone
      exact ⟨h.put_same hself rfl (h.skew id m hfind), keeps_put hself hallowed⟩
    · exact ⟨h, .refl⟩

theorem markSuspect_keeps (addr : Text) :
    Inv (s.markSuspect addr) ∧ Keeps a s (s.markSuspect addr) := by
  refine run_invariant (I := fun s' => Inv s' ∧ Keeps a s s') (fun s' id hs' => ?_) ⟨h, .refl⟩
    s.members.keys
  obtain ⟨hinv, hkeeps⟩ := markMember_keeps (a := a) hs'.1 addr id
  exact ⟨hinv, hs'.2.trans hkeeps⟩

theorem leave_keeps : Inv s.leave ∧ Keeps .leave s s.leave := by
  unfold leave
  cases hfind : s.find s.localId with
  | none => exact ⟨h, .refl⟩
  | some m =>
    have hself := h.find_self hfind
    refine ⟨h.put_same hself rfl (h.skew _ m hfind), keeps_put hself ?_⟩
    exact ⟨rfl, nofun, fun haddr => absurd rfl haddr,
      fun _ _ => .inr ⟨rfl, h.ids _ m hfind⟩, fun _ => rfl⟩

theorem updateLocal_keeps (vmCount cpuCap memCap : Int) (hsender : a.sender = none) :
    Inv (s.updateLocal vmCount cpuCap memCap) ∧
      Keeps a s (s.updateLocal vmCount cpuCap memCap) := by
  unfold updateLocal
  cases hfind : s.find s.localId with
  | none => exact ⟨h, .refl⟩
  | some =>
    have hself := h.find_self hfind
    refine ⟨h.put_same hself rfl ?_, keeps_put hself (.of_same rfl rfl rfl fun hsome => ?_)⟩
    · dsimp only
      omega
    · rw [hsender] at hsome
      cases hsome

end

end Swim

/-! ## Steps -/

/-- No peer gives the node's own id for its own. -/
def Honest (s : Swim) : Swim.Action → Prop
  | .gossip p _ | .answer p _ => p.memberId ≠ s.localId
  | .joined _ | .tick _ | .unreachable _ | .suspicions | .leave | .update .. => True

instance (s : Swim) (a : Swim.Action) : Decidable (Honest s a) := by
  cases a <;> unfold Honest <;> infer_instance

/-- The rules for one step: the members that are in the table before and after
it have changed as the action may change them, and a message leaves the entry of
the node itself alone. -/
def Trusted (refused : Text → Bool) (s : Swim) (a : Swim.Action) : Prop :=
  (∀ id m m', s.find id = some m → (s.step refused a).find id = some m' →
    Allowed s.localId a m m') ∧
  (a.sender.isSome = true → (s.step refused a).find s.localId = s.find s.localId)

namespace Swim

variable {s s' : Swim} {a : Action}

theorem Keeps.allowed (h : Keeps a s s') {m m' : Member} (hm : s.find id = some m)
    (hm' : s'.find id = some m') : Allowed s.localId a m m' := by
  obtain ⟨x, hx, hallowed⟩ := h.2 id m hm
  rw [hm'] at hx
  cases hx
  exact hallowed

theorem Drops.allowed (h : Drops a s s') {m m' : Member} (hm : s.find id = some m)
    (hm' : s'.find id = some m') : Allowed s.localId a m m' := by
  obtain ⟨x, hx, hallowed⟩ := h.2 id m' hm'
  rw [hm] at hx
  cases hx
  exact hallowed

end Swim

variable {s : Swim} (refused : Text → Bool)

theorem step_keeps (h : Inv s) {a : Swim.Action} (honest : Honest s a) :
    Inv (s.step refused a) ∧
      (Swim.Keeps a s (s.step refused a) ∨
        a.sender = none ∧ Swim.Drops a s (s.step refused a)) := by
  cases a with
  | tick elapsed => exact ⟨h.later elapsed, .inl .refl⟩
  | gossip p elapsed =>
    obtain ⟨hinv, hkeeps⟩ := Swim.mergeEntries_keeps (a := .gossip p elapsed) refused h rfl
    obtain ⟨hinv', hkeeps'⟩ := Swim.heard_keeps (a := .gossip p elapsed) hinv elapsed
      (fun m hm => Swim.recover_allowed fun _ => hm) Swim.recover_lastSeen
      (by rw [hkeeps.1]; exact honest)
    exact ⟨hinv', .inl (hkeeps.trans hkeeps')⟩
  | answer p elapsed =>
    obtain ⟨hinv, hkeeps⟩ := Swim.mergeEntries_keeps (a := .answer p elapsed) refused h rfl
    obtain ⟨hinv', hkeeps'⟩ := Swim.heard_keeps (a := .answer p elapsed) hinv elapsed
      (f := id) (fun m hm => .refl) (fun m => rfl) (by rw [hkeeps.1]; exact honest)
    exact ⟨hinv', .inl (hkeeps.trans hkeeps')⟩
  | joined p =>
    obtain ⟨hinv, hkeeps⟩ := Swim.mergeEntries_keeps (a := .joined p) refused h rfl
    exact ⟨hinv, .inl hkeeps⟩
  | unreachable addr =>
    obtain ⟨hinv, hkeeps⟩ := Swim.markSuspect_keeps (a := .unreachable addr) h addr
    exact ⟨hinv, .inl hkeeps⟩
  | suspicions =>
    obtain ⟨hinv, hdrops⟩ := Swim.checkSuspicions_drops (a := .suspicions) h
    exact ⟨hinv, .inr ⟨rfl, hdrops⟩⟩
  | leave => exact ⟨(Swim.leave_keeps h).1, .inl (Swim.leave_keeps h).2⟩
  | update vmCount cpuCap memCap =>
    obtain ⟨hinv, hkeeps⟩ := Swim.updateLocal_keeps (a := .update vmCount cpuCap memCap) h
      vmCount cpuCap memCap rfl
    exact ⟨hinv, .inl hkeeps⟩

theorem Inv.trusted (h : Inv s) {a : Swim.Action} (honest : Honest s a) : Trusted refused s a := by
  rcases (step_keeps refused h honest).2 with hkeeps | ⟨hsender, hdrops⟩
  · refine ⟨fun id m m' hm hm' => hkeeps.allowed hm hm', fun hsender => ?_⟩
    obtain ⟨m, hm⟩ := h.own
    obtain ⟨m', hm', hallowed⟩ := hkeeps.2 s.localId m hm
    rw [hm', hm, hallowed.own hsender (h.ids _ m hm)]
  · refine ⟨fun id m m' hm hm' => hdrops.allowed hm hm', fun hsome => ?_⟩
    rw [hsender] at hsome
    cases hsome

theorem inv_new (id addr : Text) (vmCount cpuCap memCap : Int) (now : Nat) :
    Inv (Swim.new id addr vmCount cpuCap memCap now) := by
  have hfind : ∀ i m, (Swim.new id addr vmCount cpuCap memCap now).find i = some m →
      i = id ∧ m = ⟨id, addr, .alive, vmCount, cpuCap, memCap, 0⟩ := by
    intro i m hm
    by_cases hi : i = id
    · subst hi
      rw [Swim.find, Swim.new, lookup_insert] at hm
      exact ⟨rfl, (Option.some.inj hm).symm⟩
    · rw [Swim.find, Swim.new, lookup_insert_ne hi] at hm
      cases hm
  refine ⟨fun i m hm => ?_, ⟨_, lookup_insert _⟩, fun i m hm => ?_, ?_⟩
  · obtain ⟨rfl, rfl⟩ := hfind i m hm
    rfl
  · obtain ⟨rfl, rfl⟩ := hfind i m hm
    exact Int.add_nonneg (Int.natCast_nonneg _) (Int.natCast_nonneg _)
  · exact Nat.le_trans (Lib.Table.length_keys_insert_le _ _ _) (by decide)

/-- In every run of a node in which no peer gives the node's own id for its own,
in every state reached: no entry is further ahead of the clock than the
permitted skew, the table keeps to its cap, and the next step keeps the rules. -/
theorem gossip_trust (refused : Text → Bool) (id addr : Text) (vmCount cpuCap memCap : Int)
    (now : Nat) (as : List Swim.Action)
    (honest : AllSteps (Swim.step refused) Honest (Swim.new id addr vmCount cpuCap memCap now) as) :
    (∀ i m, (run (Swim.step refused) (Swim.new id addr vmCount cpuCap memCap now) as).find i =
        some m →
      m.lastSeen ≤ (run (Swim.step refused) (Swim.new id addr vmCount cpuCap memCap now) as).now +
        maxClockSkew) ∧
      (run (Swim.step refused) (Swim.new id addr vmCount cpuCap memCap now)
        as).members.keys.length ≤
        maxMembers ∧
      ∀ a, Honest (run (Swim.step refused) (Swim.new id addr vmCount cpuCap memCap now) as) a →
        Trusted refused (run (Swim.step refused) (Swim.new id addr vmCount cpuCap memCap now) as)
          a := by
  have hinv := run_invariant_of_allSteps (I := Inv) (fun _ _ h ha => (step_keeps refused h ha).1)
    (inv_new id addr vmCount cpuCap memCap now) honest
  exact ⟨hinv.skew, hinv.cap, fun a ha => hinv.trusted refused ha⟩

/-- The node `a` hears of itself, `b` and `c` from `b`, and then that `b` is dead
from `c`, which gives another address for `b`. -/
def relayed : List Swim.Action :=
  let entry (id addr : Text) (status : MemberStatus) (lastSeen : Int) : MemberEntry :=
    ⟨id, addr, some status, 1, 4, 1024, lastSeen⟩
  [.gossip ⟨"b".toList, [entry "a".toList "evil:1".toList .dead 9,
      entry "b".toList "b:1".toList .alive (10 ^ 12), entry "c".toList "c:1".toList .alive 7]⟩ 3,
    .tick (20 * second), .suspicions,
    .answer ⟨"c".toList, [entry "b".toList "evil:1".toList .dead (5 * second)]⟩ 2]

theorem gossip_trust_relayed :
    (((run (Swim.step fun _ => false) (Swim.new "a".toList "a:1".toList 0 4 1024 5) relayed).find
        "b".toList).map fun m => (m.addr, m.status)) = some ("b:1".toList, .dead) ∧
      (∀ i m, (run (Swim.step fun _ => false) (Swim.new "a".toList "a:1".toList 0 4 1024 5)
          relayed).find i = some m →
        m.lastSeen ≤ (run (Swim.step fun _ => false) (Swim.new "a".toList "a:1".toList 0 4 1024 5)
          relayed).now + maxClockSkew) ∧
      (run (Swim.step fun _ => false) (Swim.new "a".toList "a:1".toList 0 4 1024 5)
        relayed).members.keys.length ≤ maxMembers ∧
      ∀ a, Honest (run (Swim.step fun _ => false) (Swim.new "a".toList "a:1".toList 0 4 1024 5)
          relayed) a →
        Trusted (fun _ => false) (run (Swim.step fun _ => false)
          (Swim.new "a".toList "a:1".toList 0 4 1024 5) relayed) a :=
  ⟨by decide +kernel, gossip_trust (fun _ => false) "a".toList "a:1".toList 0 4 1024 5 relayed
    (by decide +kernel)⟩

/-- A peer that gives the node's own id for its own has the node mark its own
entry as seen. -/
theorem own_entry_gossiped :
    (Swim.step (fun _ => false) (Swim.new "a".toList "a:1".toList 0 4 1024 5)
        (.gossip ⟨"a".toList, []⟩ 0)).find "a".toList =
        some ⟨"a".toList, "a:1".toList, .alive, 0, 4, 1024, 5⟩ ∧
      (Swim.new "a".toList "a:1".toList 0 4 1024 5).find "a".toList =
        some ⟨"a".toList, "a:1".toList, .alive, 0, 4, 1024, 0⟩ ∧
      ¬Trusted (fun _ => false) (Swim.new "a".toList "a:1".toList 0 4 1024 5)
        (.gossip ⟨"a".toList, []⟩ 0) := by
  have hafter : (Swim.step (fun _ => false) (Swim.new "a".toList "a:1".toList 0 4 1024 5)
      (.gossip ⟨"a".toList, []⟩ 0)).find "a".toList =
        some ⟨"a".toList, "a:1".toList, .alive, 0, 4, 1024, 5⟩ := by decide +kernel
  have hbefore : (Swim.new "a".toList "a:1".toList 0 4 1024 5).find "a".toList =
      some ⟨"a".toList, "a:1".toList, .alive, 0, 4, 1024, 0⟩ := by decide +kernel
  refine ⟨hafter, hbefore, fun htrusted => ?_⟩
  have hsame := htrusted.2 rfl
  rw [show (Swim.new "a".toList "a:1".toList 0 4 1024 5).localId = "a".toList from rfl, hafter,
    hbefore] at hsame
  simp at hsame

end Jerboa.Cluster
