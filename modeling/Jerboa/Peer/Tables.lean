import Jerboa.Peer.Acts

/-!
# The tables of the peer switch

What holds of the tables whenever the lock is free: the pair table and the table
of numbers are inverse to each other, both sides of a pair are the open sessions of
two registered members, and each member counts its pairs.
-/

namespace Jerboa.Peer

open Function Lib.Run

/-! ## The invariant of the tables -/

/-- The tables while `o` is owed and the sessions `e` are being ended. -/
structure Tables (o : List (Nat × Fin 2)) (e : List Nat) (σ : Switch) : Prop where
  made : σ.Made
  madeMember : ∀ s, s < σ.nextSession → (σ.sessionAt s).member < σ.nextMember
  registered : ∀ mac m, σ.members mac = some m → m < σ.nextMember ∧ (σ.memberAt m).mac = mac
  current : ∀ m s, (σ.memberAt m).session = some s → σ.members (σ.memberAt m).mac = some m ∧
    (σ.sessionAt s).member = m ∧ (σ.sessionAt s).closed = false
  openCurrent : ∀ s, (σ.sessionAt s).closed = false →
    (σ.memberAt (σ.sessionAt s).member).session = some s
  madeSide : ∀ r, r < σ.nextPair → ∀ i, (σ.pairAt r).side i < σ.nextSession
  distinct : ∀ r, r < σ.nextPair → σ.memberOf r 0 ≠ σ.memberOf r 1
  pairKey : ∀ key r, σ.pairOf key = some r → r < σ.nextPair ∧ (σ.pairAt r).key = key
  pairSide : ∀ r, σ.InTable r → ∀ i,
    (σ.sessionAt ((σ.pairAt r).side i)).closed = false ∨ (σ.pairAt r).side i ∈ e
  byID : ∀ id r, σ.byID id = some r → (σ.pairAt r).id = id ∧ σ.InTable r
  owed : ∀ x ∈ o, x.1 < σ.nextPair ∧ ¬ σ.InTable x.1

variable {σ : Switch} {e : List Nat} {r : Nat}

theorem Tables.inTable {o : List (Nat × Fin 2)} (h : Tables o e σ) {key : PairKey}
    (hr : σ.pairOf key = some r) : σ.InTable r := by
  rw [Switch.InTable, (h.pairKey key r hr).2]
  exact hr

theorem Tables.lt_of_inTable {o : List (Nat × Fin 2)} (h : Tables o e σ) (hr : σ.InTable r) :
    r < σ.nextPair :=
  (h.pairKey _ r hr).1

structure SameTables (σ σ' : Switch) : Prop where
  members : σ'.members = σ.members
  nextMember : σ'.nextMember = σ.nextMember
  nextSession : σ'.nextSession = σ.nextSession
  nextPair : σ'.nextPair = σ.nextPair
  nextID : σ'.nextID = σ.nextID
  pairs : σ'.pairs = σ.pairs
  byID : σ'.byID = σ.byID
  mac : ∀ m, (σ'.memberAt m).mac = (σ.memberAt m).mac
  session : ∀ m, (σ'.memberAt m).session = (σ.memberAt m).session
  member : ∀ s, (σ'.sessionAt s).member = (σ.sessionAt s).member
  closed : ∀ s, (σ'.sessionAt s).closed = (σ.sessionAt s).closed
  id : ∀ r, (σ'.pairAt r).id = (σ.pairAt r).id
  key : ∀ r, (σ'.pairAt r).key = (σ.pairAt r).key
  side : ∀ r, (σ'.pairAt r).side = (σ.pairAt r).side

namespace SameTables

variable {σ σ' σ'' : Switch}

theorem refl (σ : Switch) : SameTables σ σ :=
  ⟨rfl, rfl, rfl, rfl, rfl, rfl, rfl, fun _ => rfl, fun _ => rfl, fun _ => rfl, fun _ => rfl,
    fun _ => rfl, fun _ => rfl, fun _ => rfl⟩

section

variable (h : SameTables σ σ')
include h

theorem trans (h' : SameTables σ' σ'') : SameTables σ σ'' where
  members := h'.members.trans h.members
  nextMember := h'.nextMember.trans h.nextMember
  nextSession := h'.nextSession.trans h.nextSession
  nextPair := h'.nextPair.trans h.nextPair
  nextID := h'.nextID.trans h.nextID
  pairs := h'.pairs.trans h.pairs
  byID := h'.byID.trans h.byID
  mac m := (h'.mac m).trans (h.mac m)
  session m := (h'.session m).trans (h.session m)
  member s := (h'.member s).trans (h.member s)
  closed s := (h'.closed s).trans (h.closed s)
  id r := (h'.id r).trans (h.id r)
  key r := (h'.key r).trans (h.key r)
  side r := (h'.side r).trans (h.side r)

theorem pairOf (key : PairKey) : σ'.pairOf key = σ.pairOf key := by
  rw [Switch.pairOf, Switch.pairOf, h.pairs]

theorem inTable (r : Nat) : σ'.InTable r ↔ σ.InTable r :=
  Switch.inTable_congr h.pairs (h.key r)

theorem memberOf (r : Nat) (i : Fin 2) : σ'.memberOf r i = σ.memberOf r i := by
  rw [Switch.memberOf, Switch.memberOf, h.side, h.member]

end

end SameTables

theorem Tables.congr {o o' : List (Nat × Fin 2)} {σ σ' : Switch} (h : Tables o e σ)
    (hs : SameTables σ σ') (ho : ∀ x ∈ o', x ∈ o) : Tables o' e σ' where
  made s hc := by
    rw [hs.nextSession]
    exact h.made s (hs.closed s ▸ hc)
  madeMember s hlt := by
    rw [hs.member, hs.nextMember]
    exact h.madeMember s (hs.nextSession ▸ hlt)
  registered mac m hm := by
    rw [hs.nextMember, hs.mac]
    exact h.registered mac m (hs.members ▸ hm)
  current m s hm := by
    rw [hs.members, hs.mac, hs.member, hs.closed]
    exact h.current m s (hs.session m ▸ hm)
  openCurrent s hc := by
    rw [hs.member, hs.session]
    exact h.openCurrent s (hs.closed s ▸ hc)
  madeSide r hr i := by
    rw [hs.side, hs.nextSession]
    exact h.madeSide r (hs.nextPair ▸ hr) i
  distinct r hr := by
    rw [hs.memberOf, hs.memberOf]
    exact h.distinct r (hs.nextPair ▸ hr)
  pairKey key r hr := by
    rw [hs.nextPair, hs.key]
    exact h.pairKey key r (hs.pairOf key ▸ hr)
  pairSide r hr i := by
    rw [hs.side, hs.closed]
    exact h.pairSide r ((hs.inTable r).mp hr) i
  byID id r hr := by
    rw [hs.id, hs.inTable]
    exact h.byID id r (hs.byID ▸ hr)
  owed x hx := by
    rw [hs.nextPair, hs.inTable]
    exact h.owed x (ho x hx)

section Same

variable (σ : Switch)

theorem same_closeFD (fd : Option Nat) : SameTables σ (σ.closeFD fd) := by
  rw [Switch.closeFD_eq]
  exact { SameTables.refl σ with }

theorem same_session (s : Nat) (t : Session) (es : List Event)
    (hmember : t.member = (σ.sessionAt s).member) (hclosed : t.closed = (σ.sessionAt s).closed) :
    SameTables σ { σ with sessionAt := update σ.sessionAt s t, log := es ++ σ.log } := by
  refine { SameTables.refl σ with member := fun u => ?_, closed := fun u => ?_ }
  · rcases eq_or_ne u s with rfl | hne <;> simp [*]
  · rcases eq_or_ne u s with rfl | hne <;> simp [*]

theorem same_push (s : Nat) (msg : Message) (fd : Option Nat) : SameTables σ (σ.push s msg fd) :=
  same_session σ s { σ.sessionAt s with out := (σ.sessionAt s).out ++ [⟨msg, fd⟩] }
    [.queued s msg] rfl rfl

theorem same_move (mv : Move) : SameTables σ (σ.move mv) := by
  rcases σ.move_eq mv with h | ⟨s, t, es, hmv, h⟩
  · rw [h]
    exact .refl σ
  · rw [h]
    exact same_session σ s t es hmv.member_eq hmv.closed_eq

theorem same_setPair (r : Nat) (f : Pair → Pair) (hid : ∀ pr, (f pr).id = pr.id)
    (hkey : ∀ pr, (f pr).key = pr.key) (hside : ∀ pr, (f pr).side = pr.side) :
    SameTables σ (σ.setPair r f) := by
  refine { SameTables.refl σ with
      id := fun r' => ?_, key := fun r' => ?_, side := fun r' => ?_ } <;>
    rcases eq_or_ne r' r with rfl | hne <;> simp [Switch.setPair, *]

theorem same_setMember (m : Nat) (f : Member → Member) (hmac : ∀ t, (f t).mac = t.mac)
    (hsession : ∀ t, (f t).session = t.session) : SameTables σ (σ.setMember m f) := by
  refine { SameTables.refl σ with mac := fun m' => ?_, session := fun m' => ?_ } <;>
    rcases eq_or_ne m' m with rfl | hne <;> simp [Switch.setMember, *]

theorem same_settle (r : Nat) (i : Fin 2) : SameTables σ (σ.settle r i) := by
  refine ((same_closeFD σ _).trans (same_setPair _ r _ ?_ ?_ ?_)).trans (same_setMember _ _ _ ?_ ?_)
  all_goals exact fun _ => rfl

theorem same_accept (r : Nat) (i : Fin 2) : SameTables σ (σ.accept r i) := by
  refine (same_closeFD σ _).trans (same_setPair _ r _ ?_ ?_ ?_)
  all_goals exact fun _ => rfl

theorem same_dupFD (fd : Nat) : SameTables σ (σ.dupFD fd) :=
  { SameTables.refl σ with }

theorem same_backoff (key : PairKey) (now : Nat) : SameTables σ (σ.backoff key now) :=
  { SameTables.refl σ with }

theorem same_tick : SameTables σ { σ with sends := σ.sends + 1 } :=
  { SameTables.refl σ with }

theorem same_add (fd s : Nat) (msg : Message) (out : Option Nat) :
    SameTables σ ((σ.dupFD fd).push s msg out) :=
  (same_dupFD σ fd).trans (same_push _ s msg out)

theorem same_drop (fd : Nat) : SameTables σ ((σ.dupFD fd).closeFD (some σ.nextFD)) :=
  (same_dupFD σ fd).trans (same_closeFD _ _)

theorem same_stats (m tx rx : Nat) :
    SameTables σ (σ.setMember m fun t => { t with tx, rx }) :=
  same_setMember σ m _ (fun _ => rfl) fun _ => rfl

theorem same_retire (s : Nat) :
    SameTables σ { σ with
      sessionAt := update σ.sessionAt s { σ.sessionAt s with writer := .draining } } :=
  same_session σ s { σ.sessionAt s with writer := .draining } [] rfl rfl

end Same

/-! ## The acts that change the tables -/

variable {m : Nat}

section Change

variable {o : List (Nat × Fin 2)} {e : List Nat} {σ : Switch}

theorem Tables.unlink (h : Tables o e σ) (hr : σ.InTable r) :
    Tables ((r, 0) :: (r, 1) :: o) e (σ.unlink r) where
  made := h.made
  madeMember := h.madeMember
  registered := h.registered
  current := h.current
  openCurrent := h.openCurrent
  madeSide := h.madeSide
  distinct := h.distinct
  pairKey key r' hr' := by
    rw [Switch.pairOf_unlink] at hr'
    split_ifs at hr'
    exact h.pairKey key r' hr'
  pairSide r' hr' := h.pairSide r' (Switch.inTable_of_unlink hr')
  byID id r' hr' := by
    change update σ.byID (σ.pairAt r).id none id = some r' at hr'
    rcases eq_or_ne id (σ.pairAt r).id with rfl | hne
    · simp at hr'
    · rw [update_of_ne hne] at hr'
      obtain ⟨hid, hin⟩ := h.byID id r' hr'
      refine ⟨hid, Switch.inTable_unlink_of_ne hr hin fun heq => hne ?_⟩
      rw [← heq, hid]
  owed x hx := by
    rcases List.mem_cons.mp hx with rfl | hx
    · exact ⟨h.lt_of_inTable hr, σ.not_inTable_unlink r⟩
    · rcases List.mem_cons.mp hx with rfl | hx
      · exact ⟨h.lt_of_inTable hr, σ.not_inTable_unlink r⟩
      · exact ⟨(h.owed x hx).1, fun hin => (h.owed x hx).2 (Switch.inTable_of_unlink hin)⟩

theorem Tables.shut (h : Tables o e σ) {s : Nat} (hs : (σ.sessionAt s).closed = false) :
    Tables o (s :: e) (σ.shut s) := by
  have hmember : (σ.memberAt (σ.sessionAt s).member).session = some s := h.openCurrent s hs
  have htorn := torn_shut σ s
  rw [Switch.shut_eq, if_pos hmember] at htorn ⊢
  set m := (σ.sessionAt s).member with hm
  have hclosed : ∀ t, (update σ.sessionAt s { σ.sessionAt s with closed := true } t).closed =
      false → t ≠ s ∧ (σ.sessionAt t).closed = false := by
    intro t ht
    rcases eq_or_ne t s with rfl | hne
    · simp at ht
    · exact ⟨hne, by simpa [hne] using ht⟩
  exact {
    made := htorn.made h.made
    madeMember := fun t ht => by
      rw [htorn.member t]
      exact h.madeMember t ht
    registered := fun mac m' hm' => by
      rw [htorn.mac m']
      exact h.registered mac m' hm'
    current := fun m' t hm' => by
      have hne : m' ≠ m := by
        rintro rfl
        simp at hm'
      have hm'' : (σ.memberAt m').session = some t := by simpa [hne] using hm'
      obtain ⟨hreg, hof, hopen⟩ := h.current m' t hm''
      have ht : t ≠ s := by
        rintro rfl
        exact hne hof.symm
      rw [htorn.mac m', htorn.member t]
      exact ⟨hreg, hof, by simpa [ht] using hopen⟩
    openCurrent := fun t ht => by
      obtain ⟨hne, hopen⟩ := hclosed t ht
      have hcur := h.openCurrent t hopen
      have hne' : (σ.sessionAt t).member ≠ m := by
        intro heq
        rw [heq, hmember] at hcur
        cases hcur
        exact hne rfl
      rw [htorn.member t]
      simpa [hne'] using hcur
    madeSide := h.madeSide
    distinct := fun r hr => by
      have hof : ∀ i, Switch.memberOf _ r i = σ.memberOf r i := fun i => htorn.member _
      rw [hof 0, hof 1]
      exact h.distinct r hr
    pairKey := h.pairKey
    pairSide := fun r hr i => by
      rcases eq_or_ne ((σ.pairAt r).side i) s with heq | hne
      · exact .inr (heq ▸ List.mem_cons_self)
      · rcases h.pairSide r hr i with hopen | hend
        · exact .inl (by simpa [hne] using hopen)
        · exact .inr (List.mem_cons_of_mem s hend)
    byID := h.byID
    owed := h.owed }

theorem Tables.finish {s : Nat} (h : Tables o (s :: e) σ)
    (hs : ∀ r, σ.InTable r → ∀ i, (σ.pairAt r).side i ≠ s) : Tables o e σ :=
  { h with
    pairSide := fun r hr i => (h.pairSide r hr i).imp_right fun hmem =>
      (List.mem_cons.mp hmem).resolve_left (hs r hr i) }

theorem tables_of_tear {c c' : Config} (h : Tear c c') (hc : Tables c.owed c.ending c.switch) :
    Tables c'.owed c'.ending c'.switch := by
  cases h with
  | move o e a σ mv => exact hc.congr (same_move σ mv) fun _ hx => hx
  | tick o e a σ => exact hc.congr (same_tick σ) fun _ hx => hx
  | unlink o e a σ r h => exact hc.unlink h
  | settle o e a σ r i => exact hc.congr (same_settle σ r i) fun _ => List.mem_cons_of_mem _
  | settlePush o e a σ r i =>
    exact hc.congr ((same_settle σ r i).trans (same_push _ _ _ _)) fun _ => List.mem_cons_of_mem _
  | shut o e a σ s h => exact hc.shut h
  | finish o e a σ s h => exact hc.finish h
  | backoff o e a σ key now => exact hc.congr (same_backoff σ key now) fun _ hx => hx

theorem Tables.enroll (h : Tables [] [] σ) {mac : MAC} (ip : IPv4)
    (hold : ∀ old, σ.members mac = some old → (σ.memberAt old).session = none) :
    Tables [] [] (σ.enroll mac ip) where
  made := h.made
  madeMember s hs := Nat.lt_succ_of_lt (h.madeMember s hs)
  registered mac' m hm := by
    simp only [Switch.enroll] at hm ⊢
    rcases eq_or_ne mac' mac with rfl | hne
    · simp only [update_self, Option.some.injEq] at hm
      subst hm
      simp
    · rw [update_of_ne hne] at hm
      obtain ⟨hlt, hmac⟩ := h.registered mac' m hm
      rw [update_of_ne (Nat.ne_of_lt hlt)]
      exact ⟨Nat.lt_succ_of_lt hlt, hmac⟩
  current m s hm := by
    simp only [Switch.enroll] at hm ⊢
    rcases eq_or_ne m σ.nextMember with rfl | hne
    · simp at hm
    · rw [update_of_ne hne] at hm ⊢
      obtain ⟨hreg, hof, hopen⟩ := h.current m s hm
      have hmac : (σ.memberAt m).mac ≠ mac := by
        intro heq
        rw [hold m (heq ▸ hreg)] at hm
        cases hm
      rw [update_of_ne hmac]
      exact ⟨hreg, hof, hopen⟩
  openCurrent s hs := by
    simp only [Switch.enroll] at hs ⊢
    rw [update_of_ne (Nat.ne_of_lt (h.madeMember s (h.made s hs)))]
    exact h.openCurrent s hs
  madeSide := h.madeSide
  distinct := h.distinct
  pairKey := h.pairKey
  pairSide := h.pairSide
  byID := h.byID
  owed := h.owed

theorem Tables.strike (h : Tables [] [] σ) (hm : (σ.memberAt m).session = none) :
    Tables [] [] (σ.strike m) where
  made := h.made
  madeMember := h.madeMember
  registered mac m' hm' := by
    simp only [Switch.strike] at hm' ⊢
    split_ifs at hm' with hreg
    · rcases eq_or_ne mac (σ.memberAt m).mac with rfl | hne
      · simp at hm'
      · rw [update_of_ne hne] at hm'
        exact h.registered mac m' hm'
    · exact h.registered mac m' hm'
  current m' s hm' := by
    simp only [Switch.strike] at hm' ⊢
    obtain ⟨hreg, hof, hopen⟩ := h.current m' s hm'
    refine ⟨?_, hof, hopen⟩
    split_ifs with hreg'
    · have hmac : (σ.memberAt m').mac ≠ (σ.memberAt m).mac := by
        intro heq
        rw [heq, hreg'] at hreg
        cases hreg
        rw [hm] at hm'
        cases hm'
      rw [update_of_ne hmac]
      exact hreg
    · exact hreg
  openCurrent := h.openCurrent
  madeSide := h.madeSide
  distinct := h.distinct
  pairKey := h.pairKey
  pairSide := h.pairSide
  byID := h.byID
  owed := h.owed

theorem Tables.install (h : Tables [] [] σ) (hlt : m < σ.nextMember)
    (hreg : σ.members (σ.memberAt m).mac = some m) (hm : (σ.memberAt m).session = none) :
    Tables [] [] (σ.install m) := by
  have hold : ∀ t, t < σ.nextSession → ((σ.install m).sessionAt t) = σ.sessionAt t := fun t ht => by
    simp [Switch.install, Nat.ne_of_lt ht]
  have hof : ∀ r, r < σ.nextPair → ∀ i, (σ.install m).memberOf r i = σ.memberOf r i :=
    fun r hr i => by
      rw [Switch.memberOf, Switch.memberOf, show (σ.install m).pairAt = σ.pairAt from rfl,
        hold _ (h.madeSide r hr i)]
  exact {
    made := fun s hs => by
      rcases Nat.lt_or_ge s σ.nextSession with hlt' | hge
      · exact Nat.lt_succ_of_lt hlt'
      · rcases Nat.eq_or_lt_of_le hge with rfl | hgt
        · exact Nat.lt_succ_self _
        · simp only [Switch.install, update_of_ne (Nat.ne_of_gt hgt)] at hs
          exact absurd (h.made s hs) (Nat.not_lt.mpr hge)
    madeMember := fun s hs => by
      rcases Nat.lt_succ_iff_lt_or_eq.mp hs with hs | rfl
      · rw [hold s hs]
        exact h.madeMember s hs
      · simpa [Switch.install] using hlt
    registered := fun mac m' hm' => by
      obtain ⟨hlt', hmac⟩ := h.registered mac m' hm'
      refine ⟨hlt', ?_⟩
      rcases eq_or_ne m' m with rfl | hne <;> simp [Switch.install, *]
    current := fun m' s hm' => by
      rcases eq_or_ne m' m with rfl | hne
      · simp only [Switch.install, update_self, Option.some.injEq] at hm' ⊢
        subst hm'
        simpa using hreg
      · simp only [Switch.install, update_of_ne hne] at hm' ⊢
        obtain ⟨hreg', hof', hopen⟩ := h.current m' s hm'
        rw [update_of_ne (Nat.ne_of_lt (h.made s hopen))]
        exact ⟨hreg', hof', hopen⟩
    openCurrent := fun s hs => by
      rcases eq_or_ne s σ.nextSession with rfl | hne
      · simp [Switch.install]
      · simp only [Switch.install, update_of_ne hne] at hs ⊢
        have hcur := h.openCurrent s hs
        have hne' : (σ.sessionAt s).member ≠ m := by
          intro heq
          rw [heq, hm] at hcur
          cases hcur
        rw [update_of_ne hne']
        exact hcur
    madeSide := fun r hr i => Nat.lt_succ_of_lt (h.madeSide r hr i)
    distinct := fun r hr => by
      rw [hof r hr 0, hof r hr 1]
      exact h.distinct r hr
    pairKey := h.pairKey
    pairSide := fun r hr i => .inl (by
      have hopen := (h.pairSide r hr i).resolve_right List.not_mem_nil
      rw [show (σ.install m).pairAt = σ.pairAt from rfl, hold _ (h.made _ hopen)]
      exact hopen)
    byID := h.byID
    owed := h.owed }

theorem pairOf_link (σ : Switch) (src d a b : Nat) (key key' : PairKey) :
    (σ.link src d a b key).pairOf key' =
      if key' = key then some σ.nextPair else σ.pairOf key' := by
  split_ifs with h
  · subst h
    exact AList.lookup_insert _
  · exact AList.lookup_insert_ne h

theorem pairAt_link_of_ne (σ : Switch) (src d a b : Nat) (key : PairKey) (hr : r ≠ σ.nextPair) :
    (σ.link src d a b key).pairAt r = σ.pairAt r :=
  update_of_ne hr _ _

theorem pairAt_link (σ : Switch) (src d a b : Nat) (key : PairKey) :
    (σ.link src d a b key).pairAt σ.nextPair =
      { id := σ.newID
        key
        side := fun i => if i = 0 then a else b
        held := fun i => if i = 0 then some σ.nextFD else some (σ.nextFD + 1) } :=
  update_self _ _ _

theorem inTable_link (σ : Switch) (src d a b : Nat) (key : PairKey) :
    (σ.link src d a b key).InTable σ.nextPair := by
  rw [Switch.InTable, pairOf_link, if_pos (by rw [pairAt_link])]

theorem inTable_link_of_ne (src d a b : Nat) {key : PairKey} (hkey : σ.pairOf key = none)
    (hr : r ≠ σ.nextPair) : (σ.link src d a b key).InTable r ↔ σ.InTable r := by
  rw [Switch.InTable, pairAt_link_of_ne σ src d a b key hr, pairOf_link]
  split_ifs with heq
  · constructor
    · intro hr'
      exact absurd (Option.some.inj hr') hr.symm
    · intro hr'
      rw [Switch.InTable, heq, hkey] at hr'
      cases hr'
  · exact Iff.rfl

theorem Tables.link (h : Tables [] [] σ) {src d a b now : Nat} {dst : MAC}
    (hpair : σ.pairable src dst now = some (d, a, b)) :
    Tables [] [] (σ.link src d a b (makePairKey (σ.memberAt src).mac dst)) := by
  obtain ⟨hdst, hne, ha, hb, -, -, hkey⟩ := pairable_eq_some hpair
  set key := makePairKey (σ.memberAt src).mac dst
  obtain ⟨-, hofa, hopena⟩ := h.current src a ha
  obtain ⟨-, hofb, hopenb⟩ := h.current d b hb
  have hold : ∀ r, r < σ.nextPair → (σ.link src d a b key).pairAt r = σ.pairAt r :=
    fun r hr => pairAt_link_of_ne σ src d a b key (Nat.ne_of_lt hr)
  have hnew : ((σ.link src d a b key).pairAt σ.nextPair).side =
      fun i => if i = 0 then a else b := by
    rw [pairAt_link]
  have hmember : ∀ m, ((σ.link src d a b key).memberAt m).session = (σ.memberAt m).session ∧
      ((σ.link src d a b key).memberAt m).mac = (σ.memberAt m).mac := by
    intro m
    simp only [Switch.link, Switch.setMember, update_apply]
    split_ifs <;> simp_all
  have hcases : ∀ {r}, r < σ.nextPair + 1 → r < σ.nextPair ∨ r = σ.nextPair :=
    fun hr => Nat.lt_succ_iff_lt_or_eq.mp hr
  exact {
    made := h.made
    madeMember := h.madeMember
    registered := fun mac m hm => by
      rw [(hmember m).2]
      exact h.registered mac m hm
    current := fun m s hm => by
      rw [(hmember m).1] at hm
      rw [(hmember m).2]
      exact h.current m s hm
    openCurrent := fun s hs => by
      rw [(hmember _).1]
      exact h.openCurrent s hs
    madeSide := fun r hr i => by
      rcases hcases hr with hr | rfl
      · rw [hold r hr]
        exact h.madeSide r hr i
      · rw [hnew]
        dsimp only
        split_ifs
        · exact h.made a hopena
        · exact h.made b hopenb
    distinct := fun r hr => by
      rcases hcases hr with hr | rfl
      · rw [Switch.memberOf, Switch.memberOf, hold r hr]
        exact h.distinct r hr
      · rw [Switch.memberOf, Switch.memberOf, hnew]
        change (σ.sessionAt a).member ≠ (σ.sessionAt b).member
        rw [hofa, hofb]
        exact hne.symm
    pairKey := fun key' r hr => by
      rw [pairOf_link] at hr
      split_ifs at hr with heq
      · cases hr
        exact ⟨Nat.lt_succ_self _, by rw [pairAt_link, heq]⟩
      · obtain ⟨hlt, hk⟩ := h.pairKey key' r hr
        rw [hold r hlt]
        exact ⟨Nat.lt_succ_of_lt hlt, hk⟩
    pairSide := fun r hr i => by
      refine .inl ?_
      rcases eq_or_ne r σ.nextPair with rfl | hne'
      · rw [hnew]
        dsimp only
        split_ifs
        · exact hopena
        · exact hopenb
      · rw [pairAt_link_of_ne σ src d a b key hne']
        have hin := (inTable_link_of_ne src d a b hkey hne').mp hr
        exact (h.pairSide r hin i).resolve_right List.not_mem_nil
    byID := fun id r hr => by
      change update σ.byID σ.newID (some σ.nextPair) id = some r at hr
      rcases eq_or_ne id σ.newID with rfl | hne'
      · rw [update_self] at hr
        cases hr
        exact ⟨by rw [pairAt_link], inTable_link σ src d a b key⟩
      · rw [update_of_ne hne'] at hr
        obtain ⟨hid, hin⟩ := h.byID id r hr
        have hlt := h.lt_of_inTable hin
        rw [hold r hlt]
        exact ⟨hid, (inTable_link_of_ne src d a b hkey (Nat.ne_of_lt hlt)).mpr hin⟩
    owed := by simp }

theorem tables_of_act {strict : Prop} {c c' : Config} (h : Act strict c c')
    (hc : Tables c.owed c.ending c.switch) : Tables c'.owed c'.ending c'.switch := by
  cases h with
  | tear h => exact tables_of_tear h hc
  | enroll σ mac ip h => exact Tables.enroll hc ip h
  | strike σ m h => exact Tables.strike hc h
  | greet σ m hm hreg h =>
    exact (Tables.install hc hm hreg h).congr (same_push _ _ _ _) fun _ hx => hx
  | link σ src dst now d a b hsrc h => exact Tables.link hc h
  | add e a σ r i fd =>
    exact hc.congr (same_add σ fd _ _ _) fun _ hx => hx
  | drop e a σ r i fd =>
    exact hc.congr (same_drop σ fd) fun _ hx => hx
  | giveUp => exact hc
  | accept σ r i => exact hc.congr (same_accept σ r i) fun _ hx => hx
  | stats σ m tx rx =>
    exact hc.congr (same_stats σ m tx rx) fun _ hx => hx
  | retire σ s =>
    exact hc.congr (same_retire σ s) fun _ hx => hx

theorem tables_new : Tables [] [] newPeering where
  made := nofun
  madeMember := nofun
  registered := nofun
  current := nofun
  openCurrent := nofun
  madeSide := nofun
  distinct := nofun
  pairKey := nofun
  pairSide := nofun
  byID := nofun
  owed := nofun

end Change

/-! ## The operations as acts -/

/-- An `observe` that makes a pair finds room in the queue of the session it offers
the link to first. -/
def Roomy (σ : Switch) : Op → Prop
  | .observe src dst now socket _ _ => ∀ x ∈ σ.pairable src dst now, socket = true →
      (σ.sessionAt x.2.1).out.length < peerOutQueue
  | _ => True

instance (σ : Switch) : ∀ op, Decidable (Roomy σ op) := by
  intro op
  cases op <;> unfold Roomy <;> infer_instance

section Operations

variable {strict : Prop} (env : Env)

theorem tears_endSession (σ : Switch) (s : Nat) :
    Tears (.free σ) (.free (σ.endSession env s)) :=
  tears_endSessionLocked env _ [] [] [] s σ

theorem tears_removePair (σ : Switch) (r : Nat) (failed : Option Nat) :
    Tears (.free σ) (.free (σ.removePair env r failed)) :=
  tears_removePairLocked env (tears_endSessionLocked env _) σ r failed

theorem session_endSession (h : Tables [] [] σ) (m : Nat) :
    ((σ.endSession? env (σ.memberAt m).session).memberAt m).session = none := by
  rcases hm : (σ.memberAt m).session with _ | s
  · exact hm
  · obtain ⟨-, hof, hopen⟩ := h.current m s hm
    have hshut : ((σ.shut s).memberAt m).session = none := by
      rw [Switch.shut_eq, hof, if_pos hm]
      simp
    obtain ⟨hwalk, -⟩ := tears_walk (o := []) (e := []) (a := []) env
      (tears_endSessionLocked env σ.nextSession) s (env.order s (σ.shut s).pairRefs) (σ.shut s)
    have hend : σ.endSession? env (some s) = (env.order s (σ.shut s).pairRefs).foldl
        (fun σ' r => σ'.visit (endSessionLocked env σ.nextSession) env s r) (σ.shut s) := by
      simp only [Switch.endSession?, Switch.endSession, endSessionLocked, hopen, Bool.false_eq_true,
        if_false]
    rw [hend]
    exact (torn_of_tears hwalk).session m hshut

theorem tears_endSession? (σ : Switch) (s : Option Nat) :
    Tears (.free σ) (.free (σ.endSession? env s)) := by
  cases s with
  | none => exact .refl
  | some s => exact tears_endSession env σ s

theorem acts_register (h : Tables [] [] σ) (mac : MAC) (ip : IPv4) :
    Acts strict (.free σ) (.free (σ.register env mac ip)) := by
  unfold Switch.register
  rcases hm : σ.members mac with _ | old
  · exact .single (.enroll σ mac ip fun old hold => by rw [hm] at hold; cases hold)
  · have htears := tears_endSession? env σ (σ.memberAt old).session
    refine htears.acts.tail (.enroll _ mac ip fun old' hold => ?_)
    have hmembers : (σ.endSession? env (σ.memberAt old).session).members = σ.members :=
      (torn_of_tears htears).members
    rw [hmembers, hm] at hold
    cases hold
    exact session_endSession env h old

theorem acts_unregister (h : Tables [] [] σ) (m : Nat) :
    Acts strict (.free σ) (.free (σ.unregister env m)) :=
  (tears_endSession? env σ (σ.memberAt m).session).acts.tail
    (.strike _ m (session_endSession env h m))

theorem same_writers (σ : Switch) : SameTables σ (σ.writers env) := by
  have hmoves : ∀ (mvs : List Move) (σ : Switch), SameTables σ (mvs.foldl Switch.move σ) := by
    intro mvs
    induction mvs with
    | nil => exact SameTables.refl
    | cons mv mvs ih => exact fun σ => (same_move σ mv).trans (ih (σ.move mv))
  exact (same_tick σ).trans (hmoves _ _)

theorem acts_session (h : Tables [] [] σ) (hm : m < σ.nextMember) (hello : Message) :
    Acts strict (.free σ) (.free (σ.session env m hello)) := by
  unfold Switch.session
  split_ifs with hhello hfeatures hreg
  · exact .refl
  · exact .refl
  · exact .refl
  · have htears := tears_endSession? env σ (σ.memberAt m).session
    have htorn : Torn σ (σ.endSession? env (σ.memberAt m).session) := torn_of_tears htears
    set σ₁ := σ.endSession? env (σ.memberAt m).session
    have hgreet : Act strict (.free σ₁)
        (.free ((σ₁.install m).push σ₁.nextSession ((σ₁.install m).welcomeMessage m) none)) := by
      refine .greet σ₁ m (htorn.nextMember ▸ hm) ?_ (session_endSession env h m)
      rw [htorn.members, htorn.mac]
      exact not_not.mp hreg
    have henqueue :
        (σ₁.install m).enqueue env σ₁.nextSession ((σ₁.install m).welcomeMessage m) none =
          ((σ₁.install m).push σ₁.nextSession
            ((σ₁.install m).welcomeMessage m) none).writers env := by
      have hnew : (σ₁.install m).sessionAt σ₁.nextSession =
          { member := m, epoch := (σ₁.epoch + 1) % 2 ^ 64, out := [], closed := false,
            writer := .waiting } := by
        simp [Switch.install]
      simp only [Switch.enqueue, Switch.enqueueLocked, hnew, Bool.false_eq_true, if_false,
        List.length_nil, peerOutQueue, Nat.zero_lt_succ, if_true]
    rw [henqueue]
    exact (htears.acts.tail hgreet).trans (tears_writers _).acts

variable {i : Fin 2}

theorem acts_offer {r fd : Nat} {a : List (Nat × Fin 2 × Nat)} (h : strict → σ.InTable r) :
    Acts strict ⟨[], [], (r, i, fd) :: a, σ⟩ ⟨[], [], a, σ.offer env r fd i⟩ := by
  simp only [Switch.offer, Switch.enqueue, Switch.enqueueLocked]
  split_ifs with hclosed hroom
  · exact .head (.drop [] a σ r i fd h) (tears_writers _).acts
  · exact .head (.add [] a σ r i fd h (Bool.not_eq_true _ ▸ hclosed)) (tears_writers _).acts
  · exact .head (.drop [] a σ r i fd h)
      ((tears_writers _).acts.trans (tears_endSessionLocked env _ [] [] a _ _).acts)

theorem same_offer {r fd : Nat}
    (hroom : (σ.sessionAt ((σ.pairAt r).side i)).out.length < peerOutQueue) :
    SameTables σ (σ.offer env r fd i) := by
  simp only [Switch.offer, Switch.enqueue, Switch.enqueueLocked]
  split_ifs with hclosed hroom'
  · exact ((same_dupFD σ fd).trans (same_closeFD _ _)).trans (same_writers env _)
  · exact (same_add σ fd _ _ _).trans (same_writers env _)
  · exact absurd hroom hroom'

theorem acts_observe {src : Nat} (hsrc : src < σ.nextMember) (dst : MAC) (now : Nat) (socket : Bool)
    (dup : Fin 2 → Bool) (later : Nat)
    (hroom : strict → Roomy σ (.observe src dst now socket dup later)) :
    Acts strict (.free σ) (.free (σ.observe env src dst now socket dup later)) := by
  unfold Switch.observe
  rcases hpair : σ.pairable src dst now with _ | ⟨d, a, b⟩
  · exact .refl
  · set key := makePairKey (σ.memberAt src).mac dst
    have hin := inTable_link σ src d a b key
    have hlink : Acts strict (.free σ) ⟨[], [], [(σ.nextPair, 0, σ.nextFD),
        (σ.nextPair, 1, σ.nextFD + 1)], σ.link src d a b key⟩ :=
      .single (.link σ src dst now d a b hsrc hpair)
    split_ifs with hsocket hdup0 hdup1
    · refine (hlink.trans (acts_offer env fun _ => hin)).trans (acts_offer env fun hstrict => ?_)
      refine ((same_offer env ?_).inTable _).mpr hin
      rw [pairAt_link]
      exact hroom hstrict _ hpair hsocket
    · exact ((hlink.trans (acts_offer env fun _ => hin)).tail (.giveUp [] [] _ _)).trans
        (tears_removePair env _ _ _).acts
    · exact (hlink.tail (.giveUp [] [] _ _)).trans (tears_removePair env _ _ _).acts
    · exact .refl

theorem find_eq_some {s r : Nat} {msg : Message} (h : σ.find s msg = some (r, i)) :
    σ.byID msg.value = some r ∧ (σ.pairAt r).side i = s := by
  unfold Switch.find at h
  split at h
  · cases h
  · rename_i r' hr'
    split_ifs at h with hepoch h0 h1 <;> cases h
    · exact ⟨hr', h0⟩
    · exact ⟨hr', h1⟩

theorem acts_receive (h : Tables [] [] σ) (s : Nat) (msg : Message) (now : Nat) :
    Acts strict (.free σ) (.free (σ.receive env s msg now)) := by
  unfold Switch.receive
  split
  · unfold Switch.acked
    split
    · exact .refl
    · rename_i r i hfind
      have hid := (find_eq_some hfind).1
      split_ifs with hflags
      · exact (tears_removePair env σ r _).acts
      · exact .single (.accept σ r i (by rw [(h.byID _ r hid).1, hid]))
  · unfold Switch.dead
    split
    · exact .refl
    · exact (tears_removePair env σ _ _).acts
  · unfold Switch.idle
    split
    · exact .refl
    · exact (tears_removePair env σ _ _).acts
  · exact .single (.stats σ _ _ _)
  · exact .refl

theorem acts_expire (σ : Switch) (r now : Nat) :
    Acts strict (.free σ) (.free (σ.expire env r now)) := by
  unfold Switch.expire
  split_ifs
  · exact (tears_removePair env σ r _).acts
  · exact .refl

theorem acts_writeFailed (σ : Switch) (s : Nat) :
    Acts strict (.free σ) (.free (σ.writeFailed env s)) := by
  unfold Switch.writeFailed
  split
  · rename_i hfailed
    have htears := tears_endSession env σ s
    exact htears.acts.tail (.retire _ s ((torn_of_tears htears).failed s hfailed))
  · exact .refl

theorem acts_step (strict : Prop) (h : Tables [] [] σ) (op : Op) (hroom : strict → Roomy σ op) :
    Acts strict (.free σ) (.free (step env σ op)) := by
  cases op with
  | register mac ip => exact acts_register env h mac ip
  | unregister m =>
    simp only [step]
    split_ifs
    · exact acts_unregister env h m
    · exact .refl
  | session m hello =>
    simp only [step]
    split_ifs with hm
    · exact acts_session env h hm hello
    · exact .refl
  | receive s msg now =>
    simp only [step]
    split_ifs
    · exact acts_receive env h s msg now
    · exact .refl
  | hangup s =>
    simp only [step]
    split_ifs
    · exact (tears_endSession env σ s).acts
    · exact .refl
  | observe src dst now socket dup later =>
    simp only [step]
    split_ifs with hsrc
    · exact acts_observe env hsrc dst now socket dup later hroom
    · exact .refl
  | expire r now =>
    simp only [step]
    split_ifs
    · exact acts_expire env σ r now
    · exact .refl
  | move mv => exact .single (.tear (.move [] [] [] σ mv))
  | writeFailed s =>
    simp only [step]
    split_ifs
    · exact acts_writeFailed env σ s
    · exact .refl

end Operations

end Jerboa.Peer
