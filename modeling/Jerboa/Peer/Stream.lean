import Jerboa.Peer.Invariant

/-!
# The control stream of a session

The messages queued to one session: the first is a welcome, and each pair is added
at most once and removed at most once, in that order.  It rests on one condition:
the session a new link is offered to first has room in its queue.  If it has not,
the pair is removed while it is being set up, and then still offered to the other
side.
-/

namespace Jerboa.Peer

open List Lib.Run Event Switch

def Event.signal : Event → Bool
  | .queued _ _ => true
  | .removed _ => true
  | _ => false

/-- The event queues a message of this kind about the pair `id` to the session. -/
def Event.queues (s : Nat) (kind : Kind) (id : Nat) : Event → Bool
  | .queued t msg => t == s && msg.kind == kind && msg.value == id
  | _ => false

def Event.messageTo (s : Nat) : Event → Option Message
  | .queued t msg => if t = s then some msg else none
  | _ => none

def streamOf (s : Nat) (events : List Event) : List Message := events.filterMap (Event.messageTo s)

/-- What happened, the oldest event first. -/
def Switch.history (σ : Switch) : List Event := σ.log.reverse

/-- The stream of a session is as its monitor expects it. -/
structure Orderly (s : Nat) (events : List Event) : Prop where
  welcome : ∀ msg ∈ (streamOf s events).head?, msg.kind = .welcome
  add_once : ∀ id, events.countP (Event.queues s .add id) ≤ 1
  del_once : ∀ id, events.countP (Event.queues s .del id) ≤ 1
  add_live : events.Pairwise fun e e' => ∀ id, e = .removed id → ¬ e'.queues s .add id
  add_first : events.Pairwise fun e e' => ∀ id, e.queues s .del id → ¬ e'.queues s .add id

/-! ## The invariant -/

/-- `L` is what was signalled so far, the newest event first. -/
structure Stream (o : List (Nat × Fin 2)) (a : List (Nat × Fin 2 × Nat)) (L : List Event)
    (σ : Switch) : Prop where
  welcome : ∀ s, s < σ.nextSession → ∃ msg ∈ (streamOf s L).getLast?, msg.kind = .welcome
  made : ∀ s, σ.nextSession ≤ s → streamOf s L = []
  add_once : ∀ s id, L.countP (Event.queues s .add id) ≤ 1
  del_once : ∀ s id, L.countP (Event.queues s .del id) ≤ 1
  fresh : ∀ id, σ.nextPair < id → .removed id ∉ L ∧
    ∀ s, L.countP (Event.queues s .add id) = 0 ∧ L.countP (Event.queues s .del id) = 0
  table : ∀ r, σ.InTable r → .removed (σ.pairAt r).id ∉ L ∧
    ∀ s, L.countP (Event.queues s .del (σ.pairAt r).id) = 0
  owed : ∀ x ∈ o, L.countP (Event.queues ((σ.pairAt x.1).side x.2) .del (σ.pairAt x.1).id) = 0
  owedNodup : o.Nodup
  adding : ∀ x ∈ a, x.1 < σ.nextPair ∧
    L.countP (Event.queues ((σ.pairAt x.1).side x.2.1) .add (σ.pairAt x.1).id) = 0
  addingNodup : (a.map fun x => (x.1, x.2.1)).Nodup
  order : L.Pairwise fun e e' => ∀ s id, e.queues s .add id →
    e' ≠ .removed id ∧ ∀ s', ¬ e'.queues s' .del id

structure SamePairs (σ σ' : Switch) : Prop where
  nextSession : σ'.nextSession = σ.nextSession
  nextPair : σ'.nextPair = σ.nextPair
  pairs : σ'.pairs = σ.pairs
  id : ∀ r, (σ'.pairAt r).id = (σ.pairAt r).id
  key : ∀ r, (σ'.pairAt r).key = (σ.pairAt r).key
  side : ∀ r, (σ'.pairAt r).side = (σ.pairAt r).side

theorem SameTables.samePairs {σ σ' : Switch} (h : SameTables σ σ') : SamePairs σ σ' :=
  { h with }

theorem Stream.congr {o : List (Nat × Fin 2)} {a : List (Nat × Fin 2 × Nat)} {L : List Event}
    {σ σ' : Switch} (h : Stream o a L σ) (hs : SamePairs σ σ') : Stream o a L σ' where
  welcome s hlt := h.welcome s (hs.nextSession ▸ hlt)
  made s hge := h.made s (hs.nextSession ▸ hge)
  add_once := h.add_once
  del_once := h.del_once
  fresh id hlt := h.fresh id (hs.nextPair ▸ hlt)
  table r hr := by
    rw [hs.id]
    exact h.table r ((inTable_congr hs.pairs (hs.key r)).mp hr)
  owed x hx := by
    rw [hs.side, hs.id]
    exact h.owed x hx
  owedNodup := h.owedNodup
  adding x hx := by
    rw [hs.nextPair, hs.side, hs.id]
    exact h.adding x hx
  addingNodup := h.addingNodup
  order := h.order

def signals (log : List Event) : List Event := log.filter Event.signal

@[simp] theorem signals_closes (fd : Option Nat) (log : List Event) :
    signals (closes fd ++ log) = signals log := by
  cases fd <;> rfl

theorem signals_append_of_moves {t t' : Session} {es : List Event} (h : Moves t t' es)
    (log : List Event) : signals (es ++ log) = signals log := by
  cases h with
  | take | quit => rfl
  | write o => cases o.fd <;> rfl
  | drain o => exact signals_closes o.fd log

theorem signals_move (σ : Switch) (mv : Move) : signals (σ.move mv).log = signals σ.log := by
  rcases σ.move_eq mv with h | ⟨s, t, es, hmv, h⟩
  · rw [h]
  · rw [h]
    exact signals_append_of_moves hmv σ.log

theorem signals_settle (σ : Switch) (r : Nat) (i : Fin 2) :
    signals (σ.settle r i).log = signals σ.log := by
  rw [settle_eq]
  exact signals_closes _ _

theorem streamOf_cons_queued (s t : Nat) (msg : Message) (L : List Event) :
    streamOf s (.queued t msg :: L) = if t = s then msg :: streamOf s L else streamOf s L := by
  rw [streamOf, filterMap_cons, messageTo]
  split_ifs <;> rfl

section Change

variable {o : List (Nat × Fin 2)} {a : List (Nat × Fin 2 × Nat)} {e : List Nat} {L : List Event}
  {σ : Switch}

theorem Stream.welcome_cons (h : Stream o a L σ) (t : Nat) (msg : Message) (s : Nat)
    (hs : s < σ.nextSession) :
    ∃ m ∈ (streamOf s (.queued t msg :: L)).getLast?, m.kind = .welcome := by
  obtain ⟨m, hm, hkind⟩ := h.welcome s hs
  refine ⟨m, ?_, hkind⟩
  rw [streamOf_cons_queued]
  split_ifs
  · rw [getLast?_cons, Option.mem_some_iff]
    rw [Option.mem_def] at hm
    rw [hm]
    rfl
  · exact hm

theorem Stream.made_cons (h : Stream o a L σ) {t : Nat} (ht : t < σ.nextSession) (msg : Message)
    (s : Nat) (hs : σ.nextSession ≤ s) : streamOf s (.queued t msg :: L) = [] := by
  rw [streamOf_cons_queued, if_neg (by omega)]
  exact h.made s hs

theorem Tables.eq_of_side (ht : Tables o e σ) {r : Nat} (hr : r < σ.nextPair) {i j : Fin 2}
    (hside : (σ.pairAt r).side i = (σ.pairAt r).side j) : i = j := by
  by_contra hne
  have hof : σ.memberOf r i = σ.memberOf r j := by rw [memberOf, memberOf, hside]
  have hdistinct := ht.distinct r hr
  obtain ⟨rfl, rfl⟩ | ⟨rfl, rfl⟩ : (i = 0 ∧ j = 1) ∨ (i = 1 ∧ j = 0) := by omega
  · exact hdistinct hof
  · exact hdistinct hof.symm

/-- A message about a pair that was not queued before. -/
theorem Stream.push {o' : List (Nat × Fin 2)} {r : Nat} {i : Fin 2} (h : Stream o a L σ)
    (ht : Tables o' e σ) (hn : Numbered σ) (ho : o ⊆ o') (hr : r < σ.nextPair) (msg : Message)
    (hvalue : msg.value = (σ.pairAt r).id)
    (hzero : L.countP (queues ((σ.pairAt r).side i) msg.kind (σ.pairAt r).id) = 0)
    (hdel : msg.kind = .del → ¬σ.InTable r ∧ (r, i) ∉ o)
    (hadd : msg.kind = .add → σ.InTable r ∧ (r, i) ∉ a.map fun x => (x.1, x.2.1)) :
    Stream o a (.queued ((σ.pairAt r).side i) msg :: L) σ := by
  have hqueues : ∀ s kind id, queues s kind id (.queued ((σ.pairAt r).side i) msg) = true ↔
      ((σ.pairAt r).side i = s ∧ msg.kind = kind) ∧ r + 1 = id := by
    intro s kind id
    simp [queues, hvalue, hn.id r hr]
  have honce : ∀ s kind id, L.countP (queues s kind id) ≤ 1 →
      (queued ((σ.pairAt r).side i) msg :: L).countP (queues s kind id) ≤ 1 := by
    intro s kind id hle
    rw [countP_cons]
    split_ifs with hq
    · obtain ⟨⟨rfl, rfl⟩, rfl⟩ := (hqueues s kind id).mp hq
      rw [hn.id r hr] at hzero
      omega
    · exact hle
  -- the count of another pair, of another kind or to another session stays zero
  have hkeep : ∀ {s kind r'}, r' < σ.nextPair → L.countP (queues s kind (σ.pairAt r').id) = 0 →
      (msg.kind = kind → r = r' → (σ.pairAt r).side i ≠ s) →
      (queued ((σ.pairAt r).side i) msg :: L).countP
        (queues s kind (σ.pairAt r').id) = 0 := by
    intro s kind r' hr' hcount hne
    rw [countP_cons_of_neg]
    · exact hcount
    · rw [hqueues, hn.id r' hr']
      rintro ⟨⟨hside, hkind⟩, hid⟩
      exact hne hkind (by omega) hside
  exact {
    welcome := h.welcome_cons _ msg
    made := h.made_cons (ht.madeSide r hr i) msg
    add_once := fun s id => honce s .add id (h.add_once s id)
    del_once := fun s id => honce s .del id (h.del_once s id)
    fresh := fun id hlt => by
      obtain ⟨hrem, hcounts⟩ := h.fresh id hlt
      have hne : ∀ s kind, ¬ queues s kind id (.queued ((σ.pairAt r).side i) msg) = true := by
        intro s kind
        rw [hqueues]
        omega
      refine ⟨by simpa using hrem, fun s => ?_⟩
      rw [countP_cons_of_neg (hne s .add), countP_cons_of_neg (hne s .del)]
      exact hcounts s
    table := fun r' hr' => by
      obtain ⟨hrem, hcounts⟩ := h.table r' hr'
      refine ⟨by simpa using hrem, fun s => hkeep (ht.lt_of_inTable hr') (hcounts s) ?_⟩
      rintro hkind rfl
      exact absurd hr' (hdel hkind).1
    owed := fun x hx => by
      refine hkeep (ht.owed x (ho hx)).1 (h.owed x hx) ?_
      obtain ⟨r', j⟩ := x
      rintro hkind rfl hside
      cases ht.eq_of_side hr hside
      exact (hdel hkind).2 hx
    owedNodup := h.owedNodup
    adding := fun x hx => by
      obtain ⟨hlt, hcount⟩ := h.adding x hx
      refine ⟨hlt, hkeep hlt hcount ?_⟩
      obtain ⟨r', j, fd⟩ := x
      rintro hkind rfl hside
      cases ht.eq_of_side hr hside
      exact (hadd hkind).2 (mem_map.mpr ⟨_, hx, rfl⟩)
    addingNodup := h.addingNodup
    order := by
      refine pairwise_cons.mpr ⟨fun e' he' s id hq => ?_, h.order⟩
      obtain ⟨⟨-, hkind⟩, rfl⟩ := (hqueues s .add id).mp hq
      obtain ⟨hrem, hcounts⟩ := h.table r (hadd hkind).1
      rw [hn.id r hr] at hrem hcounts
      exact ⟨fun heq => hrem (heq ▸ he'), fun s' => countP_eq_zero.mp (hcounts s') e' he'⟩ }

theorem Stream.settle {x : Nat × Fin 2} (h : Stream (x :: o) a L σ) : Stream o a L σ :=
  { h with
    owed := fun y hy => h.owed y (mem_cons_of_mem _ hy)
    owedNodup := (nodup_cons.mp h.owedNodup).2 }

theorem Stream.offered {x : Nat × Fin 2 × Nat} (h : Stream o (x :: a) L σ) : Stream o a L σ :=
  { h with
    adding := fun y hy => h.adding y (mem_cons_of_mem _ hy)
    addingNodup := (nodup_cons.mp h.addingNodup).2 }

theorem Stream.pushDel {r : Nat} {i : Fin 2} (h : Stream ((r, i) :: o) a L σ)
    (ht : Tables ((r, i) :: o) e σ) (hn : Numbered σ) :
    Stream o a (.queued ((σ.pairAt r).side i) (σ.delMessage r i) :: L) σ := by
  obtain ⟨hr, hin⟩ := ht.owed _ mem_cons_self
  exact h.settle.push ht hn (subset_cons_self _ _) hr
    (σ.delMessage r i) rfl (h.owed _ mem_cons_self)
    (fun _ => ⟨hin, (nodup_cons.mp h.owedNodup).1⟩) nofun

theorem Stream.pushAdd {r fd : Nat} {i : Fin 2} (h : Stream o ((r, i, fd) :: a) L σ)
    (ht : Tables o e σ) (hn : Numbered σ) (hin : σ.InTable r) :
    Stream o a (.queued ((σ.pairAt r).side i) (σ.addMessage r i) :: L) σ :=
  h.offered.push ht hn (Subset.refl o) (ht.lt_of_inTable hin) (σ.addMessage r i) rfl
    (h.adding _ mem_cons_self).2 nofun
    fun _ => ⟨hin, (nodup_cons.mp h.addingNodup).1⟩

theorem countP_removed (s : Nat) (kind : Kind) (id id' : Nat) (L : List Event) :
    (removed id' :: L).countP (queues s kind id) = L.countP (queues s kind id) :=
  countP_cons_of_neg (by simp [queues])

theorem Stream.unlink (h : Stream o a L σ) (ht : Tables o e σ) (hn : Numbered σ) {r : Nat}
    (hr : σ.InTable r) :
    Stream ((r, 0) :: (r, 1) :: o) a (.removed (σ.pairAt r).id :: L) (σ.unlink r) where
  welcome := h.welcome
  made := h.made
  add_once s id := by
    rw [countP_removed]
    exact h.add_once s id
  del_once s id := by
    rw [countP_removed]
    exact h.del_once s id
  fresh id hlt := by
    have hid := hn.id r (ht.lt_of_inTable hr)
    have hr' := ht.lt_of_inTable hr
    obtain ⟨hrem, hcounts⟩ := h.fresh id hlt
    have hlt' : σ.nextPair < id := hlt
    refine ⟨?_, fun s => by simpa only [countP_removed] using hcounts s⟩
    rw [mem_cons, not_or, removed.injEq]
    exact ⟨by omega, hrem⟩
  table r' hr' := by
    have hold := inTable_of_unlink hr'
    obtain ⟨hrem, hcounts⟩ := h.table r' hold
    change removed (σ.pairAt r').id ∉ removed (σ.pairAt r).id :: L ∧
      ∀ s, (removed (σ.pairAt r).id :: L).countP (queues s .del (σ.pairAt r').id) = 0
    refine ⟨?_, fun s => by simpa only [countP_removed] using hcounts s⟩
    rw [mem_cons, not_or, removed.injEq]
    refine ⟨fun heq => ?_, hrem⟩
    rw [hn.id r (ht.lt_of_inTable hr), hn.id r' (ht.lt_of_inTable hold)] at heq
    cases heq
    exact σ.not_inTable_unlink r hr'
  owed x hx := by
    rw [countP_removed]
    rcases mem_cons.mp hx with rfl | hx
    · exact (h.table r hr).2 _
    · rcases mem_cons.mp hx with rfl | hx
      · exact (h.table r hr).2 _
      · exact h.owed x hx
  owedNodup := by
    have hnot : ∀ i, (r, i) ∉ o := fun i hmem => (ht.owed _ hmem).2 hr
    refine nodup_cons.mpr ⟨?_, nodup_cons.mpr ⟨hnot 1, h.owedNodup⟩⟩
    rw [mem_cons, not_or]
    exact ⟨by simp, hnot 0⟩
  adding x hx := by
    rw [countP_removed]
    exact h.adding x hx
  addingNodup := h.addingNodup
  order := pairwise_cons.mpr ⟨fun e' _ s id hq => by simp [queues] at hq, h.order⟩

theorem Stream.link (h : Stream [] [] L σ) (ht : Tables [] [] σ) (hn : Numbered σ)
    (hlt : σ.nextPair + 1 < 2 ^ 32) (src d s t : Nat) (key : PairKey) (fd fd' : Nat) :
    Stream [] [(σ.nextPair, 0, fd), (σ.nextPair, 1, fd')] L (σ.link src d s t key) := by
  have hid : ((σ.link src d s t key).pairAt σ.nextPair).id = σ.nextPair + 1 := by
    rw [pairAt_link]
    exact newID_eq hn.next hlt
  obtain ⟨hrem, hcounts⟩ := h.fresh (σ.nextPair + 1) (Nat.lt_succ_self _)
  exact {
    welcome := h.welcome
    made := h.made
    add_once := h.add_once
    del_once := h.del_once
    fresh := fun id hid' => h.fresh id (Nat.lt_of_succ_lt hid')
    table := fun r hr => by
      rcases eq_or_ne r σ.nextPair with rfl | hne
      · rw [hid]
        exact ⟨hrem, fun u => (hcounts u).2⟩
      · rw [pairAt_link_of_ne σ src d s t key hne]
        refine h.table r ?_
        rw [Switch.InTable, pairAt_link_of_ne σ src d s t key hne, pairOf_link] at hr
        split_ifs at hr
        · exact absurd (Option.some.inj hr).symm hne
        · exact ht.inTable hr
    owed := nofun
    owedNodup := nodup_nil
    adding := fun x hx => by
      have hx1 : x.1 = σ.nextPair := by
        rcases mem_cons.mp hx with rfl | hx
        · rfl
        · rw [mem_singleton.mp hx]
      rw [hx1, hid]
      exact ⟨Nat.lt_succ_self _, (hcounts _).1⟩
    addingNodup := by simp
    order := h.order }

theorem Stream.greet (h : Stream [] [] L σ) (m : Nat) (msg : Message)
    (hkind : msg.kind = .welcome) :
    Stream [] [] (.queued σ.nextSession msg :: L) (σ.install m) := by
  have hqueues : ∀ s kind id, kind ≠ .welcome →
      queues s kind id (.queued σ.nextSession msg) = false := by
    intro s kind id hne
    simp [queues, hkind, hne.symm]
  have hcount : ∀ s kind id, kind ≠ .welcome →
      (queued σ.nextSession msg :: L).countP (queues s kind id) =
        L.countP (queues s kind id) := fun s kind id hne =>
    countP_cons_of_neg (by simp [hqueues s kind id hne])
  exact {
    welcome := fun s hs => by
      rcases Nat.lt_succ_iff_lt_or_eq.mp hs with hs | rfl
      · exact h.welcome_cons _ msg s hs
      · refine ⟨msg, ?_, hkind⟩
        rw [streamOf_cons_queued, if_pos rfl, h.made _ le_rfl]
        rfl
    made := fun s hs => by
      have hs' : σ.nextSession + 1 ≤ s := hs
      rw [streamOf_cons_queued, if_neg (by omega)]
      exact h.made s (by omega)
    add_once := fun s id => by
      rw [hcount s .add id (by decide)]
      exact h.add_once s id
    del_once := fun s id => by
      rw [hcount s .del id (by decide)]
      exact h.del_once s id
    fresh := fun id hlt => by
      obtain ⟨hrem, hcounts⟩ := h.fresh id hlt
      refine ⟨by simpa using hrem, fun s => ?_⟩
      rw [hcount s .add id (by decide), hcount s .del id (by decide)]
      exact hcounts s
    table := fun r hr => by
      obtain ⟨hrem, hcounts⟩ := h.table r hr
      refine ⟨fun hmem => hrem ?_, fun s => ?_⟩
      · exact (mem_cons.mp hmem).resolve_left (by simp)
      · rw [hcount s .del _ (by decide)]
        exact hcounts s
    owed := nofun
    owedNodup := nodup_nil
    adding := nofun
    addingNodup := nodup_nil
    order := pairwise_cons.mpr
      ⟨fun e' _ s id hq => by simp [hqueues s .add id (by decide)] at hq, h.order⟩ }

theorem samePairs_shut (σ : Switch) (s : Nat) : SamePairs σ (σ.shut s) := by
  rw [shut_eq]
  exact ⟨rfl, rfl, rfl, fun _ => rfl, fun _ => rfl, fun _ => rfl⟩

end Change

/-! ## Every run -/

def Streams (c : Config) : Prop :=
  c.switch.nextPair < 2 ^ 32 → Stream c.owed c.adding (signals c.switch.log) c.switch

theorem stream_of_tear {c c' : Config} (h : Tear c c') (ht : Tables c.owed c.ending c.switch)
    (hn : Numbered c.switch) (hc : Stream c.owed c.adding (signals c.switch.log) c.switch) :
    Stream c'.owed c'.adding (signals c'.switch.log) c'.switch := by
  cases h with
  | move o e a σ mv =>
    rw [signals_move]
    exact hc.congr (same_move σ mv).samePairs
  | tick o e a σ => exact hc.congr (same_tick σ).samePairs
  | unlink o e a σ r h => exact hc.unlink ht hn h
  | settle o e a σ r i =>
    rw [signals_settle]
    exact (hc.congr (same_settle σ r i).samePairs).settle
  | settlePush o e a σ r i =>
    have hpush := (hc.pushDel ht hn).congr
      ((same_settle σ r i).trans
        (same_push _ ((σ.pairAt r).side i) (σ.delMessage r i) none)).samePairs
    have hlog : signals ((σ.settle r i).push ((σ.pairAt r).side i) (σ.delMessage r i) none).log =
        .queued ((σ.pairAt r).side i) (σ.delMessage r i) :: signals σ.log := by
      rw [← signals_settle σ r i]
      rfl
    rw [hlog]
    exact hpush
  | shut o e a σ s =>
    have hlog : (σ.shut s).log = σ.log := by rw [shut_eq]
    rw [hlog]
    exact hc.congr (samePairs_shut σ s)
  | finish => exact hc
  | backoff o e a σ key now => exact hc.congr (same_backoff σ key now).samePairs

theorem streams_of_act {c c' : Config} (h : Act True c c') (hs : Sound c) (hc : Streams c) :
    Streams c' := by
  intro hlt
  cases h with
  | tear h =>
    have hlt' := (torn_of_tear h).nextPair ▸ hlt
    exact stream_of_tear h hs.tables (hs.numbered hlt') (hc hlt')
  | enroll | strike =>
    exact (hc hlt).congr ⟨rfl, rfl, rfl, fun _ => rfl, fun _ => rfl, fun _ => rfl⟩
  | greet σ m =>
    exact (Stream.greet (hc hlt) m ((σ.install m).welcomeMessage m) rfl).congr
      (same_push _ _ _ _).samePairs
  | link σ src dst now d a b =>
    have hlt' := Nat.lt_of_succ_lt hlt
    exact Stream.link (hc hlt') hs.tables (hs.numbered hlt') hlt src d a b _ _ _
  | add e a σ r i fd h =>
    exact ((hc hlt).pushAdd hs.tables (hs.numbered hlt) (h trivial)).congr
      (same_add σ fd _ _ _).samePairs
  | drop e a σ r i fd =>
    have hsame := (same_drop σ fd).samePairs
    exact ((hc hlt).congr hsame).offered
  | giveUp =>
    exact { hc hlt with
      adding := nofun
      addingNodup := nodup_nil }
  | accept σ r i =>
    have hsame := same_accept σ r i
    have hlog : signals (σ.accept r i).log = signals σ.log := by
      rw [accept, closeFD_eq]
      exact signals_closes _ _
    change Stream [] [] (signals (σ.accept r i).log) (σ.accept r i)
    rw [hlog]
    exact (hc (hsame.nextPair ▸ hlt)).congr hsame.samePairs
  | stats σ m tx rx =>
    exact (hc hlt).congr (same_stats σ m tx rx).samePairs
  | retire σ s =>
    exact (hc hlt).congr (same_retire σ s).samePairs

theorem streams_new : Streams (.free newPeering) := fun _ =>
  { welcome := nofun
    made := fun _ _ => rfl
    add_once := fun _ _ => Nat.zero_le 1
    del_once := fun _ _ => Nat.zero_le 1
    fresh := fun _ _ => ⟨not_mem_nil, fun _ => ⟨rfl, rfl⟩⟩
    table := nofun
    owed := nofun
    owedNodup := nodup_nil
    adding := nofun
    addingNodup := nodup_nil
    order := List.Pairwise.nil }

theorem streams_run (env : Env) {ops : List Op}
    (hroom : AllSteps (step env) Roomy newPeering ops) :
    Streams (.free (run (step env) newPeering ops)) := by
  refine (run_invariant_of_allSteps (I := fun σ => Sound (.free σ) ∧ Streams (.free σ))
    (fun σ op h hop => ?_) ⟨sound_new, streams_new⟩ hroom).2
  exact (acts_step env True h.1.tables op fun _ => hop).invariant
    (I := fun c => Sound c ∧ Streams c)
    (fun _ _ hact hc => ⟨sound_of_act hact hc.1, streams_of_act hact hc.1 hc.2⟩) h

theorem streamOf_signals (s : Nat) (log : List Event) :
    streamOf s (signals log) = streamOf s log := by
  rw [streamOf, streamOf, signals, filterMap_filter]
  refine filterMap_congr fun e _ => ?_
  cases e <;> rfl

theorem countP_signals (s : Nat) (kind : Kind) (id : Nat) (log : List Event) :
    (signals log).countP (queues s kind id) = log.countP (queues s kind id) := by
  rw [signals, countP_filter]
  refine countP_congr fun e _ => ?_
  cases e <;> simp [queues, signal]

theorem Stream.orderly {σ : Switch} (h : Stream [] [] (signals σ.log) σ) (s : Nat) :
    Orderly s σ.history := by
  have horder : σ.log.Pairwise fun e e' => ∀ s id, e.queues s .add id →
      e' ≠ .removed id ∧ ∀ s', ¬ e'.queues s' .del id := by
    refine (pairwise_filter.mp h.order).imp fun {e e'} hee' t id hq => ?_
    have he : e.signal = true := by cases e <;> simp [queues, signal] at hq ⊢
    refine ⟨fun heq => ?_, fun t' hq' => ?_⟩
    · exact (hee' he (by rw [heq]; rfl) t id hq).1 heq
    · have he' : e'.signal = true := by cases e' <;> simp [queues, signal] at hq' ⊢
      exact (hee' he he' t id hq).2 t' hq'
  refine ⟨fun msg hmsg => ?_, fun id => ?_, fun id => ?_, ?_, ?_⟩
  · rw [history, streamOf, filterMap_reverse, head?_reverse] at hmsg
    rcases Nat.lt_or_ge s σ.nextSession with hlt | hge
    · obtain ⟨m, hm, hkind⟩ := h.welcome s hlt
      rw [streamOf_signals, streamOf, Option.mem_def] at hm
      rw [hm, Option.mem_some_iff] at hmsg
      exact hmsg ▸ hkind
    · have hnil := h.made s hge
      rw [streamOf_signals, streamOf] at hnil
      rw [hnil] at hmsg
      cases hmsg
  · rw [history, countP_reverse, ← countP_signals]
    exact h.add_once s id
  · rw [history, countP_reverse, ← countP_signals]
    exact h.del_once s id
  · refine pairwise_reverse.mpr (horder.imp fun {e e'} hee' id heq hq => ?_)
    exact (hee' s id hq).1 heq
  · refine pairwise_reverse.mpr (horder.imp fun {e e'} hee' id hdel hq => ?_)
    exact (hee' s id hq).2 s hdel

/-- In a run that makes fewer than `2 ^ 32` pairs, and in which no pair is made while
the queue of the session it is first offered to is full, every session gets a
welcome and then each pair at most once, before its removal. -/
theorem control_stream_orderly (env : Env) (ops : List Op)
    (hroom : AllSteps (step env) Roomy newPeering ops)
    (hlt : (run (step env) newPeering ops).nextPair < 2 ^ 32) (s : Nat) :
    Orderly s (run (step env) newPeering ops).history :=
  Stream.orderly (streams_run env hroom hlt) s

/-- A pair that is made, acknowledged by both sides and then left idle. -/
def pairAndLeave : List Op :=
  pairUp ++ [.receive 0 { kind := .ack, flags := 1, epoch := 1, value := 1 } 0,
    .receive 1 { kind := .ack, flags := 1, epoch := 2, value := 1 } 0,
    .receive 0 { kind := .idle, epoch := 1, value := 1 } 0]

theorem control_stream_orderly_pairAndLeave :
    (streamOf 0 (run (step plainEnv) newPeering pairAndLeave).history).map Message.kind =
        [.welcome, .add, .del] ∧
      Orderly 0 (run (step plainEnv) newPeering pairAndLeave).history :=
  ⟨by decide +kernel, control_stream_orderly plainEnv pairAndLeave (by decide +kernel)
    (by decide +kernel) 0⟩

/-- The first machine's monitor reads nothing.  It is paired with the second one until
its queue is full, and then with the third. -/
def overflow : List Op :=
  [.register 1 1, .register 2 2, .register 3 3, .session 0 (helloOf 1), .session 1 (helloOf 2),
    .session 2 (helloOf 3)] ++
    (List.range 63).flatMap (fun k =>
      [.observe 0 2 0 true (fun _ => true) 0,
        .receive 1 { kind := .idle, epoch := 2, value := k + 1 } 0,
        .move (.take 1), .move (.write 1 true), .move (.take 1), .move (.write 1 true)]) ++
    [.observe 0 2 0 true (fun _ => true) 0, .observe 0 3 0 true (fun _ => true) 0]

/-- The third machine is told to add a pair after it was told to remove it. -/
theorem control_stream_overflow :
    ¬ Orderly 2 (run (step plainEnv) newPeering overflow).history := by
  intro h
  have hsub : [Event.removed 65,
      .queued 2 { kind := .add, epoch := 3, value := 65, mac := 1, ip := 1 }].Sublist
        (run (step plainEnv) newPeering overflow).history := by
    decide +kernel
  have hpair := pairwise_pair.mp (h.add_live.sublist hsub)
  exact hpair 65 rfl (by decide)

end Jerboa.Peer
