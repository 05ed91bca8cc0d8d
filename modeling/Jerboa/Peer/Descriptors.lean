import Jerboa.Peer.Stream

/-!
# The descriptors of the peer switch

Each descriptor the switch makes has one owner at a time: the pair that holds an end
of a link, or the session whose queue or writer has it.  It is used only by its
owner, and closed when the owner lets go of it.  As for the control stream, a pair
that is removed while it is set up breaks this: its closed descriptor is duplicated.
-/

namespace Jerboa.Peer

open List Function Lib.Run Event Session

def Event.makes : Event → Option Nat
  | .opened fd => some fd
  | .duped _ dup => some dup
  | _ => none

def Event.uses : Event → Option Nat
  | .duped fd _ => some fd
  | .sent fd => some fd
  | .closed fd => some fd
  | _ => none

/-- The descriptors a session has in its queue and in its writer's hands. -/
def Session.fds (t : Session) : List Nat :=
  t.out.filterMap PeerOut.fd ++
    match t.writer with
    | .writing o => o.fd.toList
    | _ => []

inductive Owner
  | session (s : Nat)
  | pair (r : Nat) (i : Fin 2)

def Switch.Holds (σ : Switch) (fd : Nat) : Owner → Prop
  | .session s => fd ∈ (σ.sessionAt s).fds
  | .pair r i => σ.InTable r ∧ (σ.pairAt r).held i = some fd

def Switch.Settled (σ : Switch) : Prop := σ.pairRefs = [] ∧ ∀ s, (σ.sessionAt s).fds = []

/-- Every descriptor the switch made is closed once, or has one owner and is not
closed, and none is used after it was closed. -/
structure WellOwned (σ : Switch) : Prop where
  no_use_after_close : σ.history.Pairwise fun e e' => ∀ fd, e = .closed fd → e'.uses ≠ some fd
  once : ∀ e ∈ σ.history, ∀ fd, e.makes = some fd →
    (σ.history.count (.closed fd) = 1 ∧ ∀ w, ¬ σ.Holds fd w) ∨
      (σ.history.count (.closed fd) = 0 ∧ ∃! w, σ.Holds fd w)
  all_closed : σ.Settled → ∀ e ∈ σ.history, ∀ fd, e.makes = some fd →
    σ.history.count (.closed fd) = 1

/-! ## The invariant -/

structure Owners (o : List (Nat × Fin 2)) (a : List (Nat × Fin 2 × Nat)) (σ : Switch)
    (owner : Nat → Option Owner) : Prop where
  session : ∀ s fd, fd ∈ (σ.sessionAt s).fds ↔ owner fd = some (.session s)
  pair : ∀ r i fd, (σ.pairAt r).held i = some fd ↔ owner fd = some (.pair r i)
  nodup : ∀ s, (σ.sessionAt s).fds.Nodup
  unmade : ∀ s, σ.nextSession ≤ s →
    (σ.sessionAt s).out = [] ∧ (σ.sessionAt s).writer = .draining
  fresh : ∀ fd, σ.nextFD ≤ fd → owner fd = none ∧
    ∀ e ∈ σ.log, e.makes ≠ some fd ∧ e.uses ≠ some fd
  live : ∀ fd, (∃ w, owner fd = some w) ↔
    (∃ e ∈ σ.log, e.makes = some fd) ∧ .closed fd ∉ σ.log
  inTable : ∀ r i fd, (σ.pairAt r).held i = some fd → σ.InTable r ∨ (r, i) ∈ o
  adding : ∀ x ∈ a, σ.InTable x.1 → (σ.pairAt x.1).held x.2.1 = some x.2.2
  order : σ.log.Pairwise fun e e' => ∀ fd, e' = .closed fd → e.uses ≠ some fd

section Change

variable {o : List (Nat × Fin 2)} {a : List (Nat × Fin 2 × Nat)} {e : List Nat} {σ : Switch}
  {owner : Nat → Option Owner}

variable {w : Owner} {fd : Nat}

section

variable (h : Owners o a σ owner)
include h

theorem Owners.not_closed (hw : owner fd = some w) :
    .closed fd ∉ σ.log :=
  ((h.live fd).mp ⟨w, hw⟩).2

theorem Owners.lt_nextFD (hw : owner fd = some w) :
    fd < σ.nextFD := by
  by_contra hge
  rw [(h.fresh fd (Nat.le_of_not_lt hge)).1] at hw
  cases hw

theorem Owners.congr {o' : List (Nat × Fin 2)} {σ' : Switch}
    (hout : ∀ s, (σ'.sessionAt s).out = (σ.sessionAt s).out)
    (hwriter : ∀ s, (σ'.sessionAt s).writer = (σ.sessionAt s).writer)
    (hsession : σ'.nextSession = σ.nextSession)
    (hheld : ∀ r, (σ'.pairAt r).held = (σ.pairAt r).held) (hfd : σ'.nextFD = σ.nextFD)
    (hlog : σ'.log = σ.log)
    (hin : ∀ r i, σ.InTable r ∨ (r, i) ∈ o → σ'.InTable r ∨ (r, i) ∈ o')
    (hin' : ∀ r, σ'.InTable r → σ.InTable r) : Owners o' a σ' owner := by
  have hfds : ∀ s, (σ'.sessionAt s).fds = (σ.sessionAt s).fds := fun s => by
    rw [fds, fds, hout, hwriter]
  exact {
    session := fun s fd => by
      rw [hfds]
      exact h.session s fd
    pair := fun r i fd => by
      rw [hheld]
      exact h.pair r i fd
    nodup := fun s => by
      rw [hfds]
      exact h.nodup s
    unmade := fun s hs => by
      rw [hout, hwriter]
      exact h.unmade s (hsession ▸ hs)
    fresh := fun fd hge => by
      rw [hlog]
      exact h.fresh fd (hfd ▸ hge)
    live := fun fd => by
      rw [hlog]
      exact h.live fd
    inTable := fun r i fd hr => hin r i (h.inTable r i fd (hheld r ▸ hr))
    adding := fun x hx hr => by
      rw [hheld]
      exact h.adding x hx (hin' _ hr)
    order := by
      rw [hlog]
      exact h.order }

theorem Owners.log_close (hw : owner fd = some w) {es : List Event}
    (hes : es = closes (some fd) ∨ es = writes (some fd)) :
    (∀ fd', σ.nextFD ≤ fd' → update owner fd none fd' = none ∧
        ∀ e ∈ es ++ σ.log, e.makes ≠ some fd' ∧ e.uses ≠ some fd') ∧
      (∀ fd', (∃ w, update owner fd none fd' = some w) ↔
        (∃ e ∈ es ++ σ.log, e.makes = some fd') ∧ .closed fd' ∉ es ++ σ.log) ∧
      (es ++ σ.log).Pairwise fun e e' => ∀ fd', e' = .closed fd' → e.uses ≠ some fd' := by
  have hlt := h.lt_nextFD hw
  have hnot := h.not_closed hw
  have hmakes : ∀ e ∈ es, e.makes = none ∧ e.uses = some fd := by
    rcases hes with rfl | rfl <;> simp [closes, writes, makes, uses]
  have hmem : ∀ fd', .closed fd' ∈ es ↔ fd' = fd := by
    rcases hes with rfl | rfl <;> simp [closes, writes]
  refine ⟨fun fd' hge => ⟨?_, fun e he => ?_⟩, fun fd' => ?_, ?_⟩
  · rw [update_of_ne (by omega)]
    exact (h.fresh fd' hge).1
  · rcases mem_append.mp he with he | he
    · rw [(hmakes e he).1, (hmakes e he).2]
      refine ⟨by simp, ?_⟩
      rw [Ne, Option.some.injEq]
      omega
    · exact (h.fresh fd' hge).2 e he
  · rcases eq_or_ne fd' fd with rfl | hne
    · simp [(hmem fd').mpr rfl]
    · rw [update_of_ne hne, h.live fd', mem_append, hmem]
      refine and_congr ⟨?_, ?_⟩ (by simp [hne])
      · rintro ⟨e, he, hm⟩
        exact ⟨e, mem_append_right es he, hm⟩
      · rintro ⟨e, he, hm⟩
        rcases mem_append.mp he with he | he
        · rw [(hmakes e he).1] at hm
          cases hm
        · exact ⟨e, he, hm⟩
  · refine pairwise_append.mpr ⟨?_, h.order, fun e he e' he' fd' heq huse => ?_⟩
    · rcases hes with rfl | rfl <;> simp [closes, writes, uses]
    · rw [(hmakes e he).2, Option.some.injEq] at huse
      subst huse
      exact hnot (heq ▸ he')

theorem Owners.update_session (s : Nat) (t : Session)
    (hperm : (σ.sessionAt s).fds.Perm t.fds)
    (hs : σ.nextSession ≤ s → t.out = [] ∧ t.writer = .draining) :
    Owners o a { σ with sessionAt := update σ.sessionAt s t } owner :=
  { h with
    session := fun s' fd => by
      rcases eq_or_ne s' s with rfl | hne
      · dsimp only
        rw [update_self, ← hperm.mem_iff]
        exact h.session s' fd
      · dsimp only
        rw [update_of_ne hne]
        exact h.session s' fd
    nodup := fun s' => by
      rcases eq_or_ne s' s with rfl | hne
      · dsimp only
        rw [update_self, ← hperm.nodup_iff]
        exact h.nodup s'
      · dsimp only
        rw [update_of_ne hne]
        exact h.nodup s'
    unmade := fun s' hs' => by
      rcases eq_or_ne s' s with rfl | hne
      · dsimp only
        rw [update_self]
        exact hs hs'
      · dsimp only
        rw [update_of_ne hne]
        exact h.unmade s' hs' }

theorem Owners.release_session (s : Nat) (t : Session) {fd : Option Nat}
    {es : List Event} (hes : es = closes fd ∨ es = writes fd)
    (hperm : (σ.sessionAt s).fds.Perm (fd.toList ++ t.fds))
    (hs : σ.nextSession ≤ s → t.out = [] ∧ t.writer = .draining) :
    ∃ owner', Owners o a
      { σ with sessionAt := update σ.sessionAt s t, log := es ++ σ.log } owner' := by
  cases fd with
  | none =>
    have hnil : es = [] := by rcases hes with rfl | rfl <;> rfl
    subst hnil
    exact ⟨owner, h.update_session s t (by simpa using hperm) hs⟩
  | some fd =>
    have hperm' : (σ.sessionAt s).fds.Perm (fd :: t.fds) := hperm
    have hw : owner fd = some (.session s) :=
      (h.session s fd).mp (hperm'.mem_iff.mpr mem_cons_self)
    have hnodup := hperm'.nodup_iff.mp (h.nodup s)
    obtain ⟨hfresh, hlive, horder⟩ := h.log_close hw hes
    refine ⟨update owner fd none, ?_, fun r i fd' => ?_, fun s' => ?_, fun s' hs' => ?_,
      hfresh, hlive, h.inTable, h.adding, horder⟩
    · intro s' fd'
      dsimp only
      rcases eq_or_ne fd' fd with rfl | hne
      · rw [update_self]
        refine iff_of_false ?_ (by simp)
        rcases eq_or_ne s' s with rfl | hne'
        · rw [update_self]
          exact (nodup_cons.mp hnodup).1
        · rw [update_of_ne hne', h.session s' fd', hw]
          simp [hne'.symm]
      · rw [update_of_ne hne]
        rcases eq_or_ne s' s with rfl | hne'
        · rw [update_self, ← h.session s' fd', hperm'.mem_iff]
          simp [hne]
        · rw [update_of_ne hne']
          exact h.session s' fd'
    · rcases eq_or_ne fd' fd with rfl | hne
      · rw [update_self, h.pair r i fd', hw]
        simp
      · rw [update_of_ne hne]
        exact h.pair r i fd'
    · dsimp only
      rcases eq_or_ne s' s with rfl | hne
      · rw [update_self]
        exact (nodup_cons.mp hnodup).2
      · rw [update_of_ne hne]
        exact h.nodup s'
    · dsimp only
      rcases eq_or_ne s' s with rfl | hne
      · rw [update_self]
        exact hs hs'
      · rw [update_of_ne hne]
        exact h.unmade s' hs'

theorem Owners.release_pair {o' : List (Nat × Fin 2)} {σ' : Switch} (r : Nat)
    (i : Fin 2) (hsession : σ'.sessionAt = σ.sessionAt) (hnext : σ'.nextSession = σ.nextSession)
    (hfd : σ'.nextFD = σ.nextFD) (hlog : σ'.log = closes ((σ.pairAt r).held i) ++ σ.log)
    (hheld : ∀ r', (σ'.pairAt r').held =
      if r' = r then update (σ.pairAt r).held i none else (σ.pairAt r').held)
    (hin : ∀ r', σ'.InTable r' ↔ σ.InTable r') (ho : ∀ x ∈ o, x ≠ (r, i) → x ∈ o')
    (ha : ∀ x ∈ a, σ.InTable x.1 → (x.1, x.2.1) ≠ (r, i)) :
    ∃ owner', Owners o' a σ' owner' := by
  have hheld' : ∀ r' i', (r', i') ≠ (r, i) → (σ'.pairAt r').held i' = (σ.pairAt r').held i' := by
    intro r' i' hne
    rw [hheld]
    split_ifs with heq
    · subst heq
      exact update_of_ne (fun hi => hne (by rw [hi])) _ _
    · rfl
  have hnone : (σ'.pairAt r).held i = none := by
    rw [hheld, if_pos rfl, update_self]
  have hinTable : ∀ r' i' fd, (σ'.pairAt r').held i' = some fd → σ'.InTable r' ∨ (r', i') ∈ o' := by
    intro r' i' fd hfd'
    have hne : (r', i') ≠ (r, i) := by
      intro heq
      cases heq
      rw [hnone] at hfd'
      cases hfd'
    rw [hin]
    exact (h.inTable r' i' fd (hheld' r' i' hne ▸ hfd')).imp_right fun hmem => ho _ hmem hne
  have hadding : ∀ x ∈ a, σ'.InTable x.1 → (σ'.pairAt x.1).held x.2.1 = some x.2.2 := by
    intro x hx hr
    have hr' := (hin x.1).mp hr
    rw [hheld' x.1 x.2.1 (ha x hx hr')]
    exact h.adding x hx hr'
  have hnodup : ∀ s, (σ'.sessionAt s).fds.Nodup := by
    rw [hsession]
    exact h.nodup
  have hunmade : ∀ s, σ'.nextSession ≤ s →
      (σ'.sessionAt s).out = [] ∧ (σ'.sessionAt s).writer = .draining := by
    rw [hsession, hnext]
    exact h.unmade
  rcases hf : (σ.pairAt r).held i with _ | fd
  · rw [hf] at hlog
    have hlog' : σ'.log = σ.log := hlog
    refine ⟨owner, ?_, fun r' i' fd => ?_, hnodup, hunmade, ?_, ?_, hinTable, hadding, ?_⟩
    · rw [hsession]
      exact h.session
    · rcases eq_or_ne (r', i') (r, i) with heq | hne
      · cases heq
        rw [hnone, ← h.pair r i fd, hf]
      · rw [hheld' r' i' hne]
        exact h.pair r' i' fd
    · rw [hfd, hlog']
      exact h.fresh
    · rw [hlog']
      exact h.live
    · rw [hlog']
      exact h.order
  · have hw : owner fd = some (.pair r i) := (h.pair r i fd).mp hf
    rw [hf] at hlog
    obtain ⟨hfresh, hlive, horder⟩ := h.log_close hw (.inl rfl)
    rw [← hlog] at hfresh hlive horder
    refine ⟨update owner fd none, fun s fd' => ?_, fun r' i' fd' => ?_, hnodup, hunmade, ?_,
      hlive, hinTable, hadding, horder⟩
    · rw [hsession]
      rcases eq_or_ne fd' fd with rfl | hne
      · rw [update_self, h.session s fd', hw]
        simp
      · rw [update_of_ne hne]
        exact h.session s fd'
    · rcases eq_or_ne (r', i') (r, i) with heq | hne
      · cases heq
        rw [hnone]
        refine iff_of_false (by simp) fun hown => ?_
        rcases eq_or_ne fd' fd with rfl | hne
        · simp at hown
        · rw [update_of_ne hne, ← h.pair r i fd', hf, Option.some.injEq] at hown
          exact hne hown.symm
      · rw [hheld' r' i' hne, h.pair r' i' fd']
        rcases eq_or_ne fd' fd with rfl | hne'
        · rw [update_self, hw]
          refine iff_of_false (fun heq => hne ?_) (by simp)
          cases heq
          rfl
        · rw [update_of_ne hne']
    · rw [hfd]
      exact hfresh

theorem Owners.move (mv : Move) :
    ∃ owner', Owners o a (σ.move mv) owner' := by
  rcases σ.move_eq mv with heq | ⟨s, t, es, hmv, heq⟩
  · rw [heq]
    exact ⟨owner, h⟩
  · rw [heq]
    have hunmade := h.unmade s
    cases hmv with
    | take q rest hw ho =>
      refine ⟨owner, h.update_session s _ ?_ fun hs => ?_⟩
      · rw [fds, fds, hw, ho]
        rcases hq : q.fd with _ | fd
        · simp [hq]
        · simpa [hq] using (perm_append_singleton fd (rest.filterMap PeerOut.fd)).symm
      · rw [(hunmade hs).2] at hw
        cases hw
    | write q ok hw =>
      refine h.release_session s _ (.inr rfl) ?_ fun hs => ?_
      · rw [fds, fds, hw]
        cases ok <;> simpa using perm_append_comm
      · rw [(hunmade hs).2] at hw
        cases hw
    | quit hw =>
      refine ⟨owner, h.update_session s _ ?_ fun hs => ?_⟩
      · rw [fds, fds, hw]
      · rw [(hunmade hs).2] at hw
        cases hw
    | drain q rest hw ho =>
      refine h.release_session s _ (.inl rfl) ?_ fun hs => ?_
      · rw [fds, fds, hw, ho]
        rcases hq : q.fd with _ | fd <;> simp [hq]
      · rw [(hunmade hs).1] at ho
        cases ho

theorem Owners.note {e : Event} (hm : e.makes = none) (hu : e.uses = none) :
    Owners o a (σ.note e) owner :=
  { h with
    fresh := fun fd hge => by
      refine ⟨(h.fresh fd hge).1, fun e' he' => ?_⟩
      rcases mem_cons.mp he' with rfl | he'
      · rw [hm, hu]
        simp
      · exact (h.fresh fd hge).2 e' he'
    live := fun fd => by
      have hne : closed fd ≠ e := by
        rintro rfl
        cases hu
      rw [h.live fd]
      simp [Switch.note, hm, hne]
    order := by
      refine pairwise_cons.mpr ⟨fun e' _ fd _ huse => ?_, h.order⟩
      rw [hu] at huse
      cases huse }

theorem Owners.push_none {s : Nat} (hs : s < σ.nextSession)
    (msg : Message) : Owners o a (σ.push s msg none) owner := by
  refine Owners.note (σ := σ.setSession s _) ?_ rfl rfl
  refine h.update_session s _ ?_ fun hge => absurd hge (Nat.not_le.mpr hs)
  simp [fds]

theorem Owners.order_dup (hw : owner fd = some w) (dup : Nat) :
    (duped fd dup :: σ.log).Pairwise fun e e' => ∀ fd', e' = .closed fd' → e.uses ≠ some fd' := by
  refine pairwise_cons.mpr ⟨fun e' he' fd' heq huse => ?_, h.order⟩
  have hfd : fd = fd' := by simpa [uses] using huse
  subst hfd
  exact h.not_closed hw (heq ▸ he')

theorem Owners.push_dup (hw : owner fd = some w) {s : Nat}
    (hs : s < σ.nextSession) (msg : Message) :
    Owners o a ((σ.dupFD fd).push s msg (some σ.nextFD))
      (update owner σ.nextFD (some (.session s))) := by
  have hlt := h.lt_nextFD hw
  obtain ⟨hnew, hlogs⟩ := h.fresh σ.nextFD le_rfl
  have hnotIn : ∀ s', σ.nextFD ∉ (σ.sessionAt s').fds := by
    intro s' hmem
    rw [h.session, hnew] at hmem
    cases hmem
  set t : Session := { σ.sessionAt s with out := (σ.sessionAt s).out ++ [⟨msg, some σ.nextFD⟩] }
  have hperm : t.fds.Perm (σ.nextFD :: (σ.sessionAt s).fds) := by
    simp only [t, fds, filterMap_append, filterMap_cons, filterMap_nil,
      append_assoc, singleton_append]
    exact perm_middle
  refine Owners.note (e := .queued s msg) (σ := (σ.dupFD fd).setSession s _) ?_ rfl rfl
  refine ⟨fun s' fd' => ?_, fun r i fd' => ?_, fun s' => ?_, fun s' hs' => ?_, fun fd' hge => ?_,
    fun fd' => ?_, h.inTable, h.adding, h.order_dup hw σ.nextFD⟩
  · change fd' ∈ (update σ.sessionAt s t s').fds ↔ _
    rcases eq_or_ne s' s with rfl | hne
    · rw [update_self, hperm.mem_iff, mem_cons, h.session s' fd']
      rcases eq_or_ne fd' σ.nextFD with rfl | hne'
      · simp
      · simp [hne']
    · rw [update_of_ne hne]
      rcases eq_or_ne fd' σ.nextFD with rfl | hne'
      · rw [update_self]
        exact iff_of_false (hnotIn s') (by simp [hne.symm])
      · rw [update_of_ne hne']
        exact h.session s' fd'
  · change (σ.pairAt r).held i = some fd' ↔ _
    rw [h.pair r i fd']
    rcases eq_or_ne fd' σ.nextFD with rfl | hne'
    · rw [update_self, hnew]
      simp
    · rw [update_of_ne hne']
  · change (update σ.sessionAt s t s').fds.Nodup
    rcases eq_or_ne s' s with rfl | hne
    · rw [update_self, hperm.nodup_iff, nodup_cons]
      exact ⟨hnotIn s', h.nodup s'⟩
    · rw [update_of_ne hne]
      exact h.nodup s'
  · change (update σ.sessionAt s t s').out = [] ∧ _
    have hs'' : σ.nextSession ≤ s' := hs'
    have hne : s' ≠ s := by omega
    change _ ∧ (update σ.sessionAt s t s').writer = .draining
    rw [update_of_ne hne]
    exact h.unmade s' hs''
  · have hge' : σ.nextFD + 1 ≤ fd' := hge
    rw [update_of_ne (by omega)]
    refine ⟨(h.fresh fd' (by omega)).1, fun e' he' => ?_⟩
    rcases mem_cons.mp he' with rfl | he'
    · simp only [makes, uses, ne_eq, Option.some.injEq]
      omega
    · exact (h.fresh fd' (by omega)).2 e' he'
  · change _ ↔ (∃ e ∈ duped fd σ.nextFD :: σ.log, e.makes = some fd') ∧
      .closed fd' ∉ duped fd σ.nextFD :: σ.log
    rcases eq_or_ne fd' σ.nextFD with rfl | hne'
    · rw [update_self]
      refine iff_of_true ⟨_, rfl⟩ ⟨⟨_, mem_cons_self, rfl⟩, fun hmem => ?_⟩
      rcases mem_cons.mp hmem with heq | hmem
      · cases heq
      · exact (hlogs _ hmem).2 rfl
    · rw [update_of_ne hne', h.live fd']
      simp [makes, hne'.symm]

theorem Owners.drop_dup (hw : owner fd = some w) :
    Owners o a ((σ.dupFD fd).closeFD (some σ.nextFD)) owner := by
  have hlt := h.lt_nextFD hw
  obtain ⟨hnew, hlogs⟩ := h.fresh σ.nextFD le_rfl
  refine { h with fresh := fun fd' hge => ?_, live := fun fd' => ?_, order := ?_ }
  · have hge' : σ.nextFD + 1 ≤ fd' := hge
    refine ⟨(h.fresh fd' (by omega)).1, fun e' he' => ?_⟩
    rcases mem_cons.mp he' with rfl | he'
    · simp only [makes, uses, ne_eq, Option.some.injEq]
      exact ⟨by simp, by omega⟩
    · rcases mem_cons.mp he' with rfl | he'
      · simp only [makes, uses, ne_eq, Option.some.injEq]
        omega
      · exact (h.fresh fd' (by omega)).2 e' he'
  · change _ ↔ (∃ e ∈ closed σ.nextFD :: duped fd σ.nextFD :: σ.log, e.makes = some fd') ∧
      .closed fd' ∉ closed σ.nextFD :: duped fd σ.nextFD :: σ.log
    rcases eq_or_ne fd' σ.nextFD with rfl | hne
    · rw [hnew]
      simp
    · rw [h.live fd']
      simp [makes, hne.symm, hne]
  · refine pairwise_cons.mpr ⟨fun e' he' fd' heq huse => ?_, h.order_dup hw σ.nextFD⟩
    have hfd : σ.nextFD = fd' := by simpa [uses] using huse
    subst hfd
    subst heq
    rcases mem_cons.mp he' with heq | hmem
    · cases heq
    · exact (hlogs _ hmem).2 rfl

end

theorem Owners.link (h : Owners [] [] σ owner) (ht : Tables [] [] σ) (src d s t : Nat)
    {key : PairKey} (hkey : σ.pairOf key = none) :
    ∃ owner', Owners [] [(σ.nextPair, 0, σ.nextFD), (σ.nextPair, 1, σ.nextFD + 1)]
      (σ.link src d s t key) owner' := by
  have hnone : ∀ i, (σ.pairAt σ.nextPair).held i = none := by
    intro i
    rcases hf : (σ.pairAt σ.nextPair).held i with _ | fd
    · rfl
    · have hin := (h.inTable _ _ _ hf).resolve_right not_mem_nil
      exact absurd (ht.lt_of_inTable hin) (Nat.lt_irrefl _)
  obtain ⟨hnew0, hlogs0⟩ := h.fresh σ.nextFD le_rfl
  obtain ⟨hnew1, hlogs1⟩ := h.fresh (σ.nextFD + 1) (Nat.le_succ _)
  set owner' := update (update owner σ.nextFD (some (.pair σ.nextPair 0)))
    (σ.nextFD + 1) (some (.pair σ.nextPair 1)) with howner
  have h0 : owner' σ.nextFD = some (.pair σ.nextPair 0) := by simp [howner]
  have h1 : owner' (σ.nextFD + 1) = some (.pair σ.nextPair 1) := by simp [howner]
  have hold : ∀ fd, fd ≠ σ.nextFD → fd ≠ σ.nextFD + 1 → owner' fd = owner fd := by
    intro fd hne hne'
    simp [howner, hne, hne']
  refine ⟨owner', fun s' fd => ?_, fun r i fd => ?_, h.nodup, h.unmade, fun fd hge => ?_,
    fun fd => ?_, fun r i fd hr => ?_, fun x hx _ => ?_, ?_⟩
  · change fd ∈ (σ.sessionAt s').fds ↔ _
    rw [h.session s' fd]
    rcases eq_or_ne fd σ.nextFD with rfl | hne
    · simp [hnew0, h0]
    · rcases eq_or_ne fd (σ.nextFD + 1) with rfl | hne'
      · simp [hnew1, h1]
      · rw [hold fd hne hne']
  · rcases eq_or_ne r σ.nextPair with rfl | hr
    · rw [pairAt_link]
      dsimp only
      constructor
      · intro heq
        split_ifs at heq with hi
        · cases heq
          rw [hi]
          exact h0
        · cases heq
          rw [show i = 1 by omega]
          exact h1
      · intro heq
        rcases eq_or_ne fd σ.nextFD with rfl | hne
        · rw [h0] at heq
          cases heq
          rfl
        · rcases eq_or_ne fd (σ.nextFD + 1) with rfl | hne'
          · rw [h1] at heq
            cases heq
            rfl
          · rw [hold fd hne hne', ← h.pair, hnone] at heq
            cases heq
    · rw [pairAt_link_of_ne σ src d s t key hr, h.pair r i fd]
      rcases eq_or_ne fd σ.nextFD with rfl | hne
      · simp [hnew0, h0, hr.symm]
      · rcases eq_or_ne fd (σ.nextFD + 1) with rfl | hne'
        · simp [hnew1, h1, hr.symm]
        · rw [hold fd hne hne']
  · have hge' : σ.nextFD + 2 ≤ fd := hge
    rw [hold fd (by omega) (by omega)]
    refine ⟨(h.fresh fd (by omega)).1, fun e' he' => ?_⟩
    rcases mem_cons.mp he' with rfl | he'
    · simp only [makes, uses, ne_eq, Option.some.injEq]
      exact ⟨by omega, by simp⟩
    · rcases mem_cons.mp he' with rfl | he'
      · simp only [makes, uses, ne_eq, Option.some.injEq]
        exact ⟨by omega, by simp⟩
      · exact (h.fresh fd (by omega)).2 e' he'
  · change _ ↔ (∃ e ∈ opened (σ.nextFD + 1) :: opened σ.nextFD :: σ.log,
        e.makes = some fd) ∧
      .closed fd ∉ opened (σ.nextFD + 1) :: opened σ.nextFD :: σ.log
    have hclosed : ∀ fd, σ.nextFD ≤ fd → .closed fd ∉ σ.log :=
      fun fd hge hmem => ((h.fresh fd hge).2 _ hmem).2 rfl
    rcases eq_or_ne fd σ.nextFD with rfl | hne
    · simp [h0, makes, hclosed]
    · rcases eq_or_ne fd (σ.nextFD + 1) with rfl | hne'
      · simp [h1, makes, hclosed]
      · rw [hold fd hne hne', h.live fd]
        simp [makes, hne.symm, hne'.symm]
  · rcases eq_or_ne r σ.nextPair with rfl | hne
    · exact .inl (inTable_link σ src d s t key)
    · rw [pairAt_link_of_ne σ src d s t key hne] at hr
      have hin := (h.inTable r i fd hr).resolve_right not_mem_nil
      exact .inl ((inTable_link_of_ne src d s t hkey hne).mpr hin)
  · rcases mem_cons.mp hx with rfl | hx
    · rw [pairAt_link]
      rfl
    · rw [mem_singleton.mp hx, pairAt_link]
      rfl
  · have huses : ∀ fd fd' : Nat, (opened fd).uses ≠ some fd' := fun _ _ => by simp [uses]
    exact pairwise_cons.mpr ⟨fun _ _ fd _ => huses _ fd,
      pairwise_cons.mpr ⟨fun _ _ fd _ => huses _ fd, h.order⟩⟩

theorem Owners.install (h : Owners [] [] σ owner) (m : Nat) : Owners [] [] (σ.install m) owner := by
  have hnew : (σ.sessionAt σ.nextSession).fds = [] := by
    rw [fds, (h.unmade _ le_rfl).1, (h.unmade _ le_rfl).2]
    rfl
  exact { h with
    session := fun s fd => by
      change fd ∈ (update σ.sessionAt σ.nextSession _ s).fds ↔ _
      rcases eq_or_ne s σ.nextSession with rfl | hne
      · rw [update_self, ← h.session, hnew]
        rfl
      · rw [update_of_ne hne]
        exact h.session s fd
    nodup := fun s => by
      change (update σ.sessionAt σ.nextSession _ s).fds.Nodup
      rcases eq_or_ne s σ.nextSession with rfl | hne
      · rw [update_self]
        exact nodup_nil
      · rw [update_of_ne hne]
        exact h.nodup s
    unmade := fun s hs => by
      have hs' : σ.nextSession + 1 ≤ s := hs
      simp only [Switch.install, update_of_ne (show s ≠ σ.nextSession by omega)]
      exact h.unmade s (by omega) }

/-! ## Every run -/

def Owned (c : Config) : Prop := ∃ owner, Owners c.owed c.adding c.switch owner

theorem Owners.settle {r : Nat} {i : Fin 2} (h : Owners ((r, i) :: o) a σ owner)
    (ht : Tables ((r, i) :: o) e σ) : ∃ owner', Owners o a (σ.settle r i) owner' := by
  have hin := (ht.owed _ mem_cons_self).2
  have hsame := same_settle σ r i
  refine h.release_pair r i (settle_closed σ r i) hsame.nextSession ?_ ?_ (fun r' => ?_)
    hsame.inTable (fun x hx hne => ?_) fun x _ hx heq => ?_
  · rw [Switch.settle_eq]
  · rw [Switch.settle_eq]
  · rw [Switch.settle_eq]
    rcases eq_or_ne r' r with rfl | hne <;> simp [*]
  · exact (mem_cons.mp hx).resolve_left hne
  · cases heq
    exact hin hx

theorem owned_of_tear {c c' : Config} (h : Tear c c') (ht : Tables c.owed c.ending c.switch)
    (hc : Owned c) : Owned c' := by
  obtain ⟨owner, hown⟩ := hc
  cases h with
  | move o e a σ mv => exact hown.move mv
  | unlink o e a σ r h =>
    refine ⟨owner, (hown.note (e := .removed (σ.pairAt r).id) rfl rfl).congr (fun _ => rfl)
      (fun _ => rfl) rfl (fun _ => rfl) rfl rfl (fun r' i hr' => ?_) fun _ =>
        Switch.inTable_of_unlink⟩
    rcases eq_or_ne r' r with rfl | hne
    · refine .inr ?_
      rcases (show i = 0 ∨ i = 1 by omega) with rfl | rfl <;> simp
    · exact hr'.imp (fun hin => Switch.inTable_unlink_of_ne h hin hne) fun hmem =>
        mem_cons_of_mem _ (mem_cons_of_mem _ hmem)
  | settle => exact hown.settle ht
  | settlePush o e a σ r i h =>
    obtain ⟨owner', hown'⟩ := hown.settle ht
    refine ⟨owner', hown'.push_none ?_ _⟩
    rw [(same_settle σ r i).nextSession]
    exact ht.made _ h
  | shut o e a σ s h =>
    have hsame := samePairs_shut σ s
    have hin : ∀ r, (σ.shut s).InTable r ↔ σ.InTable r := fun r =>
      Switch.inTable_congr hsame.pairs (hsame.key r)
    refine ⟨owner, hown.congr (fun t => ?_) (fun t => ?_) hsame.nextSession (fun _ => ?_) ?_ ?_
      (fun r _ h => h.imp_left (hin r).mpr) fun r h => (hin r).mp h⟩
    all_goals rw [Switch.shut_eq]
    · rcases eq_or_ne t s with rfl | hne <;> simp [*]
    · rcases eq_or_ne t s with rfl | hne <;> simp [*]
  | finish => exact ⟨owner, hown⟩
  | tick | backoff =>
    exact ⟨owner, hown.congr (fun _ => rfl) (fun _ => rfl) rfl (fun _ => rfl) rfl rfl
      (fun _ _ h => h) fun _ h => h⟩

theorem Owners.accept (h : Owners [] [] σ owner) (r : Nat) (i : Fin 2) :
    ∃ owner', Owners [] [] (σ.accept r i) owner' := by
  have hsame := same_accept σ r i
  have heq : σ.accept r i = { σ with
      log := closes ((σ.pairAt r).held i) ++ σ.log
      pairAt := update σ.pairAt r { σ.pairAt r with
        held := update (σ.pairAt r).held i none
        acked := update (σ.pairAt r).acked i true } } := by
    rw [Switch.accept, Switch.closeFD_eq]
    rfl
  refine h.release_pair r i ?_ hsame.nextSession ?_ ?_ (fun r' => ?_) hsame.inTable
    (fun x hx _ => hx) fun x hx => absurd hx not_mem_nil
  all_goals rw [heq]
  rcases eq_or_ne r' r with rfl | hne <;> simp [*]

theorem Owners.owner_adding {r fd : Nat} {i : Fin 2} (h : Owners o ((r, i, fd) :: a) σ owner)
    (hr : σ.InTable r) : owner fd = some (.pair r i) :=
  (h.pair r i fd).mp (h.adding _ mem_cons_self hr)

theorem Owners.tail {x : Nat × Fin 2 × Nat} (h : Owners o (x :: a) σ owner) : Owners o a σ owner :=
  { h with adding := fun y hy => h.adding y (mem_cons_of_mem x hy) }

theorem owned_of_act {c c' : Config} (h : Act True c c') (ht : Tables c.owed c.ending c.switch)
    (hc : Owned c) : Owned c' := by
  have ⟨owner, hown⟩ := hc
  cases h with
  | tear h => exact owned_of_tear h ht hc
  | greet σ m =>
    exact ⟨owner, (Owners.install hown m).push_none (Nat.lt_succ_self _) _⟩
  | link σ src dst now d a b hsrc h =>
    exact Owners.link hown ht src d a b (pairable_eq_some h).2.2.2.2.2.2
  | add e a σ r i fd h hopen =>
    have hown' : Owners [] ((r, i, fd) :: a) σ owner := hown
    exact ⟨_, hown'.tail.push_dup (hown'.owner_adding (h trivial)) (ht.made _ hopen) _⟩
  | drop e a σ r i fd h =>
    have hown' : Owners [] ((r, i, fd) :: a) σ owner := hown
    exact ⟨_, hown'.tail.drop_dup (hown'.owner_adding (h trivial))⟩
  | giveUp =>
    exact ⟨owner, { hown with adding := nofun }⟩
  | accept σ r i =>
    exact Owners.accept hown r i
  | enroll | strike | stats =>
    exact ⟨owner, hown.congr (fun _ => rfl) (fun _ => rfl) rfl (fun _ => rfl) rfl rfl
      (fun _ _ h => h) fun _ h => h⟩
  | retire σ s h =>
    refine ⟨owner, Owners.update_session hown s _ ?_ fun hs => ⟨(hown.unmade s hs).1, rfl⟩⟩
    simp [fds, h, Config.free]

end Change

theorem owned_new : Owned (.free newPeering) :=
  ⟨fun _ => none,
    { session := fun s fd => by simp [Config.free, newPeering, fds]
      pair := fun r i fd => by simp [Config.free, newPeering]
      nodup := fun s => by simp [Config.free, newPeering, fds]
      unmade := fun _ _ => ⟨rfl, rfl⟩
      fresh := fun _ _ => ⟨rfl, nofun⟩
      live := fun fd => by simp [Config.free, newPeering]
      inTable := nofun
      adding := nofun
      order := List.Pairwise.nil }⟩

theorem owned_run (env : Env) {ops : List Op} (hroom : AllSteps (step env) Roomy newPeering ops) :
    Sound (.free (run (step env) newPeering ops)) ∧ Owned
      (.free (run (step env) newPeering ops)) := by
  refine run_invariant_of_allSteps (I := fun σ => Sound (.free σ) ∧ Owned (.free σ))
    (fun σ op h hop => ?_) ⟨sound_new, owned_new⟩ hroom
  exact (acts_step env True h.1.tables op fun _ => hop).invariant
    (I := fun c => Sound c ∧ Owned c)
    (fun _ _ hact hc => ⟨sound_of_act hact hc.1, owned_of_act hact hc.1.tables hc.2⟩) h

section Owned

variable {σ : Switch} {owner : Nat → Option Owner}

section

variable (h : Owners [] [] σ owner)
include h

theorem Owners.holds_iff (fd : Nat) (w : Owner) :
    σ.Holds fd w ↔ owner fd = some w := by
  cases w with
  | session s => exact h.session s fd
  | pair r i =>
    rw [← h.pair r i fd]
    refine ⟨fun hw => hw.2, fun hw => ⟨?_, hw⟩⟩
    exact (h.inTable r i fd hw).resolve_right not_mem_nil

theorem Owners.count_closed_le (fd : Nat) :
    σ.log.count (.closed fd) ≤ 1 := by
  by_contra hgt
  have hsub : (List.replicate 2 (closed fd)).Sublist σ.log :=
    replicate_sublist_iff.mpr (by omega)
  exact pairwise_pair.mp (h.order.sublist hsub) fd rfl rfl

theorem Owners.wellOwned : WellOwned σ := by
  have honce : ∀ e ∈ σ.history, ∀ fd, e.makes = some fd →
      (σ.history.count (.closed fd) = 1 ∧ ∀ w, ¬ σ.Holds fd w) ∨
        (σ.history.count (.closed fd) = 0 ∧ ∃! w, σ.Holds fd w) := by
    intro e he fd hmakes
    simp only [h.holds_iff]
    rw [Switch.history, count_reverse]
    by_cases hclosed : .closed fd ∈ σ.log
    · refine .inl ⟨?_, fun w hw => h.not_closed hw hclosed⟩
      have hle := h.count_closed_le fd
      have hpos := count_pos_iff.mpr hclosed
      omega
    · obtain ⟨w, hw⟩ := (h.live fd).mpr ⟨⟨e, mem_reverse.mp he, hmakes⟩, hclosed⟩
      refine .inr ⟨count_eq_zero.mpr hclosed, w, hw, fun w' hw' => ?_⟩
      rw [hw] at hw'
      exact (Option.some.inj hw').symm
  refine ⟨pairwise_reverse.mpr h.order, honce, fun hsettled e he fd hmakes => ?_⟩
  rcases honce e he fd hmakes with hclosed | ⟨-, w, hw, -⟩
  · exact hclosed.1
  · exfalso
    cases w with
    | session s =>
      have hmem : fd ∈ (σ.sessionAt s).fds := hw
      rw [hsettled.2 s] at hmem
      cases hmem
    | pair =>
      have hmem := mem_pairRefs hw.1
      rw [hsettled.1] at hmem
      cases hmem

end

end Owned

/-- In a run in which no pair is made while the queue of the session it is first
offered to is full, every descriptor is closed once, when its last owner lets go of
it, and never used after that. -/
theorem descriptors_well_owned (env : Env) (ops : List Op)
    (hroom : AllSteps (step env) Roomy newPeering ops) :
    WellOwned (run (step env) newPeering ops) := by
  obtain ⟨-, owner, hown⟩ := owned_run env hroom
  exact Owners.wellOwned hown

theorem descriptors_well_owned_pairAndLeave :
    (run (step plainEnv) newPeering pairAndLeave).history.count (.closed 0) = 1 ∧
      WellOwned (run (step plainEnv) newPeering pairAndLeave) :=
  ⟨by decide +kernel, descriptors_well_owned plainEnv pairAndLeave (by decide +kernel)⟩

/-- The end of the link for the third machine is closed with the pair, and then
duplicated for it. -/
theorem descriptors_overflow : ¬ WellOwned (run (step plainEnv) newPeering overflow) := by
  intro h
  have hsub : [Event.closed 257, .duped 257 259].Sublist
      (run (step plainEnv) newPeering overflow).history := by
    decide +kernel
  exact pairwise_pair.mp (h.no_use_after_close.sublist hsub) 257 rfl rfl

end Jerboa.Peer
