import Jerboa.Snapshot.Store

/-!
# Names and handles

What the store promises its callers about names: a snapshot stays while an
`Acquire` of it is outstanding, a name has one owner, and a `Publish` that
fails leaves nothing behind.
-/

namespace Jerboa.Snapshot

open Net.Address Lib Lib.Run AList

section Count

variable {α : Type} {p : α → Bool} {l : List α} {i : Nat} {x y : α}

theorem countP_set_same (hx : l[i]? = some x) (hxy : p y = p x) :
    (l.set i y).countP p = l.countP p := by
  obtain ⟨hi, rfl⟩ := List.getElem?_eq_some_iff.mp hx
  have hle : (if p l[i] = true then 1 else 0) ≤ l.countP p := List.boole_getElem_le_countP hi
  rw [List.countP_set hi, hxy]
  omega

theorem countP_set_drop (hx : l[i]? = some x) (hpx : p x = true) (hpy : p y = false) :
    (l.set i y).countP p + 1 = l.countP p := by
  obtain ⟨hi, rfl⟩ := List.getElem?_eq_some_iff.mp hx
  have hle : (if p l[i] = true then 1 else 0) ≤ l.countP p := List.boole_getElem_le_countP hi
  rw [hpx, if_pos rfl] at hle
  rw [List.countP_set hi, hpx, hpy, if_pos rfl, if_neg Bool.false_ne_true]
  omega

end Count

variable {name : Text}

namespace Sys

/-- How many reservations hold the name. -/
def held (s : Sys) (name : Text) : Nat :=
  s.reservations.countP fun ρ => ρ.name = name && !ρ.done

/-- How many `Acquire`s of the snapshot are not released. -/
def outstanding (s : Sys) (name : Text) : Nat :=
  s.handles.countP fun h => h.name = name && !h.released

/-! ## What the operations do -/

variable {s : Sys}

theorem reserve_cases (s : Sys) (name : Text) (estimate : Int) (c : ReserveCalls) :
    (s.reserve name estimate c).2 = s ∨
      (name ∉ s.reserved ∧ name ∉ s.entries ∧
        ¬(0 < s.limits.maxCount ∧
          s.limits.maxCount < (s.entries.keys.length : Int) + s.reserved.keys.length + 1) ∧
        (s.reserve name estimate c).2 =
          { s with
            reserved := s.reserved.insert name estimate
            reservations := s.reservations ++ [⟨name, 0, 0, false⟩] }) := by
  unfold reserve usage
  by_cases hvalid : (!validateName name) = true
  · rw [if_pos hvalid]
    exact .inl rfl
  rw [if_neg hvalid]
  by_cases hreserved : name ∈ s.reserved
  · rw [if_pos hreserved]
    exact .inl rfl
  rw [if_neg hreserved]
  by_cases hentries : name ∈ s.entries
  · rw [if_pos hentries]
    exact .inl rfl
  rw [if_neg hentries]
  cases c.readDir with
  | false => exact .inl rfl
  | true =>
    simp only [↓reduceIte]
    split_ifs with hcount hbytes htoken hmkdir
    · exact .inl rfl
    · exact .inl rfl
    · exact .inl rfl
    · exact .inl rfl
    · exact .inr ⟨hreserved, hentries, hcount, rfl⟩

theorem reserve_ne_exists (hreserved : name ∉ s.reserved) (hentries : name ∉ s.entries)
    (estimate : Int) (c : ReserveCalls) :
    (s.reserve name estimate c).1 ≠ .error .alreadyExists := by
  unfold reserve
  rw [if_neg hreserved, if_neg hentries]
  by_cases hvalid : (!validateName name) = true
  · simp [hvalid]
  rw [if_neg hvalid]
  cases s.usage c.readDir c.missed with
  | none => simp
  | some =>
    dsimp only
    split_ifs <;> simp

theorem publish_cases (s : Sys) (r : Nat) (ρ : Reservation) (sizeBytes : Int) (c : PublishCalls) :
    (ρ.done = true ∧ (∃ e, s.publish r ρ sizeBytes c = (.error e, s))) ∨
      (ρ.done = false ∧ (∃ e, s.publish r ρ sizeBytes c = (.error e, s.drop r ρ))) ∨
      (ρ.done = false ∧ ρ.name ∉ s.entries ∧
        ¬(0 < s.limits.maxBytes ∧ s.limits.maxBytes <
          int64 (int64 (int64 ((s.bytes - c.missed : Nat) : Int) + s.others ρ.name) + sizeBytes)) ∧
        s.publish r ρ sizeBytes c = (.ok (),
          { s.drop r ρ with
            entries := s.entries.insert ρ.name (ρ.artifact + ρ.rest + c.sidecar) })) := by
  unfold publish usage
  cases hdone : ρ.done with
  | true => exact .inl ⟨rfl, .released, rfl⟩
  | false =>
    refine .inr ?_
    cases c.readDir with
    | false => exact .inl ⟨rfl, .io, rfl⟩
    | true =>
      simp only [Bool.false_eq_true, ↓reduceIte]
      split_ifs with hbytes hmarshal hwrite hentries hrename
      · exact .inl ⟨trivial, .quota, rfl⟩
      · exact .inl ⟨trivial, .io, rfl⟩
      · exact .inl ⟨trivial, .io, rfl⟩
      · exact .inl ⟨trivial, .alreadyExists, rfl⟩
      · exact .inl ⟨trivial, .io, rfl⟩
      · exact .inr ⟨trivial, hentries, hbytes, rfl⟩

theorem acquire_cases (s : Sys) (name : Text) :
    (s.acquire name).2 = s ∨
      (name ∈ s.entries ∧
        (s.acquire name).2 =
          { s with
            inUse := s.inUse.insert name (s.uses name + 1)
            handles := s.handles ++ [⟨name, false⟩] }) := by
  unfold acquire
  split_ifs with hvalid hentries
  · exact .inl rfl
  · exact .inr ⟨hentries, rfl⟩
  · exact .inl rfl

theorem remove_cases (s : Sys) (name : Text) (c : RemoveCalls) :
    (s.remove name c).2 = s ∨
      (s.uses name ≤ 0 ∧ (s.remove name c).2 = { s with entries := s.entries.erase name }) := by
  unfold remove
  by_cases hvalid : (!validateName name) = true
  · rw [if_pos hvalid]
    exact .inl rfl
  rw [if_neg hvalid]
  by_cases hentries : name ∉ s.entries
  · rw [if_pos hentries]
    exact .inl rfl
  rw [if_neg hentries]
  by_cases huses : 0 < s.uses name
  · rw [if_pos huses]
    exact .inl rfl
  rw [if_neg huses]
  rcases c.operations with _ | _ | _
  · exact .inl rfl
  · split_ifs
    · exact .inl rfl
    · exact .inl rfl
    · exact .inl rfl
    · exact .inr ⟨Int.not_lt.mp huses, rfl⟩
  · exact .inl rfl

end Sys

/-! ## The invariant -/

structure Inv (s : Sys) : Prop where
  held : ∀ name, s.held name = if name ∈ s.reserved then 1 else 0
  apart : ∀ name, name ∈ s.reserved → name ∉ s.entries
  uses : ∀ name, s.uses name = s.outstanding name
  kept : ∀ name, 0 < s.outstanding name → name ∈ s.entries

namespace Inv

variable {s : Sys} {r : Nat} {ρ : Reservation}

section

variable (h : Inv s)
include h

section

variable (hr : s.reservations[r]? = some ρ)
include hr

theorem mem_reserved (hlive : ρ.done = false) :
    ρ.name ∈ s.reserved := by
  have hpos : 0 < s.held ρ.name := by
    refine List.countP_pos_iff.mpr ⟨ρ, List.mem_of_getElem? hr, ?_⟩
    simp [hlive]
  by_contra hnot
  rw [h.held, if_neg hnot] at hpos
  exact Nat.lt_irrefl 0 hpos

theorem held_drop (hlive : ρ.done = false)
    (name : Text) :
    (s.drop r ρ).held name = if name ∈ (s.drop r ρ).reserved then 1 else 0 := by
  have hmem := h.mem_reserved hr hlive
  have herase : name ∈ (s.drop r ρ).reserved ↔ name ≠ ρ.name ∧ name ∈ s.reserved :=
    mem_erase
  by_cases hname : name = ρ.name
  · subst hname
    have hone := h.held ρ.name
    have hless : (s.drop r ρ).held ρ.name + 1 = s.held ρ.name :=
      countP_set_drop hr (by simp [hlive]) (by simp)
    rw [if_pos hmem] at hone
    rw [if_neg fun hx => (herase.mp hx).1 rfl]
    omega
  · have hsame : (s.drop r ρ).held name = s.held name :=
      countP_set_same hr (by simp [Ne.symm hname])
    rw [hsame, h.held]
    simp only [herase, ne_eq, hname, not_false_eq_true, true_and]

theorem drop (hlive : ρ.done = false) :
    Inv (s.drop r ρ) :=
  ⟨h.held_drop hr hlive, fun name hname => h.apart name (mem_erase.mp hname).2, h.uses,
    h.kept⟩

theorem abort : Inv (s.abort r ρ) := by
  unfold Sys.abort
  split_ifs with hdone
  · exact h
  · exact h.drop hr (Bool.not_eq_true _ ▸ hdone)

end

theorem insert (hname : name ∉ s.reserved) (bytes : Nat) :
    Inv { s with entries := s.entries.insert name bytes } := by
  refine ⟨h.held, fun n hn => ?_, h.uses, fun n hn => ?_⟩
  · rw [mem_insert, not_or]
    exact ⟨fun heq => hname (heq ▸ hn), h.apart n hn⟩
  · exact (mem_insert _).mpr (.inr (h.kept n hn))

theorem reserve (hreserved : name ∉ s.reserved) (hentries : name ∉ s.entries)
    (estimate : Int) :
    Inv { s with
      reserved := s.reserved.insert name estimate
      reservations := s.reservations ++ [⟨name, 0, 0, false⟩] } := by
  refine ⟨fun n => ?_, fun n hn => ?_, h.uses, h.kept⟩
  · have hheld := h.held n
    unfold Sys.held at hheld ⊢
    rw [List.countP_append, hheld, List.countP_singleton]
    by_cases hn : n = name
    · subst hn
      simp [hreserved]
    · simp [hn, Ne.symm hn]
  · rcases (mem_insert _).mp hn with rfl | hn
    · exact hentries
    · exact h.apart n hn

theorem acquire (hentries : name ∈ s.entries) :
    Inv { s with
      inUse := s.inUse.insert name (s.uses name + 1)
      handles := s.handles ++ [⟨name, false⟩] } := by
  have hcount : ∀ n, ({ s with
      inUse := s.inUse.insert name (s.uses name + 1)
      handles := s.handles ++ [⟨name, false⟩] } : Sys).outstanding n =
        s.outstanding n + if n = name then 1 else 0 := by
    intro n
    unfold Sys.outstanding
    rw [List.countP_append, List.countP_singleton]
    by_cases hn : n = name
    · simp [hn]
    · simp [hn, Ne.symm hn]
  refine ⟨h.held, h.apart, fun n => ?_, fun n hn => ?_⟩
  · have huses := h.uses n
    rw [hcount]
    unfold Sys.uses at huses ⊢
    by_cases hn : n = name
    · subst hn
      rw [lookup_insert, if_pos rfl, Option.getD_some]
      omega
    · rw [lookup_insert_ne hn, if_neg hn]
      omega
  · rw [hcount] at hn
    by_cases heq : n = name
    · exact heq ▸ hentries
    · rw [if_neg heq] at hn
      exact h.kept n hn

end

variable {x : Handle} {k : Nat}

theorem outstanding_release (hk : s.handles[k]? = some x) (hx : x.released = false) (name : Text) :
    (s.release k x).outstanding name + (if name = x.name then 1 else 0) = s.outstanding name := by
  unfold Sys.release Sys.outstanding
  rw [if_neg (by simp [hx])]
  by_cases hname : name = x.name
  · rw [if_pos hname]
    exact countP_set_drop hk (by simp [hx, hname]) (by simp)
  · rw [if_neg hname]
    exact countP_set_same hk (by simp [Ne.symm hname])

theorem uses_release (hx : x.released = false) (name : Text) (hpos : 0 < s.uses x.name) :
    (s.release k x).uses name = s.uses name - if name = x.name then 1 else 0 := by
  unfold Sys.release
  rw [if_neg (by simp [hx])]
  by_cases hname : name = x.name
  · subst hname
    rw [if_pos rfl]
    unfold Sys.uses at hpos ⊢
    split_ifs with hlast
    · rw [lookup_erase, Option.getD_none]
      omega
    · rw [lookup_insert, Option.getD_some]
  · rw [if_neg hname]
    unfold Sys.uses
    split_ifs
    · rw [lookup_erase_ne hname, Int.sub_zero]
    · rw [lookup_insert_ne hname, Int.sub_zero]

theorem release (h : Inv s) (hk : s.handles[k]? = some x) :
    Inv (s.release k x) := by
  cases hx : x.released with
  | true =>
    unfold Sys.release
    rwa [if_pos hx]
  | false =>
    have hsame : (s.release k x).entries = s.entries ∧ (s.release k x).reserved = s.reserved ∧
        (s.release k x).reservations = s.reservations := by
      unfold Sys.release
      rw [if_neg (by simp [hx])]
      exact ⟨rfl, rfl, rfl⟩
    obtain ⟨hentries, hreserved, hreservations⟩ := hsame
    have hpos : 0 < s.uses x.name := by
      have hone := outstanding_release hk hx x.name
      rw [if_pos rfl] at hone
      rw [h.uses]
      omega
    refine ⟨fun name => ?_, fun name hname => ?_, fun name => ?_, fun name hname => ?_⟩
    · have hheld := h.held name
      unfold Sys.held at hheld ⊢
      rwa [hreservations, hreserved]
    · rw [hentries]
      exact h.apart name (hreserved ▸ hname)
    · have hcount := outstanding_release hk hx name
      rw [uses_release hx name hpos, h.uses, ← hcount]
      push_cast
      split_ifs <;> omega
    · have hcount := outstanding_release hk hx name
      rw [hentries]
      exact h.kept name (by omega)

theorem remove (h : Inv s) (huses : s.uses name ≤ 0) :
    Inv { s with entries := s.entries.erase name } := by
  refine ⟨h.held, fun n hn hmem => h.apart n hn (mem_erase.mp hmem).2, h.uses,
    fun n hn => mem_erase.mpr ⟨?_, h.kept n hn⟩⟩
  rintro rfl
  rw [h.uses] at huses
  have hpos : 0 < s.outstanding n := hn
  omega

theorem step (h : Inv s) (a : Sys.Action) : Inv (s.step a) := by
  cases a with
  | reserve name estimate c =>
    rcases s.reserve_cases name estimate c with hsame | ⟨hreserved, hentries, -, hnew⟩
    · simpa only [Sys.step, hsame] using h
    · simpa only [Sys.step, hnew] using h.reserve hreserved hentries estimate
  | stage =>
    simp only [Sys.step]
    split
    · exact h
    · next ρ hr =>
      split_ifs
      · exact h
      · refine ⟨fun name => ?_, h.apart, h.uses, h.kept⟩
        rw [← h.held name]
        exact countP_set_same hr rfl
  | verify =>
    simp only [Sys.step]
    split
    · exact h
    · next ρ hr =>
      unfold Sys.verify
      split_ifs
      · exact { h with }
      · exact h.abort hr
  | publish p c =>
    simp only [Sys.step]
    split
    · exact h
    · next call hp =>
      split
      · exact h
      · next ρ hr =>
        have hcall : Inv { s with publishing := s.publishing.eraseIdx p } :=
          { h with }
        rcases Sys.publish_cases { s with publishing := s.publishing.eraseIdx p }
          call.reservation ρ call.sizeBytes c with
          ⟨-, e, hsame⟩ | ⟨hlive, e, hfailed⟩ | ⟨hlive, -, -, hdone⟩
        · rwa [hsame]
        · rw [hfailed]
          exact hcall.drop hr hlive
        · rw [hdone]
          exact (hcall.drop hr hlive).insert (fun hmem => (mem_erase.mp hmem).1 rfl) _
  | abort =>
    simp only [Sys.step]
    split
    · exact h
    · next ρ hr => exact h.abort hr
  | acquire name =>
    rcases s.acquire_cases name with hsame | ⟨hentries, hnew⟩
    · simpa only [Sys.step, hsame] using h
    · simpa only [Sys.step, hnew] using h.acquire hentries
  | release =>
    simp only [Sys.step]
    split
    · exact h
    · next x hk => exact h.release hk
  | remove name c =>
    rcases s.remove_cases name c with hsame | ⟨huses, hnew⟩
    · simpa only [Sys.step, hsame] using h
    · simpa only [Sys.step, hnew] using h.remove huses

end Inv

theorem inv_opened (limits : Limits) (entries : AList fun _ : Text => Nat) :
    Inv (Sys.opened limits entries) :=
  ⟨fun name => (if_neg (notMem_empty name)).symm,
    fun name hname => absurd hname (notMem_empty name), fun _ => rfl,
    fun _ hpos => absurd hpos (Nat.lt_irrefl 0)⟩

/-! ## The tables -/

/-- What a step does to the names that are published and reserved. -/
inductive Change (s s' : Sys) : Sys.Action → Prop where
  | same {a : Sys.Action} (entries : s'.entries = s.entries) (reserved : s'.reserved = s.reserved) :
      Change s s' a
  | reserved {name : Text} {estimate : Int} {c : Sys.ReserveCalls}
      (count : ¬(0 < s.limits.maxCount ∧
        s.limits.maxCount < (s.entries.keys.length : Int) + s.reserved.keys.length + 1))
      (entries : s'.entries = s.entries) (reserved :
        s'.reserved = s.reserved.insert name estimate) :
      Change s s' (.reserve name estimate c)
  | dropped {a : Sys.Action} (name : Text) (entries : s'.entries = s.entries)
      (reserved : s'.reserved = s.reserved.erase name) : Change s s' a
  | published {p : Nat} {c : Sys.PublishCalls} (call : Publishing) (ρ : Reservation)
      (calls : s.publishing[p]? = some call)
      (reservation : s.reservations[call.reservation]? = some ρ) (live : ρ.done = false)
      (free : ρ.name ∉ s.entries)
      (fits : ¬(0 < s.limits.maxBytes ∧ s.limits.maxBytes < int64 (int64 (int64
        ((s.bytes - c.missed : Nat) : Int) + s.others ρ.name) + call.sizeBytes)))
      (entries : s'.entries = s.entries.insert ρ.name (ρ.artifact + ρ.rest + c.sidecar))
      (reserved : s'.reserved = s.reserved.erase ρ.name) : Change s s' (.publish p c)
  | removed {a : Sys.Action} (name : Text) (uses : s.uses name ≤ 0)
      (entries : s'.entries = s.entries.erase name) (reserved : s'.reserved = s.reserved) :
      Change s s' a

theorem change_abort (s : Sys) (a : Sys.Action) (r : Nat) (ρ : Reservation) :
    (s.abort r ρ).limits = s.limits ∧ Change s (s.abort r ρ) a := by
  unfold Sys.abort
  split_ifs
  · exact ⟨rfl, .same rfl rfl⟩
  · exact ⟨rfl, .dropped ρ.name rfl rfl⟩

theorem step_change (s : Sys) (a : Sys.Action) :
    (s.step a).limits = s.limits ∧ Change s (s.step a) a := by
  cases a with
  | reserve name estimate c =>
    rcases s.reserve_cases name estimate c with hsame | ⟨-, -, hcount, hnew⟩
    · rw [Sys.step, hsame]
      exact ⟨rfl, .same rfl rfl⟩
    · rw [Sys.step, hnew]
      exact ⟨rfl, .reserved hcount rfl rfl⟩
  | stage =>
    simp only [Sys.step]
    split
    · exact ⟨rfl, .same rfl rfl⟩
    · split_ifs
      · exact ⟨rfl, .same rfl rfl⟩
      · exact ⟨rfl, .same rfl rfl⟩
  | verify r =>
    simp only [Sys.step]
    split
    · exact ⟨rfl, .same rfl rfl⟩
    · unfold Sys.verify
      split_ifs
      · exact ⟨rfl, .same rfl rfl⟩
      · exact change_abort s _ r _
  | publish p c =>
    simp only [Sys.step]
    split
    · exact ⟨rfl, .same rfl rfl⟩
    · next call hp =>
      split
      · exact ⟨rfl, .same rfl rfl⟩
      · next ρ hr =>
        rcases Sys.publish_cases { s with publishing := s.publishing.eraseIdx p }
          call.reservation ρ call.sizeBytes c with
          ⟨-, e, hsame⟩ | ⟨-, e, hfailed⟩ | ⟨hlive, hfree, hfits, hdone⟩
        · rw [hsame]
          exact ⟨rfl, .same rfl rfl⟩
        · rw [hfailed]
          exact ⟨rfl, .dropped ρ.name rfl rfl⟩
        · rw [hdone]
          exact ⟨rfl, .published call ρ hp hr hlive hfree hfits rfl rfl⟩
  | abort r =>
    simp only [Sys.step]
    split
    · exact ⟨rfl, .same rfl rfl⟩
    · exact change_abort s _ r _
  | acquire name =>
    rcases s.acquire_cases name with hsame | ⟨-, hnew⟩
    · rw [Sys.step, hsame]
      exact ⟨rfl, .same rfl rfl⟩
    · rw [Sys.step, hnew]
      exact ⟨rfl, .same rfl rfl⟩
  | release =>
    simp only [Sys.step]
    split
    · exact ⟨rfl, .same rfl rfl⟩
    · unfold Sys.release
      split_ifs
      · exact ⟨rfl, .same rfl rfl⟩
      · exact ⟨rfl, .same rfl rfl⟩
      · exact ⟨rfl, .same rfl rfl⟩
  | remove name c =>
    rcases s.remove_cases name c with hsame | ⟨huses, hnew⟩
    · rw [Sys.step, hsame]
      exact ⟨rfl, .same rfl rfl⟩
    · rw [Sys.step, hnew]
      exact ⟨rfl, .removed name huses rfl rfl⟩

theorem Inv.lookup_step {s : Sys} (h : Inv s) (a : Sys.Action) (hout : 0 < s.outstanding name) :
    (s.step a).entries.lookup name = s.entries.lookup name := by
  cases (step_change s a).2 with
  | same hentries | reserved _ hentries | dropped _ hentries => rw [hentries]
  | published call ρ _ _ _ hfree _ hentries =>
    have hne : name ≠ ρ.name := fun heq => hfree (heq ▸ h.kept name hout)
    rw [hentries, lookup_insert_ne hne]
  | removed n huses hentries =>
    have hne : name ≠ n := by
      rintro rfl
      rw [h.uses] at huses
      omega
    rw [hentries, lookup_erase_ne hne]

/-- The action ends a `Publish` of the reservation with an error. -/
def FailsPublish (s : Sys) (a : Sys.Action) (r : Nat) (ρ : Reservation) : Prop :=
  a = .verify r false ∨
    ∃ p c sizeBytes e, a = .publish p c ∧ s.publishing[p]? = some ⟨r, sizeBytes⟩ ∧
      ({ s with publishing := s.publishing.eraseIdx p }.publish r ρ sizeBytes c).1 = .error e

/-- What a `Publish` that fails leaves: no entry that was not there, and no
reservation.  If the reservation held its name until then, nothing has that
name now. -/
structure LeavesNothing (s : Sys) (a : Sys.Action) (r : Nat) (ρ : Reservation) : Prop where
  entries : (s.step a).entries = s.entries
  ended : (s.step a).reservations[r]? = some { ρ with done := true }
  hidden : ρ.done = false → ρ.name ∉ (s.step a).entries
  free : ρ.done = false → ∀ estimate c,
    ((s.step a).reserve ρ.name estimate c).1 ≠ .error .alreadyExists

variable {s : Sys} {r : Nat} {ρ : Reservation}

theorem getElem?_drop (hr : s.reservations[r]? = some ρ) :
    (s.drop r ρ).reservations[r]? = some { ρ with done := true } := by
  obtain ⟨hlt, -⟩ := List.getElem?_eq_some_iff.mp hr
  exact List.getElem?_set_self hlt

variable {a : Sys.Action}

theorem Inv.leavesNothing_drop (h : Inv s) (hr : s.reservations[r]? = some ρ)
    (hlive : ρ.done = false) (publishing : List Publishing)
    (hstep : s.step a = { s.drop r ρ with publishing := publishing }) : LeavesNothing s a r ρ := by
  have hentries : ρ.name ∉ s.entries := h.apart ρ.name (h.mem_reserved hr hlive)
  have hreserved : ρ.name ∉ s.reserved.erase ρ.name := fun hmem => (mem_erase.mp hmem).1 rfl
  refine ⟨by rw [hstep]; rfl, by rw [hstep]; exact getElem?_drop hr, fun _ => ?_, fun _ => ?_⟩
  · rw [hstep]
    exact hentries
  · rw [hstep]
    exact Sys.reserve_ne_exists hreserved hentries

theorem leavesNothing_done (hr : s.reservations[r]? = some ρ) (hdone : ρ.done = true)
    (publishing : List Publishing) (hstep : s.step a = { s with publishing := publishing }) :
    LeavesNothing s a r ρ := by
  have hρ : { ρ with done := true } = ρ := by rw [← hdone]
  refine ⟨by rw [hstep], by rw [hstep, hρ]; exact hr, fun hlive => ?_, fun hlive => ?_⟩
  · rw [hdone] at hlive
    cases hlive
  · rw [hdone] at hlive
    cases hlive

theorem Inv.leavesNothing (h : Inv s) (hr : s.reservations[r]? = some ρ)
    (hfails : FailsPublish s a r ρ) : LeavesNothing s a r ρ := by
  rcases hfails with rfl | ⟨p, c, sizeBytes, e, rfl, hp, hfails⟩
  · cases hdone : ρ.done with
    | true =>
      exact leavesNothing_done hr hdone s.publishing
        (by simp [Sys.step, hr, Sys.verify, Sys.abort, hdone])
    | false =>
      exact h.leavesNothing_drop hr hdone s.publishing
        (by simp [Sys.step, hr, Sys.verify, Sys.abort, hdone, Sys.drop])
  · rcases Sys.publish_cases { s with publishing := s.publishing.eraseIdx p } r ρ sizeBytes c with
      ⟨hdone, err, hsame⟩ | ⟨hlive, err, hfailed⟩ | ⟨-, -, -, hpublished⟩
    · exact leavesNothing_done hr hdone (s.publishing.eraseIdx p)
        (by simp only [Sys.step, hp, hr, hsame])
    · exact h.leavesNothing_drop hr hlive (s.publishing.eraseIdx p)
        (by simp only [Sys.step, hp, hr, hfailed]; rfl)
    · rw [hpublished] at hfails
      cases hfails

/-- The store after a run, opened on a directory that holds entries. -/
def Sys.after (limits : Limits) (entries : AList fun _ : Text => Nat) (acts : List Sys.Action) :
    Sys :=
  run Sys.step (Sys.opened limits entries) acts

/-- In every state that a run reaches, an entry that is acquired is there and the
next step keeps it, a name is either published or reserved once, or neither, and
a `Publish` that fails leaves nothing. -/
theorem snapshot_names_kept (limits : Limits) (entries : AList fun _ : Text => Nat)
    (acts : List Sys.Action) :
    (∀ name, 0 < (Sys.after limits entries acts).outstanding name →
      name ∈ (Sys.after limits entries acts).entries ∧
        ∀ a, ((Sys.after limits entries acts).step a).entries.lookup name =
          (Sys.after limits entries acts).entries.lookup name) ∧
      (∀ name, (Sys.after limits entries acts).held name +
        (if name ∈ (Sys.after limits entries acts).entries then 1 else 0) ≤ 1) ∧
      ∀ a r ρ, (Sys.after limits entries acts).reservations[r]? = some ρ →
        FailsPublish (Sys.after limits entries acts) a r ρ →
        LeavesNothing (Sys.after limits entries acts) a r ρ := by
  have hinv : Inv (Sys.after limits entries acts) :=
    run_invariant (fun _ a h => h.step a) (inv_opened limits entries) acts
  refine ⟨fun name hout => ⟨hinv.kept name hout, fun a => hinv.lookup_step a hout⟩, fun name => ?_,
    fun a r ρ hr hfails => hinv.leavesNothing hr hfails⟩
  rw [hinv.held]
  by_cases hreserved : name ∈ (Sys.after limits entries acts).reserved
  · rw [if_pos hreserved, if_neg (hinv.apart name hreserved)]
  · rw [if_neg hreserved]
    split_ifs <;> omega

/-- The counter that `Remove` looks at is the number of handles that are not released, also
when one is released twice, and a name is in the table of reservations if and only if
one reservation holds it. -/
theorem uses_counted (limits : Limits) (entries : AList fun _ : Text => Nat)
    (acts : List Sys.Action) (name : Text) :
    let s := Sys.after limits entries acts
    s.uses name = s.outstanding name ∧ s.held name = if name ∈ s.reserved then 1 else 0 := by
  have hinv : Inv (Sys.after limits entries acts) :=
    run_invariant (fun _ a h => h.step a) (inv_opened limits entries) acts
  exact ⟨hinv.uses name, hinv.held name⟩

/-- The calls of a `Reserve`, a `Publish` and a `Remove` that all succeed. -/
def reserveCalls : Sys.ReserveCalls := ⟨true, 0, true, true⟩

def publishCalls : Sys.PublishCalls := ⟨true, 0, true, 500, true, true⟩

def removeCalls : Sys.RemoveCalls := ⟨some false, true, true, true⟩

/-- A snapshot is published and acquired, and a removal of it is tried; a second
one is captured whose sidecar cannot be written. -/
def acquiredRun : List Sys.Action :=
  [.reserve "a".toList 800 reserveCalls, .stage 0 700 0, .verify 0 true, .publish 0 publishCalls,
    .acquire "a".toList, .remove "a".toList removeCalls,
    .reserve "b".toList 800 reserveCalls, .stage 1 600 0, .verify 1 true]

theorem snapshot_names_kept_acquired :
    (Sys.after ⟨8, 9000⟩ ∅ acquiredRun).outstanding "a".toList = 1 ∧
      ("a".toList ∈ (Sys.after ⟨8, 9000⟩ ∅ acquiredRun).entries ∧
        ∀ a, ((Sys.after ⟨8, 9000⟩ ∅ acquiredRun).step a).entries.lookup "a".toList =
          (Sys.after ⟨8, 9000⟩ ∅ acquiredRun).entries.lookup "a".toList) ∧
      (Sys.after ⟨8, 9000⟩ ∅ acquiredRun).held "b".toList = 1 ∧
      LeavesNothing (Sys.after ⟨8, 9000⟩ ∅ acquiredRun)
        (.publish 0 { publishCalls with writeSidecar := false }) 1 ⟨"b".toList, 600, 0, false⟩ := by
  obtain ⟨hkept, -, hfails⟩ := snapshot_names_kept ⟨8, 9000⟩ ∅ acquiredRun
  refine ⟨by decide +kernel, hkept "a".toList (by decide +kernel), by decide +kernel,
    hfails _ 1 _ (by decide +kernel) (.inr ⟨0, _, 600, .io, rfl, by decide +kernel, ?_⟩)⟩
  decide +kernel

end Jerboa.Snapshot
