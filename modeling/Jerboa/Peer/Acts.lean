import Jerboa.Peer.Switch

/-!
# The switch as small acts

The locked operations call each other while they walk the tables they change, so
what holds between two operations does not hold inside one.  Here each of them is
taken apart into acts, each one simple change of the state, and beside the state
stands what the operation still has to do: the sides of removed pairs it has not
settled, the sessions it is ending, and the ends of a new link it has not offered.
Every invariant of the switch is then a fact about single acts.
-/

namespace Jerboa.Peer

open List Function Relation Switch

/-- The state with the work at hand. -/
structure Config where
  owed : List (Nat × Fin 2)
  ending : List Nat
  adding : List (Nat × Fin 2 × Nat)
  switch : Switch

def Config.free (σ : Switch) : Config := ⟨[], [], [], σ⟩

/-- The acts of tearing down.  A message may fail to be queued at any time. -/
inductive Tear : Config → Config → Prop
  | move (o e a σ mv) : Tear ⟨o, e, a, σ⟩ ⟨o, e, a, Switch.move σ mv⟩
  | tick (o e a σ) : Tear ⟨o, e, a, σ⟩ ⟨o, e, a, { σ with sends := σ.sends + 1 }⟩
  | unlink (o e a) (σ : Switch) (r) (h : σ.InTable r) :
      Tear ⟨o, e, a, σ⟩ ⟨(r, 0) :: (r, 1) :: o, e, a, σ.unlink r⟩
  | settle (o e a) (σ : Switch) (r i) : Tear ⟨(r, i) :: o, e, a, σ⟩ ⟨o, e, a, σ.settle r i⟩
  | settlePush (o e a) (σ : Switch) (r i)
      (h : (σ.sessionAt ((σ.pairAt r).side i)).closed = false) :
      Tear ⟨(r, i) :: o, e, a, σ⟩
        ⟨o, e, a, (σ.settle r i).push ((σ.pairAt r).side i) (σ.delMessage r i) none⟩
  | shut (o e a) (σ : Switch) (s) (h : (σ.sessionAt s).closed = false) :
      Tear ⟨o, e, a, σ⟩ ⟨o, s :: e, a, σ.shut s⟩
  | finish (o e a) (σ : Switch) (s) (h : ∀ r, σ.InTable r → ∀ i, (σ.pairAt r).side i ≠ s) :
      Tear ⟨o, s :: e, a, σ⟩ ⟨o, e, a, σ⟩
  | backoff (o e a) (σ : Switch) (key now) : Tear ⟨o, e, a, σ⟩ ⟨o, e, a, σ.backoff key now⟩

abbrev Tears := ReflTransGen Tear

/-! ## What single changes do -/

def closes : Option Nat → List Event
  | none => []
  | some fd => [.closed fd]

def writes : Option Nat → List Event
  | none => []
  | some fd => [.closed fd, .sent fd]

inductive Moves : Session → Session → List Event → Prop
  | take (t : Session) (o rest) (hw : t.writer = .waiting) (ho : t.out = o :: rest) :
      Moves t { t with out := rest, writer := .writing o } []
  | write (t : Session) (o) (ok : Bool) (hw : t.writer = .writing o) :
      Moves t { t with writer := if ok then .waiting else .failed } (writes o.fd)
  | quit (t : Session) (hw : t.writer = .waiting) (hc : t.closed = true) :
      Moves t { t with writer := .draining } []
  | drain (t : Session) (o rest) (hw : t.writer = .draining) (ho : t.out = o :: rest) :
      Moves t { t with out := rest } (closes o.fd)

variable {es : List Event} {t t' : Session}

theorem Moves.member_eq (h : Moves t t' es) :
    t'.member = t.member := by
  cases h <;> rfl

theorem Moves.closed_eq (h : Moves t t' es) :
    t'.closed = t.closed := by
  cases h <;> rfl

namespace Switch

theorem closeFD_eq (σ : Switch) (fd : Option Nat) :
    σ.closeFD fd = { σ with log := closes fd ++ σ.log } := by
  cases fd <;> rfl

theorem move_eq (σ : Switch) (mv : Move) :
    σ.move mv = σ ∨ ∃ s t es, Moves (σ.sessionAt s) t es ∧
      σ.move mv =
        { σ with sessionAt := update σ.sessionAt s t, log := es ++ σ.log } := by
  cases mv with
  | take s =>
    simp only [move]
    split
    case h_1 o rest hw ho => exact .inr ⟨s, _, _, .take _ o rest hw ho, rfl⟩
    case h_2 => exact .inl rfl
  | write s ok =>
    simp only [move]
    split
    case h_1 o hw =>
      refine .inr ⟨s, _, _, .write _ o ok hw, ?_⟩
      rcases ho : o.fd with _ | fd <;> simp only [writeOut, ho] <;> rfl
    case h_2 => exact .inl rfl
  | quit s =>
    simp only [move]
    split
    case h_1 hw hc => exact .inr ⟨s, _, _, .quit _ hw hc, rfl⟩
    case h_2 => exact .inl rfl
  | drain s =>
    simp only [move]
    split
    case h_1 o rest hw ho =>
      refine .inr ⟨s, _, _, .drain _ o rest hw ho, ?_⟩
      rw [closeFD_eq]
      rfl
    case h_2 => exact .inl rfl

theorem settle_eq (σ : Switch) (r : Nat) (i : Fin 2) :
    σ.settle r i =
      { σ with
        log := closes ((σ.pairAt r).held i) ++ σ.log
        pairAt := update σ.pairAt r
          { σ.pairAt r with held := update (σ.pairAt r).held i none }
        memberAt := update σ.memberAt (σ.memberOf r i)
          { σ.memberAt (σ.memberOf r i) with
            pairs := (σ.memberAt (σ.memberOf r i)).pairs - 1 } } := by
  rw [settle, closeFD_eq]
  rfl

theorem shut_eq (σ : Switch) (s : Nat) :
    σ.shut s =
      { σ with
        sessionAt := update σ.sessionAt s { σ.sessionAt s with closed := true }
        memberAt :=
          if (σ.memberAt (σ.sessionAt s).member).session = some s then
            update σ.memberAt (σ.sessionAt s).member
              { σ.memberAt (σ.sessionAt s).member with session := none }
          else σ.memberAt } := by
  rw [shut]
  split_ifs with h h' h' <;> first | rfl | exact absurd h h' | exact absurd h' h

end Switch

/-! ## What tearing down leaves alone -/

/-- `σ'` is `σ` with some sessions closed and some pairs removed. -/
structure Torn (σ σ' : Switch) : Prop where
  members : σ'.members = σ.members
  nextMember : σ'.nextMember = σ.nextMember
  nextSession : σ'.nextSession = σ.nextSession
  nextPair : σ'.nextPair = σ.nextPair
  mac : ∀ m, (σ'.memberAt m).mac = (σ.memberAt m).mac
  session : ∀ m, (σ.memberAt m).session = none → (σ'.memberAt m).session = none
  member : ∀ s, (σ'.sessionAt s).member = (σ.sessionAt s).member
  closed : ∀ s, (σ.sessionAt s).closed = true → (σ'.sessionAt s).closed = true
  failed : ∀ s, (σ.sessionAt s).writer = .failed → (σ'.sessionAt s).writer = .failed
  side : ∀ r, (σ'.pairAt r).side = (σ.pairAt r).side
  inTable : ∀ r, σ'.InTable r → σ.InTable r

namespace Torn

theorem refl (σ : Switch) : Torn σ σ :=
  ⟨rfl, rfl, rfl, rfl, fun _ => rfl, fun _ h => h, fun _ => rfl, fun _ h => h, fun _ h => h,
    fun _ => rfl, fun _ h => h⟩

theorem trans {σ σ' σ'' : Switch} (h : Torn σ σ') (h' : Torn σ' σ'') : Torn σ σ'' where
  members := h'.members.trans h.members
  nextMember := h'.nextMember.trans h.nextMember
  nextSession := h'.nextSession.trans h.nextSession
  nextPair := h'.nextPair.trans h.nextPair
  mac m := (h'.mac m).trans (h.mac m)
  session m hm := h'.session m (h.session m hm)
  member s := (h'.member s).trans (h.member s)
  closed s hs := h'.closed s (h.closed s hs)
  failed s hs := h'.failed s (h.failed s hs)
  side r := (h'.side r).trans (h.side r)
  inTable r hr := h.inTable r (h'.inTable r hr)

end Torn

variable {σ : Switch}

namespace Switch

theorem pairOf_unlink (σ : Switch) (r : Nat) (key : PairKey) :
    (σ.unlink r).pairOf key = if key = (σ.pairAt r).key then none else σ.pairOf key := by
  split_ifs with h
  · subst h
    exact AList.lookup_erase (β := fun _ => Nat) _ _
  · exact AList.lookup_erase_ne h

theorem inTable_congr {σ σ' : Switch} {r : Nat} (hpairs : σ'.pairs = σ.pairs)
    (hkey : (σ'.pairAt r).key = (σ.pairAt r).key) : σ'.InTable r ↔ σ.InTable r := by
  rw [InTable, InTable, pairOf, pairOf, hpairs, hkey]

theorem inTable_of_unlink {r r' : Nat} (h : (σ.unlink r).InTable r') :
    σ.InTable r' := by
  have hof : (σ.unlink r).pairOf (σ.pairAt r').key = some r' := h
  rw [pairOf_unlink] at hof
  split_ifs at hof
  exact hof

theorem inTable_unlink_of_ne {r r' : Nat} (hr : σ.InTable r) (hr' : σ.InTable r') (hne : r' ≠ r) :
    (σ.unlink r).InTable r' := by
  have hof : σ.pairOf (σ.pairAt r).key = some r := hr
  have hof' : σ.pairOf (σ.pairAt r').key = some r' := hr'
  change (σ.unlink r).pairOf (σ.pairAt r').key = some r'
  rw [pairOf_unlink, if_neg]
  · exact hof'
  · intro hkey
    rw [hkey, hof] at hof'
    exact hne (Option.some.inj hof').symm

theorem not_inTable_unlink (σ : Switch) (r : Nat) : ¬ (σ.unlink r).InTable r := by
  intro h
  have hof : (σ.unlink r).pairOf (σ.pairAt r).key = some r := h
  rw [pairOf_unlink, if_pos rfl] at hof
  cases hof

end Switch

theorem torn_push (σ : Switch) (s : Nat) (msg : Message) (fd : Option Nat) :
    Torn σ (σ.push s msg fd) := by
  refine ⟨rfl, rfl, rfl, rfl, fun _ => rfl, fun _ h => h, fun t => ?_, fun t ht => ?_,
    fun t ht => ?_, fun _ => rfl, fun _ h => h⟩ <;> rcases eq_or_ne t s with rfl | hne <;>
    simp_all [push, note, setSession]

theorem torn_settle (σ : Switch) (r : Nat) (i : Fin 2) : Torn σ (σ.settle r i) := by
  rw [settle_eq]
  refine ⟨rfl, rfl, rfl, rfl, fun m => ?_, fun m hm => ?_, fun _ => rfl, fun _ h => h, fun _ h => h,
    fun r' => ?_, fun r' h => ?_⟩
  · rcases eq_or_ne m (σ.memberOf r i) with rfl | hne <;> simp [*]
  · rcases eq_or_ne m (σ.memberOf r i) with rfl | hne <;> simp [*]
  · rcases eq_or_ne r' r with rfl | hne <;> simp [*]
  · refine (inTable_congr ?_ ?_).mp h
    · rfl
    · rcases eq_or_ne r' r with rfl | hne <;> simp [*]

theorem torn_shut (σ : Switch) (s : Nat) : Torn σ (σ.shut s) := by
  rw [shut_eq]
  refine ⟨rfl, rfl, rfl, rfl, fun m => ?_, fun m hm => ?_, fun t => ?_, fun t ht => ?_,
    fun t ht => ?_, fun _ => rfl, fun _ h => h⟩
  · split_ifs
    · rcases eq_or_ne m (σ.sessionAt s).member with rfl | hne <;> simp [*]
    · rfl
  · split_ifs
    · rcases eq_or_ne m (σ.sessionAt s).member with rfl | hne <;> simp [*]
    · exact hm
  · rcases eq_or_ne t s with rfl | hne <;> simp [*]
  · rcases eq_or_ne t s with rfl | hne <;> simp [*]
  · rcases eq_or_ne t s with rfl | hne <;> simp [*]

theorem torn_move (σ : Switch) (mv : Move) : Torn σ (σ.move mv) := by
  rcases σ.move_eq mv with h | ⟨s, t, es, hmv, h⟩
  · rw [h]
    exact Torn.refl σ
  · rw [h]
    refine ⟨rfl, rfl, rfl, rfl, fun _ => rfl, fun _ h => h, fun u => ?_, fun u hu => ?_,
      fun u hu => ?_, fun _ => rfl, fun _ h => h⟩
    · rcases eq_or_ne u s with rfl | hne <;> simp [hmv.member_eq, *]
    · rcases eq_or_ne u s with rfl | hne <;> simp [hmv.closed_eq, *]
    · rcases eq_or_ne u s with rfl | hne
      · cases hmv <;> simp_all
      · simpa [hne] using hu

variable {c c' : Config}

theorem torn_of_tear (h : Tear c c') : Torn c.switch c'.switch := by
  cases h with
  | move o e a σ mv => exact torn_move σ mv
  | unlink o e a σ =>
    exact { Torn.refl σ with inTable := fun _ => inTable_of_unlink }
  | settle o e a σ r i => exact torn_settle σ r i
  | settlePush o e a σ r i => exact (torn_settle σ r i).trans (torn_push _ _ _ _)
  | shut o e a σ s => exact torn_shut σ s
  | finish o e a σ => exact Torn.refl σ
  | tick o e a σ | backoff o e a σ => exact { Torn.refl σ with }

theorem torn_of_tears (h : Tears c c') : Torn c.switch c'.switch := by
  induction h with
  | refl => exact Torn.refl _
  | tail _ h ih => exact ih.trans (torn_of_tear h)

/-! ## The locked functions as acts -/

section Teardown

variable {env : Env} {o : List (Nat × Fin 2)} {e : List Nat} {a : List (Nat × Fin 2 × Nat)}

theorem tears_writers (σ : Switch) : Tears ⟨o, e, a, σ⟩ ⟨o, e, a, σ.writers env⟩ := by
  have hmoves : ∀ (mvs : List Move) (σ : Switch),
      Tears ⟨o, e, a, σ⟩ ⟨o, e, a, mvs.foldl move σ⟩ := by
    intro mvs
    induction mvs with
    | nil => exact fun σ => .refl
    | cons mv mvs ih => exact fun σ => .head (.move o e a σ mv) (ih (σ.move mv))
  exact .head (.tick o e a σ) (hmoves _ _)

def EndsByActs (endSession : Nat → Switch → Switch) : Prop :=
  ∀ o e a s σ, Tears ⟨o, e, a, σ⟩ ⟨o, e, a, endSession s σ⟩

variable {endSession : Nat → Switch → Switch}

theorem settle_closed (σ : Switch) (r : Nat) (i : Fin 2) :
    (σ.settle r i).sessionAt = σ.sessionAt := by
  rw [settle_eq]

theorem settle_side (σ : Switch) (r : Nat) (i : Fin 2) :
    ((σ.settle r i).pairAt r).side = (σ.pairAt r).side :=
  (torn_settle σ r i).side r

theorem settle_delMessage (σ : Switch) (r : Nat) (i : Fin 2) :
    (σ.settle r i).delMessage r i = σ.delMessage r i := by
  rw [settle_eq]
  simp [delMessage]

theorem tears_withdraw (env : Env) (hend : EndsByActs endSession) (σ : Switch) (r : Nat)
    (i : Fin 2) :
    Tears ⟨(r, i) :: o, e, a, σ⟩ ⟨o, e, a, σ.withdraw endSession env r i⟩ := by
  simp only [withdraw, enqueueLocked, settle_closed, settle_side, settle_delMessage]
  split_ifs with hclosed hroom
  · exact .head (.settle o e a σ r i) (tears_writers _)
  · exact .head (.settlePush o e a σ r i (Bool.not_eq_true _ ▸ hclosed)) (tears_writers _)
  · exact .head (.settle o e a σ r i) ((tears_writers _).trans (hend o e a _ _))

theorem tears_removePairLocked (env : Env) (hend : EndsByActs endSession) (σ : Switch) (r : Nat)
    (failed : Option Nat) :
    Tears ⟨o, e, a, σ⟩ ⟨o, e, a, σ.removePairLocked endSession env r failed⟩ := by
  unfold removePairLocked
  split_ifs with htable
  · refine .head (.unlink o e a σ r htable) ((tears_withdraw env hend _ r 0).trans ?_)
    cases failed with
    | none => exact tears_withdraw env hend _ r 1
    | some now => exact (tears_withdraw env hend _ r 1).tail (.backoff o e a _ _ now)
  · exact .refl

theorem not_inTable_removePairLocked (env : Env) (hend : EndsByActs endSession) (σ : Switch)
    (r : Nat) (failed : Option Nat) : ¬ (σ.removePairLocked endSession env r failed).InTable r := by
  by_cases htable : σ.InTable r
  · have h0 := torn_of_tears (tears_withdraw (o := []) (e := []) (a := []) env hend
      (σ.unlink r) r 0)
    have h1 := torn_of_tears (tears_withdraw (o := []) (e := []) (a := []) env hend
      ((σ.unlink r).withdraw endSession env r 0) r 1)
    have hnot := fun h => σ.not_inTable_unlink r (h0.inTable r (h1.inTable r h))
    simp only [removePairLocked, htable, not_true_eq_false, if_false]
    cases failed with
    | none => exact hnot
    | some => exact fun h => hnot ((inTable_congr rfl rfl).mp h)
  · simp only [removePairLocked, htable, not_false_eq_true, if_true]

theorem tears_visit (env : Env) (hend : EndsByActs endSession) (s r : Nat) (σ : Switch) :
    Tears ⟨o, e, a, σ⟩ ⟨o, e, a, σ.visit endSession env s r⟩ := by
  rw [visit]
  split_ifs
  · exact tears_removePairLocked env hend σ r none
  · exact .refl

theorem side_ne_of_visit (env : Env) (hend : EndsByActs endSession) {s r : Nat}
    (hin : (σ.visit endSession env s r).InTable r) (i : Fin 2) : (σ.pairAt r).side i ≠ s := by
  by_cases hside : (σ.pairAt r).side 0 = s ∨ (σ.pairAt r).side 1 = s
  · rw [visit, if_pos hside] at hin
    exact absurd hin (not_inTable_removePairLocked env hend σ r none)
  · rw [not_or, ← Fin.forall_fin_two (p := fun i => (σ.pairAt r).side i ≠ s)] at hside
    exact hside i

theorem tears_walk (env : Env) (hend : EndsByActs endSession) (s : Nat) (refs : List Nat)
    (σ : Switch) :
    let σ' := refs.foldl (fun σ r => σ.visit endSession env s r) σ
    Tears ⟨o, e, a, σ⟩ ⟨o, e, a, σ'⟩ ∧
      ∀ r ∈ refs, σ'.InTable r → ∀ i, (σ'.pairAt r).side i ≠ s := by
  induction refs generalizing σ with
  | nil => exact ⟨.refl, nofun⟩
  | cons r refs ih =>
    have hvisit : Tears ⟨o, e, a, σ⟩ ⟨o, e, a, σ.visit endSession env s r⟩ :=
      tears_visit env hend s r σ
    obtain ⟨hrest, hleft⟩ := ih (σ.visit endSession env s r)
    refine ⟨hvisit.trans hrest, fun r' hr' hin i => ?_⟩
    rcases mem_cons.mp hr' with rfl | hr'
    · have htorn := torn_of_tears hrest
      have hside := congrFun ((torn_of_tears (hvisit.trans hrest)).side r') i
      exact fun h => side_ne_of_visit env hend (htorn.inTable _ hin) i (hside.symm.trans h)
    · exact hleft r' hr' hin i

theorem mem_pairRefs {r : Nat} (h : σ.InTable r) : r ∈ σ.pairRefs :=
  mem_map.mpr ⟨_, AList.mem_lookup_iff.mp h, rfl⟩

theorem tears_endSessionLocked (env : Env) (fuel : Nat) :
    EndsByActs (endSessionLocked env fuel) := by
  induction fuel with
  | zero => exact fun o e a s σ => .refl
  | succ fuel ih =>
    intro o e a s σ
    simp only [endSessionLocked]
    split_ifs with hclosed
    · exact .refl
    · obtain ⟨hwalk, hleft⟩ := tears_walk (o := o) (e := s :: e) (a := a) env ih s
        (env.order s (σ.shut s).pairRefs) (σ.shut s)
      refine .head (.shut o e a σ s (Bool.not_eq_true _ ▸ hclosed))
        (hwalk.tail (.finish o e a _ s ?_))
      intro r hr
      have hstart := (torn_of_tears hwalk).inTable r hr
      exact hleft r ((env.perm s _).mem_iff.mpr (mem_pairRefs hstart)) hr

end Teardown

/-! ## The depth of the recursion -/

def Switch.openSessions (σ : Switch) : Nat :=
  (List.range σ.nextSession).countP fun s => !(σ.sessionAt s).closed

def Switch.Made (σ : Switch) : Prop := ∀ s, (σ.sessionAt s).closed = false → s < σ.nextSession

theorem Torn.made {σ σ' : Switch} (h : Torn σ σ') (hmade : σ.Made) : σ'.Made := by
  intro s hs
  rw [h.nextSession]
  refine hmade s (Bool.eq_false_iff.mpr fun hclosed => ?_)
  rw [h.closed s hclosed] at hs
  cases hs

theorem Torn.openSessions_le {σ σ' : Switch} (h : Torn σ σ') :
    σ'.openSessions ≤ σ.openSessions := by
  rw [openSessions, openSessions, h.nextSession]
  refine countP_mono_left fun s _ hs => ?_
  cases hclosed : (σ.sessionAt s).closed with
  | false => rfl
  | true =>
    rw [h.closed s hclosed] at hs
    cases hs

theorem openSessions_shut_lt {s : Nat} (hmade : σ.Made) (hs : (σ.sessionAt s).closed = false) :
    (σ.shut s).openSessions < σ.openSessions := by
  rw [openSessions, openSessions, (torn_shut σ s).nextSession]
  have hmem : s ∈ List.range σ.nextSession := mem_range.mpr (hmade s hs)
  obtain ⟨l, l', hsplit⟩ := append_of_mem hmem
  have hclosed : ((σ.shut s).sessionAt s).closed = true := by
    rw [shut_eq]
    simp
  have hmono : ∀ l : List Nat, l.countP (fun t => !((σ.shut s).sessionAt t).closed) ≤
      l.countP fun t => !(σ.sessionAt t).closed := by
    intro l
    refine countP_mono_left fun t _ ht => ?_
    cases ht' : (σ.sessionAt t).closed with
    | false => rfl
    | true =>
      rw [(torn_shut σ s).closed t ht'] at ht
      cases ht
  rw [hsplit, countP_append, countP_append, countP_cons, countP_cons, hclosed, hs]
  have hl := hmono l
  have hl' := hmono l'
  simp only [Bool.not_true, Bool.false_eq_true, if_false, Bool.not_false, if_true]
  omega

section Depth

variable (env : Env) {f g : Nat → Switch → Switch}

theorem withdraw_congr (h : ∀ s σ', Torn σ σ' → f s σ' = g s σ') (r : Nat) (i : Fin 2) :
    σ.withdraw f env r i = σ.withdraw g env r i := by
  have hwriters : Torn (σ.settle r i) ((σ.settle r i).writers env) :=
    torn_of_tears (tears_writers (o := []) (e := []) (a := []) (σ.settle r i))
  simp only [withdraw, enqueueLocked, closeFD]
  rw [h _ _ ((torn_settle σ r i).trans hwriters)]

theorem removePairLocked_congr (hf : EndsByActs f) (h : ∀ s σ', Torn σ σ' → f s σ' = g s σ')
    (r : Nat) (failed : Option Nat) :
    σ.removePairLocked f env r failed = σ.removePairLocked g env r failed := by
  by_cases htable : σ.InTable r
  · have hunlink : Torn σ (σ.unlink r) := torn_of_tear (.unlink [] [] [] σ r htable)
    have h0 : Torn (σ.unlink r) ((σ.unlink r).withdraw f env r 0) :=
      torn_of_tears (tears_withdraw (o := []) (e := []) (a := []) env hf _ r 0)
    have heq0 := withdraw_congr env (fun s σ' h' => h s σ' (hunlink.trans h')) r 0
    have heq1 := withdraw_congr env (fun s σ' h' => h s σ' ((hunlink.trans h0).trans h')) r 1
    rw [heq0] at heq1
    simp only [removePairLocked, heq0, heq1]
  · simp only [removePairLocked, htable, not_false_eq_true, if_true]

theorem walk_congr (hf : EndsByActs f) (s : Nat) (refs : List Nat)
    (h : ∀ s σ', Torn σ σ' → f s σ' = g s σ') :
    refs.foldl (fun σ r => σ.visit f env s r) σ = refs.foldl (fun σ r => σ.visit g env s r) σ := by
  induction refs generalizing σ with
  | nil => rfl
  | cons r refs ih =>
    have hvisit : σ.visit f env s r = σ.visit g env s r := by
      rw [visit, visit, removePairLocked_congr env hf h]
    have htorn : Torn σ (σ.visit f env s r) :=
      torn_of_tears (tears_visit (o := []) (e := []) (a := []) env hf s r σ)
    rw [foldl_cons, foldl_cons, ← hvisit]
    exact ih fun s' σ' h' => h s' σ' (htorn.trans h')

theorem endSessionLocked_succ (fuel : Nat) (hmade : σ.Made) (hfuel : σ.openSessions ≤ fuel)
    (s : Nat) :
    endSessionLocked env (fuel + 1) s σ = endSessionLocked env fuel s σ := by
  induction fuel generalizing σ s with
  | zero =>
    have hclosed : (σ.sessionAt s).closed = true := by
      by_contra hs
      have := openSessions_shut_lt hmade (Bool.not_eq_true _ ▸ hs)
      omega
    simp only [endSessionLocked, hclosed, if_true]
  | succ fuel ih =>
    rw [endSessionLocked, endSessionLocked]
    by_cases hclosed : (σ.sessionAt s).closed = true
    · rw [if_pos hclosed, if_pos hclosed]
    · rw [if_neg hclosed, if_neg hclosed]
      have hlt := openSessions_shut_lt hmade (Bool.not_eq_true _ ▸ hclosed)
      refine walk_congr env (tears_endSessionLocked env (fuel + 1)) s _ fun s' σ' h' => ?_
      have hle := h'.openSessions_le
      exact ih (h'.made ((torn_shut σ s).made hmade)) (by omega) s'

theorem endSession_eq (hmade : σ.Made) (s extra : Nat) :
    σ.endSession env s = endSessionLocked env (σ.nextSession + 1 + extra) s σ := by
  induction extra with
  | zero => rfl
  | succ extra ih =>
    have hle : σ.openSessions ≤ σ.nextSession := by
      simpa [openSessions] using
        countP_le_length (p := fun s => !(σ.sessionAt s).closed) (l := List.range σ.nextSession)
    rw [ih, ← endSessionLocked_succ env _ hmade (by omega)]
    rfl

end Depth

theorem pairable_eq_some {src now : Nat} {dst : MAC} {x : Nat × Nat × Nat}
    (h : σ.pairable src dst now = some x) :
    σ.members dst = some x.1 ∧ x.1 ≠ src ∧ (σ.memberAt src).session = some x.2.1 ∧
      (σ.memberAt x.1).session = some x.2.2 ∧ (σ.memberAt src).pairs < peerMaxPerVM ∧
      (σ.memberAt x.1).pairs < peerMaxPerVM ∧
      σ.pairOf (makePairKey (σ.memberAt src).mac dst) = none := by
  unfold pairable at h
  rcases hd : σ.members dst with _ | d
  · rw [hd] at h
    cases h
  · rw [hd] at h
    dsimp only at h
    split at h
    · cases h
    · rename_i hne
      split at h
      · rename_i a b ha hb
        split at h
        · cases h
        · rename_i hmax
          split at h
          · cases h
          · rename_i hkey
            cases h
            rw [not_or, Int.not_le, Int.not_le] at hmax
            rw [not_or, Option.isSome_iff_ne_none, not_not] at hkey
            exact ⟨rfl, hne, ha, hb, hmax.1, hmax.2, hkey.1⟩
      · cases h

/-- The acts of the switch.  With `strict`, an end of a link is offered only while
its pair is in the table. -/
inductive Act (strict : Prop) : Config → Config → Prop
  | tear {c c' : Config} (h : Tear c c') : Act strict c c'
  | enroll (σ : Switch) (mac ip)
      (h : ∀ old, σ.members mac = some old → (σ.memberAt old).session = none) :
      Act strict (.free σ) (.free (σ.enroll mac ip))
  | strike (σ : Switch) (m) (h : (σ.memberAt m).session = none) :
      Act strict (.free σ) (.free (σ.strike m))
  | greet (σ : Switch) (m) (hm : m < σ.nextMember) (hreg : σ.members (σ.memberAt m).mac = some m)
      (h : (σ.memberAt m).session = none) :
      Act strict (.free σ)
        (.free ((σ.install m).push σ.nextSession ((σ.install m).welcomeMessage m) none))
  | link (σ : Switch) (src dst now d a b) (hsrc : src < σ.nextMember)
      (h : σ.pairable src dst now = some (d, a, b)) :
      Act strict (.free σ)
        ⟨[], [], [(σ.nextPair, 0, σ.nextFD), (σ.nextPair, 1, σ.nextFD + 1)],
          σ.link src d a b (makePairKey (σ.memberAt src).mac dst)⟩
  | add (e a) (σ : Switch) (r i fd) (h : strict → σ.InTable r)
      (hopen : (σ.sessionAt ((σ.pairAt r).side i)).closed = false) :
      Act strict ⟨[], e, (r, i, fd) :: a, σ⟩
        ⟨[], e, a, (σ.dupFD fd).push ((σ.pairAt r).side i) (σ.addMessage r i) (some σ.nextFD)⟩
  | drop (e a) (σ : Switch) (r i fd) (h : strict → σ.InTable r) :
      Act strict ⟨[], e, (r, i, fd) :: a, σ⟩ ⟨[], e, a, (σ.dupFD fd).closeFD (some σ.nextFD)⟩
  | giveUp (o e a) (σ : Switch) : Act strict ⟨o, e, a, σ⟩ ⟨o, e, [], σ⟩
  | accept (σ : Switch) (r i) (h : σ.byID (σ.pairAt r).id = some r) :
      Act strict (.free σ) (.free (σ.accept r i))
  | stats (σ : Switch) (m tx rx) :
      Act strict (.free σ) (.free (σ.setMember m fun t => { t with tx, rx }))
  | retire (σ : Switch) (s) (h : (σ.sessionAt s).writer = .failed) :
      Act strict (.free σ) (.free (σ.setSession s fun t => { t with writer := .draining }))

abbrev Acts (strict : Prop) := ReflTransGen (Act strict)

theorem Tears.acts {strict : Prop} (h : Tears c c') : Acts strict c c' := by
  induction h with
  | refl => exact .refl
  | tail _ h ih => exact ih.tail (.tear h)

theorem Acts.invariant {strict : Prop} {I : Config → Prop}
    (hact : ∀ c c', Act strict c c' → I c → I c') (h : Acts strict c c') (hc : I c) :
    I c' := by
  induction h with
  | refl => exact hc
  | tail _ h ih => exact hact _ _ h ih

end Jerboa.Peer
