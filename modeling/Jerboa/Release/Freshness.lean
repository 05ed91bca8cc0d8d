import Jerboa.Lib.Run
import Jerboa.Net.Address

/-!
# Superseded manifests

`checkFresh` of package `release` refuses a manifest that is older than one accepted before,
by the times in a file that all processes share.  A process reads the file, decides, and
renames a new one into its place; other processes come in between.  Writing succeeds, and
`parse` is `time.Parse` of a text in RFC 3339.
-/

namespace Jerboa.Release.Freshness

open Function Lib.Run Net.Address

/-- The texts in the state file, by origin and channel. -/
abbrev Seen := Text → Option Text

def stateKey (base channel : Text) : Text := base ++ ' ' :: channel

inductive Refusal where
  | noTime (last : Text)
  | invalid
  | older (last : Text)

/-- What `checkFresh` does when it has read the file: it refuses the manifest, accepts it, or
writes the file and accepts it. -/
inductive Decision where
  | refuse (why : Refusal)
  | accept
  | record (seen : Seen)

section

variable {T : Type*} [LinearOrder T] (parse : Text → Option T)

def checkFresh (seen : Seen) (key generated : Text) : Decision :=
  if generated = [] then
    match seen key with
    | some last => .refuse (.noTime last)
    | none => .accept
  else
    match parse generated, (seen key) with
    | none, _ => .refuse .invalid
    | some _, none => .record (update seen key (some generated))
    | some time, some last =>
      match parse last with
      | none => .record (update seen key (some generated))
      | some lastTime =>
        if time < lastTime then .refuse (.older last)
        else if ¬ lastTime < time then .accept
        else .record (update seen key (some generated))

/-- A check that is about to rename its file into place. -/
structure Write where
  key : Text
  generated : Text
  read : Seen
  seen : Seen

/-- The file, what the processes are about to write, and what was accepted so far. -/
structure Sys where
  file : Seen := fun _ => none
  pending : Nat → Option Write := fun _ => none
  accepted : List (Text × Text) := []

inductive Action where
  | check (p : Nat) (base channel generated : Text)
  | write (p : Nat)

def step (s : Sys) : Action → Sys
  | .check p base channel generated =>
    let key := stateKey base channel
    if (s.pending p).isSome then s
    else
      match checkFresh parse s.file key generated with
      | .refuse _ => s
      | .accept => { s with accepted := (key, generated) :: s.accepted }
      | .record seen =>
        { s with pending := update s.pending p (some ⟨key, generated, s.file, seen⟩) }
  | .write p =>
    match s.pending p with
    | none => s
    | some w => ⟨w.seen, update s.pending p none, (w.key, w.generated) :: s.accepted⟩

/-- The file is still the one that the process has read. -/
def Undisturbed (s : Sys) : Action → Prop
  | .check .. => True
  | .write p => ∀ w ∈ s.pending p, s.file = w.read

/-- No key is lost, and no time goes back. -/
def Grows (f f' : Seen) : Prop :=
  ∀ key, ∀ last ∈ f key, ∃ last' ∈ f' key, ∀ t ∈ parse last, ∃ t' ∈ parse last', t ≤ t'

/-- The check of a manifest without a time, or with one before that of an accepted manifest. -/
def Refuses (s : Sys) : Prop :=
  ∀ key generated old, (key, generated) ∈ s.accepted → generated ≠ [] →
    (old = [] ∨ ∀ t ∈ parse generated, ∀ t' ∈ parse old, t' < t) →
      ∃ why, checkFresh parse s.file key old = .refuse why

structure Inv (s : Sys) : Prop where
  accepted : ∀ key generated, (key, generated) ∈ s.accepted → generated ≠ [] →
    ∃ t ∈ parse generated, ∃ last ∈ s.file key, ∃ l ∈ parse last, t ≤ l
  pending : ∀ p, ∀ w ∈ s.pending p, w.seen = update w.read w.key (some w.generated) ∧
    w.generated ≠ [] ∧ ∃ t ∈ parse w.generated, ∀ last ∈ w.read w.key, ∀ l ∈ parse last, l < t

variable {parse} {s : Sys} {seen : Seen} {key generated : Text}

theorem checkFresh_accept (h : checkFresh parse seen key generated = .accept)
    (hne : generated ≠ []) :
    ∃ t ∈ parse generated, ∃ last ∈ seen key, ∃ l ∈ parse last, t ≤ l := by
  unfold checkFresh at h
  rw [if_neg hne] at h
  split at h
  · cases h
  · cases h
  · next time last htime hlast =>
    split at h
    · cases h
    · next lastTime hparse =>
      split_ifs at h with hlt hle
      exact ⟨time, htime, last, hlast, lastTime, hparse, not_lt.mp hle⟩

theorem checkFresh_record {seen' : Seen} (h : checkFresh parse seen key generated = .record seen') :
    seen' = update seen key (some generated) ∧ generated ≠ [] ∧
      ∃ t ∈ parse generated, ∀ last ∈ seen key, ∀ l ∈ parse last, l < t := by
  unfold checkFresh at h
  split at h
  · split at h <;> cases h
  · next hne =>
    split at h
    · cases h
    · next time htime hnone =>
      cases h
      exact ⟨rfl, hne, time, htime, fun last hlast => by simp [hnone] at hlast⟩
    · next time last htime hlast =>
      refine ⟨?_, hne, time, htime, fun last' hlast' l hl => ?_⟩
      · split at h
        · cases h
          rfl
        · split_ifs at h
          cases h
          rfl
      · cases hlast.symm.trans hlast'
        rw [Option.mem_def.mp hl] at h
        dsimp only at h
        split_ifs at h with hlt hle
        exact hle

/-- A check against what an accepted manifest has left refuses what is older. -/
theorem refuses_of_inv (h : Inv parse s) : Refuses parse s := by
  intro key generated old hmem hne hold
  obtain ⟨t, ht, last, hlast, l, hl, hle⟩ := h.accepted key generated hmem hne
  rw [checkFresh, Option.mem_def.mp hlast]
  by_cases hempty : old = []
  · rw [if_pos hempty]
    exact ⟨_, rfl⟩
  · rw [if_neg hempty]
    cases hparse : parse old with
    | none => exact ⟨_, rfl⟩
    | some time =>
      have hlt : time < l := (hold.resolve_left hempty t ht time hparse).trans_le hle
      simp only [Option.mem_def.mp hl, if_pos hlt]
      exact ⟨_, rfl⟩

theorem grows_refl (f : Seen) : Grows parse f f :=
  fun _ last hlast => ⟨last, hlast, fun t ht => ⟨t, ht, le_refl t⟩⟩

theorem grows_update {f : Seen} {t : T} (ht : t ∈ parse generated)
    (hlt : ∀ last ∈ f key, ∀ l ∈ parse last, l < t) :
    Grows parse f (update f key (some generated)) := by
  intro k last hlast
  by_cases hk : k = key
  · subst hk
    refine ⟨generated, by rw [update_self]; rfl, fun l hl => ⟨t, ht, (hlt last hlast l hl).le⟩⟩
  · rw [update_of_ne hk]
    exact ⟨last, hlast, fun l hl => ⟨l, hl, le_refl l⟩⟩

theorem Inv.grows (h : Inv parse s) {a : Action} (ha : Undisturbed s a) :
    Grows parse s.file (step parse s a).file := by
  cases a with
  | check =>
    simp only [step]
    split_ifs
    · exact grows_refl _
    · split <;> exact grows_refl _
  | write p =>
    simp only [step]
    split
    · exact grows_refl _
    · next w hw =>
      obtain ⟨hseen, -, t, ht, hlt⟩ := h.pending p w hw
      rw [← ha w hw] at hseen hlt
      rw [hseen]
      exact grows_update ht hlt

omit [LinearOrder T] in
theorem mem_update {f : Nat → Option Write} {p q : Nat} {v : Option Write} {w : Write}
    (h : w ∈ update f p v q) : w ∈ v ∨ w ∈ f q := by
  rw [update_apply] at h
  split_ifs at h
  · exact .inl h
  · exact .inr h

theorem Inv.step (h : Inv parse s) {a : Action} (ha : Undisturbed s a) :
    Inv parse (step parse s a) := by
  have hgrows := h.grows ha
  cases a with
  | check =>
    simp only [Freshness.step]
    split_ifs with hidle
    · exact h
    · split
      · exact h
      · next hcheck =>
        refine ⟨fun key gen hmem hne => ?_, h.pending⟩
        rcases List.mem_cons.mp hmem with heq | hmem
        · cases heq
          exact checkFresh_accept hcheck hne
        · exact h.accepted key gen hmem hne
      · next seen hcheck =>
        refine ⟨h.accepted, fun q w hw => ?_⟩
        rcases mem_update hw with hw | hw
        · cases hw
          exact checkFresh_record hcheck
        · exact h.pending q w hw
  | write p =>
    simp only [Freshness.step] at hgrows ⊢
    split
    · exact h
    · next w hw =>
      simp only [hw] at hgrows
      obtain ⟨hseen, -, t, ht, -⟩ := h.pending p w hw
      refine ⟨fun key gen hmem hne => ?_, fun q v hv => ?_⟩
      · rcases List.mem_cons.mp hmem with heq | hmem
        · cases heq
          have hfile : w.seen w.key = some w.generated := by rw [hseen, update_self]
          exact ⟨t, ht, w.generated, hfile, t, ht, le_refl t⟩
        · obtain ⟨t, ht, last, hlast, l, hl, hle⟩ := h.accepted key gen hmem hne
          obtain ⟨last', hlast', hlater⟩ := hgrows key last hlast
          obtain ⟨l', hl', hle'⟩ := hlater l hl
          exact ⟨t, ht, last', hlast', l', hl', hle.trans hle'⟩
      · rcases mem_update hv with hv | hv
        · cases hv
        · exact h.pending q v hv

/-- In every run in which no other process writes between a check's reading and writing, older
manifests are refused and what is recorded stays. -/
theorem no_rollback (as : List Action) (has : AllSteps (step parse) Undisturbed {} as) :
    Refuses parse (run (step parse) {} as) ∧
      AllSteps (step parse) (fun s a => Grows parse s.file (step parse s a).file) {} as := by
  have hinit : Inv parse {} := ⟨nofun, nofun⟩
  have hstep : ∀ s a, Inv parse s → Undisturbed s a → Inv parse (step parse s a) := fun _ _ hs ha =>
    hs.step ha
  exact ⟨refuses_of_inv (run_invariant_of_allSteps hstep hinit has),
    has.of_invariant hstep (fun _ _ hs ha => hs.grows ha) hinit⟩

end

/-- The times `YYYY-MM-DDThh:mm:ssZ`, as the number that their digits make. -/
def utcTime (s : Text) : Option Nat :=
  if s.map (fun c => if c.isDigit then '0' else c) = "0000-00-00T00:00:00Z".toList then
    some ((s.filter Char.isDigit).foldl (fun n c => 10 * n + (c.toNat - 48)) 0)
  else none

def origin : Text := "https://releases.jerboa.dev".toList
def stable : Text := "stable".toList
def edge : Text := "edge".toList
def january : Text := "2026-01-05T00:00:00Z".toList
def march : Text := "2026-03-01T12:30:00Z".toList

/-- Two processes take turns: one channel goes from January to March, another is recorded in
between, and January's manifest is served again. -/
def turns : List Action :=
  [.check 0 origin stable january, .write 0, .check 1 origin edge january, .write 1,
    .check 1 origin stable march, .write 1, .check 0 origin stable january]

theorem no_rollback_later :
    Refuses utcTime (run (step utcTime) {} turns) ∧
      AllSteps (step utcTime) (fun s a => Grows utcTime s.file (step utcTime s a).file) {} turns ∧
      (run (step utcTime) {} turns).file (stateKey origin stable) = some march ∧
      (run (step utcTime) {} turns).file (stateKey origin edge) = some january ∧
      (run (step utcTime) {} turns).accepted =
        [(stateKey origin stable, march), (stateKey origin edge, january),
          (stateKey origin stable, january)] := by
  have hturns : AllSteps (step utcTime) Undisturbed {} turns := by
    refine ⟨trivial, ?_, trivial, ?_, trivial, ?_, trivial, trivial⟩ <;>
      · intro w hw
        cases hw
        rfl
  obtain ⟨hrefuses, hgrows⟩ := no_rollback turns hturns
  exact ⟨hrefuses, hgrows, by decide, by decide, by decide⟩

/-- Two processes read before either writes. -/
def raced : Sys :=
  run (step utcTime) {} [.check 0 origin stable january, .check 1 origin stable march,
    .write 1, .write 0]

/-- The one that writes last takes away what the other has recorded: January's manifest is
accepted after March's. -/
theorem record_lost :
    (stateKey origin stable, march) ∈ raced.accepted ∧
      raced.file (stateKey origin stable) = some january ∧
      checkFresh utcTime raced.file (stateKey origin stable) january = .accept := by
  refine ⟨by decide, by decide, rfl⟩

end Jerboa.Release.Freshness
