import Jerboa.Image.Tree

/-!
# Image integrity

What `Get` returns hashes to the digest it returns with it, whatever calls came
before and wherever they were cut short.  A `Put` that returns success can be
read back exactly where it found no disk file in its directory, or the whole
one: it keeps a file that is there without looking into it, and a copy that was
cut short leaves one.
-/

namespace Jerboa.Image

open Net.Address Lib Lib.Run

variable {Extra : Type} {host : Host} {s : Store Extra}

/-- A directory whose record of verification, where it is about the present
file, is right about it.  Identities come from the clock, so that a record is
never about a later file. -/
structure Sound (host : Host) (clock : Nat) (d : ImgDir Extra) : Prop where
  disk_lt : ∀ f, d.disk = some f → f.identity < clock
  record_lt : ∀ r, d.verified = some r → r.disk < clock
  right : ∀ r f, d.verified = some r → d.disk = some f → f.identity = r.disk →
    host.digest f.content = r.digest

def AllSound (host : Host) (s : Store Extra) : Prop :=
  Everywhere (fun _ d => Sound host s.clock d) s

theorem sound_empty (host : Host) (clock : Nat) :
    Sound host clock (ImgDir.empty : ImgDir Extra) :=
  ⟨nofun, nofun, nofun⟩

variable {d : ImgDir Extra}

theorem Sound.mono {clock clock' : Nat} (h : Sound host clock d) (hle : clock ≤ clock') :
    Sound host clock' d where
  disk_lt f hf := (h.disk_lt f hf).trans_le hle
  record_lt r hr := (h.record_lt r hr).trans_le hle
  right := h.right

theorem Sound.renew {clock : Nat} (h : Sound host clock d) {disk : Option DiskFile}
    (hdisk : ∀ f, disk = some f → f.identity = clock) :
    Sound host (clock + 1) { d with disk := disk } where
  disk_lt f hf := by
    rw [hdisk f hf]
    exact Nat.lt_succ_self clock
  record_lt r hr := (h.record_lt r hr).trans (Nat.lt_succ_self clock)
  right r f hr hf hid := by
    have hlt := h.record_lt r hr
    rw [← hid, hdisk f hf] at hlt
    exact absurd hlt (Nat.lt_irrefl clock)

/-! ## One change -/

/-- `put` marks a disk as verified without reading it only where it is the file
it has hashed. -/
def MarkOk (host : Host) (s : Store Extra) : Effect Extra → Prop
  | .markVerified sha digest => ∀ f, s.disk sha = some f → host.digest f.content = digest
  | _ => True

variable {sha digest : Text}

theorem allSound_markVerified (h : AllSound host s)
    (hmark : ∀ f, s.disk sha = some f → host.digest f.content = digest) :
    AllSound host (markVerified host s sha digest) := by
  unfold markVerified
  cases hid : (s.disk sha).bind host.fileIdentity with
  | none => exact h
  | some id =>
    obtain ⟨f, hf, hfid⟩ := Option.bind_eq_some_iff.mp hid
    have hid : id = f.identity := by
      unfold Host.fileIdentity at hfid
      split at hfid
      · exact (Option.some.inj hfid).symm
      · exact nomatch hfid
    unfold AllSound
    rw [Store.modify_clock]
    refine h.change (s.dir_modify sha _) (fun _ _ hd => hd) fun d hd hsound => ?_
    have hdf : d.disk = some f := by
      rw [Store.disk, hd] at hf
      exact hf
    refine ⟨hsound.disk_lt, ?_, ?_⟩
    · rintro r hr
      cases hr
      exact hid ▸ hsound.disk_lt f hdf
    · rintro r g hr hg -
      cases hr
      cases hdf.symm.trans hg
      exact hmark f hf

theorem hashes_eq_true (h : host.hashes s sha digest = true) :
    ∃ f, s.disk sha = some f ∧ host.digest f.content = digest := by
  unfold Host.hashes at h
  cases hf : s.disk sha with
  | none =>
    rw [hf] at h
    exact nomatch h
  | some f =>
    rw [hf] at h
    exact ⟨f, rfl, of_decide_eq_true h⟩

theorem allSound_exec (h : AllSound host s) {e : Effect Extra} (he : MarkOk host s e) :
    AllSound host (exec host s e) := by
  have hlater : ∀ (_ : Text) (d : ImgDir Extra),
      Sound host s.clock d → Sound host (s.clock + 1) d :=
    fun _ _ hd => hd.mono (Nat.le_succ s.clock)
  -- A change that leaves the disk, the record and the clock alone.
  have hkeep : ∀ {sha : Text} {f : ImgDir Extra → ImgDir Extra},
      (∀ d, (f d).disk = d.disk ∧ (f d).verified = d.verified) →
        AllSound host (s.modify sha f) := by
    intro sha f hf
    unfold AllSound
    rw [Store.modify_clock]
    refine h.change (s.dir_modify sha f) (fun _ _ hd => hd) fun d _ hd => ?_
    obtain ⟨hdisk, hverified⟩ := hf d
    exact ⟨hdisk ▸ hd.disk_lt, hverified ▸ hd.record_lt, hdisk ▸ hverified ▸ hd.right⟩
  cases e with
  | mkdir sha =>
    have hclock : (exec host s (.mkdir sha)).clock = s.clock := by
      simp only [exec]
      split <;> rfl
    unfold AllSound
    rw [hclock]
    exact h.mkdir host (sound_empty host s.clock)
  | writeDisk sha content =>
    exact h.change (dir_writeDisk host s sha · content) hlater fun d _ hd =>
      hd.renew fun f hf => (Option.some.inj hf) ▸ rfl
  | chmod sha =>
    refine h.change (dir_chmod host s sha) hlater fun d _ hd => hd.renew fun f hf => ?_
    obtain ⟨f₀, -, rfl⟩ := Option.map_eq_some_iff.mp hf
    rfl
  | markVerified => exact allSound_markVerified h he
  | verifyDisk =>
    simp only [exec]
    split
    · next hhash =>
      obtain ⟨f, hf, hdigest⟩ := hashes_eq_true hhash
      refine allSound_markVerified h fun g hg => ?_
      rw [Option.some.inj (hg.symm.trans hf)]
      exact hdigest
    · exact h
  | writeManifest | writeTag | removeTag => exact hkeep fun d => ⟨rfl, rfl⟩
  | writeRefs => exact h
  | removeAll => exact h.removeAll host

/-! ## Whole calls -/

theorem markOk_of_ne {e : Effect Extra} (he : ∀ sha digest, e ≠ .markVerified sha digest) :
    MarkOk host s e := by
  cases e with
  | markVerified sha digest => exact absurd rfl (he sha digest)
  | _ => trivial

theorem allSteps_markOk {effects : List (Effect Extra)}
    (h : ∀ e ∈ effects, ∀ sha digest, e ≠ .markVerified sha digest) :
    AllSteps (exec host) (MarkOk host) s effects := by
  induction effects generalizing s with
  | nil => trivial
  | cons e effects ih =>
    exact ⟨markOk_of_ne (h e List.mem_cons_self), ih fun e he => h e (List.mem_cons_of_mem _ he)⟩

theorem allSteps_storeDisk {disk : Bytes} (renamed : Bool) (copied : Nat)
    (hd : s.dir (host.sha256Hex disk) = some d) :
    AllSteps (exec host) (MarkOk host) s (storeDisk host disk renamed copied) := by
  cases renamed with
  | true =>
    refine ⟨trivial, trivial, fun f hf => ?_, trivial⟩
    obtain ⟨g, hg, hplace⟩ := dir_chmod_writeDisk host s disk hd
    rw [Store.disk, hplace, if_pos rfl] at hf
    cases hf
    rw [hg]
  | false => exact ⟨trivial, trivial, trivial, trivial, trivial⟩

theorem allSteps_put (name tag : Text) (m : Manifest Extra) (disk : Bytes) (renamed : Bool)
    (copied : Nat) :
    AllSteps (exec host) (MarkOk host) s (put host s name tag m disk renamed copied) := by
  refine ⟨trivial, (allSteps_append _ _ _).mpr ⟨?_, trivial, trivial, trivial, trivial⟩⟩
  split
  · trivial
  · exact allSteps_storeDisk renamed copied ((dir_mkdir host s _ _).trans (if_pos rfl))

theorem allSteps_plan {c : Call Extra} {effects : List (Effect Extra)}
    (hplan : plan host s c = .ok effects) :
    AllSteps (exec host) (MarkOk host) s effects := by
  cases c with
  | put name tag m disk renamed copied =>
    cases hplan
    exact allSteps_put name tag m disk renamed copied
  | tag =>
    simp only [plan, tag] at hplan
    split at hplan
    · exact nomatch hplan
    · split at hplan
      · exact nomatch hplan
      · cases hplan
        exact ⟨trivial, trivial, trivial, trivial⟩
  | setRecipe =>
    simp only [plan, setRecipe] at hplan
    split at hplan
    · exact nomatch hplan
    · exact nomatch hplan
    · split at hplan
      · exact nomatch hplan
      · cases hplan
        exact ⟨trivial, trivial, trivial⟩
  | remove =>
    simp only [plan, remove] at hplan
    split at hplan
    · exact nomatch hplan
    · cases hplan
      apply allSteps_markOk
      intro e he sha digest
      rcases List.mem_append.mp he with he | he
      · obtain ⟨r, -, rfl⟩ := List.mem_map.mp he
        exact nofun
      · rcases List.mem_cons.mp he with rfl | he
        · exact nofun
        · split at he
          · exact nomatch he
          · cases List.mem_singleton.mp he
            exact nofun
  | pruneUnreferenced =>
    cases hplan
    apply allSteps_markOk
    intro e he sha digest
    obtain ⟨r, -, rfl⟩ := List.mem_map.mp he
    exact nofun
  | get =>
    cases hplan
    apply allSteps_markOk
    intro e he sha digest
    unfold verification at he
    split at he
    · exact nomatch he
    · split at he
      · exact nomatch he
      · cases List.mem_singleton.mp he
        exact nofun

theorem allSound_act (h : AllSound host s) (a : Action Extra) : AllSound host (act host s a) := by
  unfold act
  cases hplan : plan host s a.call with
  | error => exact h
  | ok effects =>
    have hrun : ∀ es, AllSteps (exec host) (MarkOk host) s es →
        AllSound host (run (exec host) s es) := fun es hes =>
      run_invariant_of_allSteps (I := AllSound host) (fun _ _ hs he => allSound_exec hs he) h hes
    cases a.cut with
    | none => exact hrun effects (allSteps_plan hplan)
    | some n => exact hrun _ ((allSteps_plan hplan).take n)

theorem allSound_new (tagFile : Text → Text) : AllSound host (.new tagFile : Store Extra) := nofun

theorem get_eq_ok {ref : Text} {m : Manifest Extra} {sha : Text} :
    host.get s ref = .ok (m, sha) ↔
      resolve s ref = .ok (m, sha) ∧ host.trusted s sha m.diskDigest = true := by
  unfold Host.get
  cases hres : resolve s ref with
  | error => simp
  | ok r =>
    obtain ⟨m', sha'⟩ := r
    simp only [Except.ok.injEq, Prod.mk.injEq]
    split
    · next htrust =>
      constructor
      · intro h
        cases h
        exact ⟨⟨rfl, rfl⟩, htrust⟩
      · rintro ⟨⟨rfl, rfl⟩, -⟩
        rfl
    · next htrust =>
      constructor
      · exact nofun
      · rintro ⟨⟨rfl, rfl⟩, h⟩
        exact absurd h htrust

theorem digest_of_recorded (h : AllSound host s) (hrec : host.recorded s sha digest = true) :
    ∃ f, s.disk sha = some f ∧ host.digest f.content = digest := by
  unfold Host.recorded at hrec
  split at hrec
  · next r f hr hf =>
    obtain ⟨hdigest, hid⟩ := (Bool.and_eq_true _ _).mp hrec
    obtain ⟨d, hd, hdf⟩ := Option.bind_eq_some_iff.mp hf
    have hdr : d.verified = some r := by
      rw [Store.verified, hd] at hr
      exact hr
    have hidentity : f.identity = r.disk := by
      have hid := of_decide_eq_true hid
      unfold Host.fileIdentity at hid
      split at hid
      · exact Option.some.inj hid
      · exact nomatch hid
    exact ⟨f, hf, ((h sha d hd).right r f hdr hdf hidentity).trans (of_decide_eq_true hdigest)⟩
  · exact nomatch hrec

theorem get_intact (h : AllSound host s) {ref : Text} {m : Manifest Extra} {sha : Text}
    (hget : host.get s ref = .ok (m, sha)) :
    ∃ f, s.disk sha = some f ∧ host.digest f.content = m.diskDigest := by
  have htrust := (get_eq_ok.mp hget).2
  rcases (Bool.or_eq_true _ _).mp ((Bool.and_eq_true _ _).mp htrust).2 with hrec | hhash
  · exact digest_of_recorded h hrec
  · exact hashes_eq_true hhash

/-! ## What Put stores -/

/-- A `Put` that returns success is read back: `Get` of its reference returns
its manifest and a disk with its bytes. -/
def PutReadable (host : Host) (s : Store Extra) (a : Action Extra) : Prop :=
  match a.call, a.cut with
  | .put name tag m disk _ _, none =>
    ∃ sha f, host.get (act host s a) (refText name tag) =
        .ok (storedManifest host name tag m disk, sha) ∧
      (act host s a).disk sha = some f ∧ f.content = disk
  | _, _ => True

/-- A `Put` that returns success has a manifest that passes the checks of `Get`, once
the name, the tag and the digest are filled in, and finds in the directory of its
digest no disk file, or one that holds the whole disk. -/
def FindsWhole (host : Host) (s : Store Extra) (a : Action Extra) : Prop :=
  match a.call, a.cut with
  | .put name tag m disk _ _, none =>
    validate (storedManifest host name tag m disk) = .ok () ∧
      ∀ f, s.disk (host.sha256Hex disk) = some f → f.content = disk
  | _, _ => True

theorem validate_of_resolve {ref sha sha' : Text} {m m' : Manifest Extra}
    (href : s.refs.lookup ref = some sha) (htag : s.tagManifest sha ref = some m)
    (h : resolve s ref = .ok (m', sha')) : validate m = .ok () := by
  obtain ⟨name, hname, hread⟩ := resolve_eq_ok h
  simp only [resolveRefName, href, Except.ok.injEq, Prod.mk.injEq] at hname
  obtain ⟨rfl, rfl⟩ := hname
  simp only [readRefManifest, htag, parse] at hread
  split at hread
  · assumption
  · cases hread

theorem trusted_of_disk {sha : Text} {f : DiskFile} (hhex : isSHA256Hex sha = true)
    (hdisk : s.disk sha = some f) (hdigest : host.digest f.content = digestText sha) :
    host.trusted s sha (digestText sha) = true := by
  simp only [Host.trusted, Host.hashes, stripPrefix_digestText, hhex, hdisk, hdigest, decide_true,
    Bool.true_and, Bool.or_true]

theorem putReadable_iff (hsha : ∀ b, isSHA256Hex (host.sha256Hex b) = true)
    (s : Store Extra) (a : Action Extra) : PutReadable host s a ↔ FindsWhole host s a := by
  obtain ⟨c, cut⟩ := a
  cases c with
  | put name tag m disk renamed copied =>
    cases cut with
    | some => exact Iff.rfl
    | none =>
      obtain ⟨f, v, hf, hdir, hrefs⟩ := run_put host s disk renamed copied name tag m
      set s' := act host s ⟨.put name tag m disk renamed copied, none⟩ with hs'
      set sha := host.sha256Hex disk with hshadef
      have hdir_sha := (hdir sha).trans (if_pos rfl)
      have hdisk : s'.disk sha = some f := by
        rw [Store.disk, hs']
        exact (congrArg (Option.bind · ImgDir.disk) hdir_sha)
      have href : s'.refs.lookup (refText name tag) = some sha :=
        (congrArg (AList.lookup _) hrefs).trans (AList.lookup_insert s.refs)
      have htag : s'.tagManifest sha (refText name tag) =
          some (storedManifest host name tag m disk) := by
        have hfile : s'.tagFile = s.tagFile := run_exec_tagFile host s _
        rw [Store.tagManifest, hfile]
        exact (congrArg (Option.bind · _) hdir_sha).trans (AList.lookup_insert _)
      have hresolve (hvalid : validate (storedManifest host name tag m disk) = .ok ()) :
          resolve s' (refText name tag) = .ok (storedManifest host name tag m disk, sha) :=
        resolve_of_tagManifest href htag hvalid rfl
      constructor
      · -- The file is not touched where it was there.
        rintro ⟨sha', g, hget, hg, hcontent⟩
        have hvalid := validate_of_resolve href htag (get_eq_ok.mp hget).1
        refine ⟨hvalid, fun f₀ hf₀ => ?_⟩
        have hsame := (hresolve hvalid).symm.trans (get_eq_ok.mp hget).1
        cases (Prod.mk.inj (Except.ok.inj hsame)).2
        cases hdisk.symm.trans hg
        rcases hf with hf | ⟨hnone, -⟩
        · rw [Option.some.inj (hf₀.symm.trans hf)]
          exact hcontent
        · exact nomatch hnone.symm.trans hf₀
      · rintro ⟨hvalid, hwhole⟩
        have hcontent : f.content = disk := by
          rcases hf with hf | ⟨-, hcontent⟩
          · exact hwhole f hf
          · exact hcontent
        refine ⟨sha, f, get_eq_ok.mpr ⟨hresolve hvalid, ?_⟩, hdisk, hcontent⟩
        exact trusted_of_disk (hsha disk) hdisk (by rw [hcontent, Host.digest])
  | _ => exact Iff.rfl

/-- In every history of calls, each completed, refused or cut short: what `Get`
returns hashes to its digest; and every `Put` that returned success could be
read back if and only if every one had a proper manifest and found no disk file,
or the whole one, in its directory. -/
theorem image_integrity_iff (host : Host) (hsha : ∀ b, isSHA256Hex (host.sha256Hex b) = true)
    (tagFile : Text → Text) (as : List (Action Extra)) :
    (∀ ref m sha, host.get (run (act host) (.new tagFile) as) ref = .ok (m, sha) →
      ∃ f, (run (act host) (.new tagFile) as).disk sha = some f ∧
        host.digest f.content = m.diskDigest) ∧
      (AllSteps (act host) (PutReadable host) (.new tagFile) as ↔
        AllSteps (act host) (FindsWhole host) (.new tagFile) as) := by
  constructor
  · intro ref m sha hget
    have hsound : AllSound host (run (act host) (.new tagFile) as) :=
      run_invariant (I := AllSound host) (fun _ a h => allSound_act h a) (allSound_new tagFile) as
    exact get_intact hsound hget
  · exact allSteps_congr_of_forall (fun a _ s => putReadable_iff hsha s a) (.new tagFile)

def sampleHost : Host := ⟨sampleSha256Hex, true⟩

def sampleManifest : Manifest Unit where
  platform := "linux/amd64".toList
  architecture := "amd64".toList
  schemaVersion := 1
  name := []
  tag := []
  diskDigest := []
  diskSize := 2
  layout := []
  recipe := []
  extra := ()

def putSample : Call Unit :=
  .put "app".toList "latest".toList sampleManifest [1, 2] false 1

/-- `Put` is cut short after one byte of the copy, and called again. -/
def cutThenPut : List (Action Unit) := [⟨putSample, some 2⟩, ⟨putSample, none⟩]

/-- The second call returns success, and `Get` refuses its reference. -/
theorem put_kept_cut_copy :
    validate (storedManifest sampleHost "app".toList "latest".toList sampleManifest [1, 2]) =
        .ok () ∧
      ¬AllSteps (act sampleHost) (PutReadable sampleHost) (.new id) cutThenPut ∧
      sampleHost.get (run (act sampleHost) (.new id) cutThenPut) "app:latest".toList =
        .error (.integrityMismatch "app:latest".toList) := by
  have hget : sampleHost.get (run (act sampleHost) (.new id) cutThenPut) "app:latest".toList =
      .error (.integrityMismatch "app:latest".toList) := by
    decide +kernel
  refine ⟨by decide +kernel, ?_, hget⟩
  rintro ⟨-, ⟨sha, f, hput, -⟩, -⟩
  exact nomatch hput.symm.trans hget

/-- A first `Put` that completes, and a second one of the same disk. -/
theorem image_integrity_twice :
    AllSteps (act sampleHost) (PutReadable sampleHost) (.new id)
      [⟨putSample, none⟩, ⟨putSample, none⟩] := by
  have hvalid : validate (storedManifest sampleHost "app".toList "latest".toList sampleManifest
      [1, 2]) = .ok () := by
    decide +kernel
  refine (image_integrity_iff sampleHost isSHA256Hex_sample id _).2.mpr
    ⟨⟨hvalid, ?_⟩, ⟨hvalid, ?_⟩, trivial⟩
  · exact nofun
  · intro f hf
    have hdisk : (act sampleHost (.new id) ⟨putSample, none⟩).disk (sampleSha256Hex [1, 2]) =
        some ⟨[1, 2], 2⟩ := by decide +kernel
    rw [Option.some.inj (hf.symm.trans hdisk)]

end Jerboa.Image
