import Jerboa.Image.Store

/-!
# The directory tree of the image store

What each change leaves in the directories and in the index, and what a whole
`put` leaves there.
-/

namespace Jerboa.Image

open Net.Address Lib Lib.Run

variable {Extra : Type}

/-! ## The tree after a change -/

namespace Store

variable (s : Store Extra) (sha : Text)

/-- The directory with what `os.MkdirAll` makes of a missing one. -/
def dirD : ImgDir Extra := (s.dir sha).getD .empty

section

variable (f : ImgDir Extra → ImgDir Extra)
include f

@[simp] theorem modify_refs :
    (s.modify sha f).refs = s.refs := by
  unfold modify
  split <;> rfl

@[simp] theorem modify_clock :
    (s.modify sha f).clock = s.clock := by
  unfold modify
  split <;> rfl

@[simp] theorem modify_tagFile :
    (s.modify sha f).tagFile = s.tagFile := by
  unfold modify
  split <;> rfl

theorem dir_modify (other : Text) :
    (s.modify sha f).dir other = if other = sha then (s.dir sha).map f else s.dir other := by
  rcases eq_or_ne other sha with rfl | h
  · rw [if_pos rfl]
    unfold modify
    cases hd : s.dir other with
    | none => exact hd
    | some => exact AList.lookup_insert s.dirs
  · rw [if_neg h]
    unfold modify
    cases s.dir sha with
    | none => rfl
    | some => exact AList.lookup_insert_ne h

end

theorem mem_dirs_iff : sha ∈ s.dirs ↔ (s.dir sha).isSome :=
  AList.lookup_isSome.symm

end Store

section Exec

variable (host : Host) (s : Store Extra) (sha other : Text)

theorem dir_mkdir :
    (exec host s (.mkdir sha)).dir other =
      if other = sha then some (s.dirD sha) else s.dir other := by
  simp only [exec, Store.dirD]
  by_cases hmem : sha ∈ s.dirs
  · obtain ⟨d, hd⟩ := Option.isSome_iff_exists.mp ((s.mem_dirs_iff sha).mp hmem)
    rw [if_pos hmem, hd]
    split
    · next h => exact h ▸ hd
    · rfl
  · have hd : s.dir sha = none := by
      rw [← Option.not_isSome_iff_eq_none, ← s.mem_dirs_iff sha]
      exact hmem
    rw [if_neg hmem, hd]
    split
    · next h => exact h ▸ AList.lookup_insert s.dirs
    · next h => exact AList.lookup_insert_ne h

theorem dir_writeDisk (content : Bytes) :
    (exec host s (.writeDisk sha content)).dir other =
      if other = sha then
        (s.dir sha).map fun d => { d with disk := some ⟨content, s.clock⟩ }
      else s.dir other :=
  s.dir_modify sha _ other

theorem dir_chmod :
    (exec host s (.chmod sha)).dir other =
      if other = sha then
        (s.dir sha).map fun d =>
          { d with disk := d.disk.map fun f => { f with identity := s.clock } }
      else s.dir other :=
  s.dir_modify sha _ other

theorem dir_writeManifest (m : Manifest Extra) :
    (exec host s (.writeManifest sha m)).dir other =
      if other = sha then (s.dir sha).map fun d => { d with manifest := some m }
      else s.dir other :=
  s.dir_modify sha _ other

theorem dir_writeTag (ref : Text) (m : Manifest Extra) :
    (exec host s (.writeTag sha ref m)).dir other =
      if other = sha then (s.dir sha).map fun d =>
        { d with tags := d.tags.insert (s.tagFile ref) m }
      else s.dir other :=
  s.dir_modify sha _ other

theorem dir_removeTag (ref : Text) :
    (exec host s (.removeTag sha ref)).dir other =
      if other = sha then (s.dir sha).map fun d => { d with tags := d.tags.erase (s.tagFile ref) }
      else s.dir other :=
  s.dir_modify sha _ other

theorem dir_writeRefs (refs : Refs) : (exec host s (.writeRefs refs)).dir other = s.dir other := rfl

theorem dir_removeAll :
    (exec host s (.removeAll sha)).dir other = if other = sha then none else s.dir other := by
  split
  · next h => exact h ▸ AList.lookup_erase sha s.dirs
  · next h => exact AList.lookup_erase_ne h

@[simp] theorem markVerified_refs (digest : Text) :
    (markVerified host s sha digest).refs = s.refs := by
  unfold markVerified
  split
  · exact s.modify_refs sha _
  · rfl

theorem dir_eq_map_verified :
    s.dir other =
      if other = sha then (s.dir sha).map fun d => { d with verified := d.verified }
      else s.dir other := by
  rcases eq_or_ne other sha with rfl | h
  · rw [if_pos rfl]
    exact Option.map_id'.symm
  · rw [if_neg h]

theorem dir_markVerified (digest : Text) :
    ∃ record : ImgDir Extra → Option VerifiedRecord, ∀ other,
      (markVerified host s sha digest).dir other =
        if other = sha then (s.dir sha).map fun d => { d with verified := record d }
        else s.dir other := by
  simp only [markVerified]
  cases (s.disk sha).bind host.fileIdentity with
  | some => exact ⟨_, fun other => s.dir_modify sha _ other⟩
  | none => exact ⟨ImgDir.verified, dir_eq_map_verified s sha⟩

theorem dir_verifyDisk (digest : Text) :
    ∃ record : ImgDir Extra → Option VerifiedRecord, ∀ other,
      (exec host s (.verifyDisk sha digest)).dir other =
        if other = sha then (s.dir sha).map fun d => { d with verified := record d }
        else s.dir other := by
  simp only [exec]
  split
  · exact dir_markVerified host s sha digest
  · exact ⟨ImgDir.verified, dir_eq_map_verified s sha⟩

@[simp] theorem mkdir_refs : (exec host s (.mkdir sha)).refs = s.refs := by
  simp only [exec]
  split <;> rfl

@[simp] theorem writeTag_refs (ref : Text) (m : Manifest Extra) :
    (exec host s (.writeTag sha ref m)).refs = s.refs :=
  s.modify_refs sha _

@[simp] theorem removeTag_refs (ref : Text) : (exec host s (.removeTag sha ref)).refs = s.refs :=
  s.modify_refs sha _

@[simp] theorem verifyDisk_refs (digest : Text) :
    (exec host s (.verifyDisk sha digest)).refs = s.refs := by
  simp only [exec]
  split
  · exact markVerified_refs host s sha digest
  · rfl

theorem exec_tagFile (e : Effect Extra) : (exec host s e).tagFile = s.tagFile := by
  have hmark : ∀ sha digest, (markVerified host s sha digest).tagFile = s.tagFile := by
    intro sha digest
    unfold markVerified
    split
    · exact s.modify_tagFile sha _
    · rfl
  cases e with
  | mkdir | verifyDisk =>
    simp only [exec]
    split <;> simp [hmark]
  | markVerified => exact hmark _ _
  | writeRefs | removeAll => rfl
  | _ => exact s.modify_tagFile _ _

theorem run_exec_tagFile (effects : List (Effect Extra)) :
    (run (exec host) s effects).tagFile = s.tagFile :=
  run_invariant (I := fun s' => s'.tagFile = s.tagFile)
    (fun s' e h => (exec_tagFile host s' e).trans h) rfl effects

end Exec

theorem resolve_eq_ok {s : Store Extra} {ref sha : Text} {m : Manifest Extra}
    (h : resolve s ref = .ok (m, sha)) :
    ∃ name, resolveRefName s ref = .ok (sha, name) ∧ readRefManifest s sha name = .ok m := by
  unfold resolve at h
  split at h
  · cases h
  · next sha' name hname =>
    split at h
    · cases h
    · next m' hread =>
      split at h
      · cases h
      · cases h
        exact ⟨name, hname, hread⟩

theorem resolve_of_tagManifest {s : Store Extra} {ref sha : Text} {m : Manifest Extra}
    (href : s.refs.lookup ref = some sha) (htag : s.tagManifest sha ref = some m)
    (hvalid : validate m = .ok ()) (hdigest : m.diskDigest = digestText sha) :
    resolve s ref = .ok (m, sha) := by
  have hname : resolveRefName s ref = .ok (sha, some ref) := by
    unfold resolveRefName
    rw [href]
  have hread : readRefManifest s sha (some ref) = .ok m := by
    simp only [readRefManifest, htag, parse, hvalid]
  simp only [resolve, hname, hread, hdigest, ne_eq, not_true_eq_false, if_false]

def Everywhere (P : Text → ImgDir Extra → Prop) (s : Store Extra) : Prop :=
  ∀ sha d, s.dir sha = some d → P sha d

section Everywhere

variable {P Q : Text → ImgDir Extra → Prop} {s s' : Store Extra} {sha : Text}

theorem Everywhere.change (h : Everywhere P s) {f : ImgDir Extra → ImgDir Extra}
    (hdir : ∀ other, s'.dir other = if other = sha then (s.dir sha).map f else s.dir other)
    (hmono : ∀ sha d, P sha d → Q sha d)
    (hf : ∀ d, s.dir sha = some d → P sha d → Q sha (f d)) : Everywhere Q s' := by
  intro other d hd
  rw [hdir] at hd
  split at hd
  · next heq =>
    subst heq
    obtain ⟨d₀, hd₀, rfl⟩ := Option.map_eq_some_iff.mp hd
    exact hf d₀ hd₀ (h other d₀ hd₀)
  · exact hmono other d (h other d hd)

theorem Everywhere.mkdir (host : Host) (h : Everywhere P s) (hempty : P sha .empty) :
    Everywhere P (exec host s (.mkdir sha)) := by
  intro other d hd
  rw [dir_mkdir] at hd
  split at hd
  · next heq =>
    subst heq
    cases hd
    unfold Store.dirD
    cases hs : s.dir other with
    | none => exact hempty
    | some d => exact h other d hs
  · exact h other d hd

theorem Everywhere.removeAll (host : Host) (h : Everywhere P s) :
    Everywhere P (exec host s (.removeAll sha)) := by
  intro other d hd
  rw [dir_removeAll] at hd
  split at hd
  · exact nomatch hd
  · exact h other d hd

end Everywhere

/-! ## A whole put -/

section Put

variable (host : Host) (s : Store Extra) (disk : Bytes) (renamed : Bool) (copied : Nat)

theorem dir_chmod_writeDisk {sha : Text} {d : ImgDir Extra} (hd : s.dir sha = some d) :
    ∃ f, f.content = disk ∧ ∀ other,
      (exec host (exec host s (.writeDisk sha disk)) (.chmod sha)).dir other =
        if other = sha then some { d with disk := some f } else s.dir other := by
  refine ⟨⟨disk, (exec host s (.writeDisk sha disk)).clock⟩, rfl, fun other => ?_⟩
  rw [dir_chmod, dir_writeDisk, dir_writeDisk, hd, if_pos rfl]
  split <;> rfl

theorem run_storeDisk {d : ImgDir Extra} (hd : s.dir (host.sha256Hex disk) = some d) :
    ∃ f v, f.content = disk ∧ ∀ other,
      (run (exec host) s (storeDisk host disk renamed copied)).dir other =
        if other = host.sha256Hex disk then some { d with disk := some f, verified := v }
        else s.dir other := by
  set sha := host.sha256Hex disk with hsha
  cases renamed with
  | true =>
    obtain ⟨f, hf, hplace⟩ := dir_chmod_writeDisk host s disk hd
    obtain ⟨record, hrecord⟩ := dir_markVerified host
      (exec host (exec host s (.writeDisk sha disk)) (.chmod sha)) sha (host.digest disk)
    refine ⟨f, record { d with disk := some f }, hf, fun other => ?_⟩
    refine (hrecord other).trans ?_
    rw [hplace, hplace, if_pos rfl]
    split <;> rfl
  | false =>
    set s₀ := exec host s (.writeDisk sha (disk.take copied)) with hs₀
    have hdir : ∀ other, s₀.dir other =
        if other = sha then some { d with disk := some ⟨disk.take copied, s.clock⟩ }
        else s.dir other := by
      intro other
      rw [hs₀, dir_writeDisk, hd]
      rfl
    obtain ⟨f, hf, hplace⟩ := dir_chmod_writeDisk host s₀ disk
      ((hdir sha).trans (if_pos rfl))
    obtain ⟨record, hrecord⟩ := dir_verifyDisk host
      (exec host (exec host s₀ (.writeDisk sha disk)) (.chmod sha)) sha (host.digest disk)
    refine ⟨f, record { d with disk := some f }, hf, fun other => ?_⟩
    refine (hrecord other).trans ?_
    rw [hplace, hplace, if_pos rfl, hdir]
    split <;> rfl

/-- A `put` that completes leaves in the directory of its disk the file it found
there, or the whole disk, with the manifest of its tag; the other directories
stay as they were. -/
theorem run_put (name tag : Text) (m : Manifest Extra) :
    ∃ f v, (s.disk (host.sha256Hex disk) = some f ∨
        s.disk (host.sha256Hex disk) = none ∧ f.content = disk) ∧
      (∀ other, (run (exec host) s (put host s name tag m disk renamed copied)).dir other =
        if other = host.sha256Hex disk then
          some { disk := some f, manifest := some (storedManifest host name tag m disk),
                 tags := (s.dirD (host.sha256Hex disk)).tags.insert (s.tagFile (refText name tag))
                   (storedManifest host name tag m disk), verified := v }
        else s.dir other) ∧
      (run (exec host) s (put host s name tag m disk renamed copied)).refs =
        s.refs.insert (refText name tag) (host.sha256Hex disk) := by
  set s₁ := exec host s (.mkdir (host.sha256Hex disk)) with hs₁
  have hdir : ∀ other, s₁.dir other =
      if other = host.sha256Hex disk then some (s.dirD (host.sha256Hex disk))
      else s.dir other := dir_mkdir host s _
  have hfile : s₁.tagFile = s.tagFile := exec_tagFile host s _
  -- The state before the manifests are written, with the disk in place.
  obtain ⟨f, v, hf, hplace⟩ : ∃ f v, (s.disk (host.sha256Hex disk) = some f ∨
        s.disk (host.sha256Hex disk) = none ∧ f.content = disk) ∧
      ∀ other, (run (exec host) s₁ (if (s.disk (host.sha256Hex disk)).isSome then []
        else storeDisk host disk renamed copied)).dir other =
        if other = host.sha256Hex disk then
          some { s.dirD (host.sha256Hex disk) with disk := some f, verified := v }
        else s.dir other := by
    cases hdisk : s.disk (host.sha256Hex disk) with
    | some g =>
      have hg : (s.dirD (host.sha256Hex disk)).disk = some g := by
        obtain ⟨d, hd, hdg⟩ := Option.bind_eq_some_iff.mp hdisk
        rw [Store.dirD, hd]
        exact hdg
      refine ⟨g, (s.dirD (host.sha256Hex disk)).verified, .inl rfl, fun other => ?_⟩
      rw [if_pos (Option.isSome_some), run_nil, hdir, ← hg]
    | none =>
      obtain ⟨f, v, hf, hrun⟩ := run_storeDisk host s₁ disk renamed copied
        (d := s.dirD (host.sha256Hex disk)) (by rw [hdir, if_pos rfl])
      refine ⟨f, v, .inr ⟨rfl, hf⟩, fun other => ?_⟩
      simp only [Option.isSome_none, Bool.false_eq_true, if_false, hrun, hdir]
      split <;> rfl
  refine ⟨f, v, hf, fun other => ?_, ?_⟩
  · simp only [put, run_cons, run_append, run_nil, ← hs₁]
    by_cases h : other = host.sha256Hex disk
    · simp only [dir_writeRefs, dir_writeTag, dir_writeManifest, hplace, h, if_true,
        Option.map_some, exec_tagFile, run_exec_tagFile, hfile]
    · simp only [dir_writeRefs, dir_writeTag, dir_writeManifest, hplace, h, if_false]
  · simp only [put, run_cons, run_append, run_nil]
    rfl

end Put

end Jerboa.Image
