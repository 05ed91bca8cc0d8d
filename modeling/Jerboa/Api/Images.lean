import Jerboa.Image.Index

/-!
# Images and the VMs created from them

The daemon's requests over the image store and the registry of VMs.  A VM keeps
the store disk it was created from, and Image.Remove and the prune that follows
a build leave it alone.

Image.Remove decides by reference: it reads the reference it is to remove and
the digest of each VM, and compares the disks they lead to.  A digest leads
elsewhere where a tag is spelled like it, and the reference cannot be read where
its disk is damaged.  In a run without either, no request deletes the disk of a
registered VM.
-/

namespace Jerboa.Api.Images

open List Net.Address Naming Lib Lib.Run Image

variable {Extra : Type} {host : Host}

/-! ## The requests -/

/-- What requests over images read of a registered VM.  `imageDir` is the name
of the directory of `ImagePath`. -/
structure VM where
  id : Text
  name : Text
  imageRef : Text
  imageDigest : Text
  imageDir : Text
deriving DecidableEq

structure Daemon (Extra : Type) where
  store : Store Extra
  vms : List VM

/-- The daemon over an empty store. -/
def Daemon.new (tagFile : Text → Text) : Daemon Extra := ⟨.new tagFile, []⟩

/-- `looksLikePath`.  A drive letter and a colon count only before a
separator. -/
def looksLikePath (s : Text) : Bool := s.any fun c => c = '/' || c = '\\'

def isStoredImage (s : Store Extra) (image : Text) : Bool := (resolve s image).isOk

/-- `handleRun` up to the configuration: the reference, the digest and the
directory of the VM's image.  `dir` is the directory of the disk of a run by
path, once it is checked. -/
def runImage (s : Store Extra) (image dir : Text) : Except StoreErr (Text × Text × Text) :=
  if image ≠ [] ∧ (looksLikePath image = false ∨ isStoredImage s image = true) then
    match resolve s image with
    | .error e => .error e
    | .ok (m, sha) => .ok (m.diskDigest, m.diskDigest, sha)
  else .ok (image, [], dir)

/-- `handleRun`.  `registered` tells whether the VM is there after it: nothing
else on the way failed, or only its cleanup did. -/
def handleRun (d : Daemon Extra) (id name image dir : Text) (registered : Bool) : Daemon Extra :=
  match runImage d.store image dir with
  | .error _ => d
  | .ok (imageRef, imageDigest, imageDir) =>
    if registered then { d with vms := d.vms ++ [⟨id, name, imageRef, imageDigest, imageDir⟩] }
    else d

/-- The errors of `handleImageRemove`. -/
inductive RemoveErr where
  | inUse (ref vm : Text)
  | store (err : StoreErr)
deriving DecidableEq

def readImage (host : Host) (s : Store Extra) (ref : Text) :
    Store Extra × Except StoreErr (Manifest Extra × Text) :=
  (act host s ⟨.get ref, none⟩, host.get s ref)

/-- The loop of `handleImageRemove` over the VMs: the first that uses the
disk. -/
def findUser (host : Host) (target : Text) : Store Extra → List VM → Store Extra × Option VM
  | s, [] => (s, none)
  | s, v :: vms =>
    if v.imageRef = [] then findUser host target s vms
    else
      match readImage host s v.imageRef with
      | (s, .ok (_, disk)) =>
        if disk = target then (s, some v) else findUser host target s vms
      | (s, .error _) => findUser host target s vms

/-- The check of `handleImageRemove`, which is left out where the reference
cannot be read. -/
def checkUnused (host : Host) (s : Store Extra) (vms : List VM) (ref : Text) :
    Store Extra × Option VM :=
  match readImage host s ref with
  | (s, .ok (_, target)) => findUser host target s vms
  | (s, .error _) => (s, none)

/-- `handleImageRemove`.  `cut` tells where the removal was cut short. -/
def handleImageRemove (host : Host) (d : Daemon Extra) (ref : Text) (cut : Option Nat) :
    Daemon Extra × Except RemoveErr Unit :=
  match checkUnused host d.store d.vms ref with
  | (s, some v) =>
    ({ d with store := s }, .error (.inUse ref (if v.name = [] then v.id else v.name)))
  | (s, none) =>
    ({ d with store := act host s ⟨.remove ref, cut⟩ },
      match plan host s (.remove ref) with
      | .ok _ => .ok ()
      | .error e => .error (.store e))

def countsAsDigest (t : Text) : Bool := digestPrefix.isPrefixOf t && byteLen (stripPrefix t) = 64

def imageDigestsInUse (vms : List VM) (digest : Text) : Bool :=
  countsAsDigest digest && vms.any fun v =>
    v.imageDigest = digest || v.imageRef = digest || digestText v.imageDir = digest

/-- A request.  A build is its `put`, the recipe of its tag and the prune, and a
pull its `put` and the recipe, with other requests in between.  `cut` tells
where the change of the store was cut short. -/
inductive Request (Extra : Type) where
  | put (name tag : Text) (m : Manifest Extra) (disk : Bytes) (renamed : Bool) (copied : Nat)
      (cut : Option Nat)
  | setRecipe (ref digest : Text) (cut : Option Nat)
  | tag (ref name tag : Text) (cut : Option Nat)
  | run (id name image dir : Text) (registered : Bool)
  | removeVM (id : Text)
  | removeImage (ref : Text) (cut : Option Nat)
  | prune (cut : Option Nat)

def step (host : Host) (d : Daemon Extra) : Request Extra → Daemon Extra
  | .put name newTag m disk renamed copied cut =>
    { d with store := act host d.store ⟨.put name newTag m disk renamed copied, cut⟩ }
  | .setRecipe ref digest cut => { d with store := act host d.store ⟨.setRecipe ref digest, cut⟩ }
  | .tag ref name newTag cut =>
    -- `handleImageTag` refuses an empty source, name or tag.
    if ref = [] ∨ name = [] ∨ newTag = [] then d
    else { d with store := act host d.store ⟨.tag ref name newTag, cut⟩ }
  | .run id name image dir registered => handleRun d id name image dir registered
  | .removeVM id => { d with vms := d.vms.filter (·.id ≠ id) }
  | .removeImage ref cut => (handleImageRemove host d ref cut).1
  | .prune cut =>
    { d with
      store := act host d.store ⟨.pruneUnreferenced (imageDigestsInUse d.vms), cut⟩ }

def spellsDigest (t : Text) : Bool := digestPrefix.isPrefixOf t && isSHA256Hex (stripPrefix t)

/-- The manifests that builds and pulls store pass the checks of the store, no tag has
the spelling of a digest, and Image.Remove can read the image it removes. -/
def Allowed (host : Host) (d : Daemon Extra) : Request Extra → Prop
  | .put name newTag m disk _ _ _ =>
    validate (storedManifest host name newTag m disk) = .ok () ∧
      spellsDigest (refText name newTag) = false
  | .tag _ name newTag _ => spellsDigest (refText name newTag) = false
  | .removeImage ref _ =>
    (host.get d.store ref).isOk = true ∨ (resolveRefName d.store ref).isOk = false
  | _ => True

instance (host : Host) (d : Daemon Extra) (r : Request Extra) : Decidable (Allowed host d r) := by
  cases r <;> unfold Allowed <;> infer_instance

/-- The request leaves the disk of every registered VM as it is. -/
def KeepsDisks (host : Host) (d : Daemon Extra) (r : Request Extra) : Prop :=
  ∀ v ∈ d.vms, ∀ sha f, v.imageDigest = digestText sha → d.store.disk sha = some f →
    (step host d r).store.disk sha = some f

/-- The names of the index. -/
def Plain (ref : Text) : Prop := spellsDigest ref = false

variable {sha : Text}

theorem not_plain_digestText (h : isSHA256Hex sha = true) :
    ¬Plain (digestText sha) := by
  have hprefix : digestPrefix.isPrefixOf (digestText sha) = true :=
    isPrefixOf_iff_prefix.mpr (prefix_append _ _)
  simp [Plain, spellsDigest, hprefix, h]

structure StoreOk (host : Host) (s : Store Extra) : Prop where
  sound : AllSound host s
  indexed : Indexed Plain s

/-- A VM created from a stored image has the digest of its disk for its
reference. -/
def CreatedOk (v : VM) : Prop :=
  v.imageDigest ≠ [] → v.imageRef = v.imageDigest ∧
    ∃ sha, isSHA256Hex sha = true ∧ v.imageDigest = digestText sha

structure Inv (host : Host) (d : Daemon Extra) : Prop where
  store : StoreOk host d.store
  vms : ∀ v ∈ d.vms, CreatedOk v

theorem digestText_ne_nil (sha : Text) : digestText sha ≠ [] :=
  append_ne_nil_of_left_ne_nil (by decide) sha

theorem digestText_injective {a b : Text} (h : digestText a = digestText b) : a = b := by
  rw [← stripPrefix_digestText a, h, stripPrefix_digestText]

variable {d : Daemon Extra}

theorem Inv.created (h : Inv host d) {v : VM} (hv : v ∈ d.vms)
    (hdigest : v.imageDigest = digestText sha) :
    v.imageRef = digestText sha ∧ isSHA256Hex sha = true := by
  obtain ⟨href, sha', hhex, hsha'⟩ := h.vms v hv (hdigest ▸ digestText_ne_nil sha)
  rw [digestText_injective (hdigest.symm.trans hsha')]
  exact ⟨href.trans hsha', hhex⟩

variable {vms : List VM}

section Store

variable {s s' : Store Extra}

theorem StoreOk.act (hsha : ∀ b, isSHA256Hex (host.sha256Hex b) = true) (h : StoreOk host s)
    (a : Action Extra) (ha : a.call.Promised host) (hnamed : a.call.Gives Plain) :
    StoreOk host (act host s a) :=
  ⟨allSound_act h.sound a, h.indexed.act hsha ha hnamed⟩

structure Reads (s s' : Store Extra) : Prop where
  refs : s'.refs = s.refs
  disk : ∀ sha f, s.disk sha = some f → s'.disk sha = some f

theorem Reads.refl (s : Store Extra) : Reads s s := ⟨rfl, fun _ _ h => h⟩

theorem Reads.trans {s'' : Store Extra} (h : Reads s s') (h' : Reads s' s'') : Reads s s'' :=
  ⟨h'.refs.trans h.refs, fun sha f hf => h'.disk sha f (h.disk sha f hf)⟩

theorem reads_get (host : Host) (s : Store Extra) (ref : Text) :
    Reads s (act host s ⟨.get ref, none⟩) := by
  refine ⟨?_, fun sha f hf => disk_act_of_leaves hf trivial⟩
  change (run (exec host) s (verification host s ref)).refs = s.refs
  refine (milder_run fun e he => ?_).refs
  unfold verification at he
  split at he
  · cases he
  · split at he
    · cases he
    · rw [mem_singleton.mp he]
      trivial

theorem resolveRefName_congr (h : s'.refs = s.refs) (ref : Text) :
    resolveRefName s' ref = resolveRefName s ref := by
  unfold resolveRefName
  rw [h]

/-- The disk is in the index, and hashes to its digest. -/
def Intact (host : Host) (s : Store Extra) (sha : Text) : Prop :=
  s.refs.Points sha ∧ ∃ f, s.disk sha = some f ∧ host.digest f.content = digestText sha

theorem Intact.reads (h : Intact host s sha) (hreads : Reads s s') :
    Intact host s' sha := by
  obtain ⟨hpoints, f, hf, hdigest⟩ := h
  exact ⟨hreads.refs ▸ hpoints, f, hreads.disk sha f hf, hdigest⟩

theorem resolve_eq_ok {ref sha : Text} {m : Manifest Extra} (h : resolve s ref = .ok (m, sha)) :
    m.diskDigest = digestText sha ∧ ∃ name, resolveRefName s ref = .ok (sha, name) := by
  unfold resolve at h
  split at h
  · cases h
  · next sha' name hres =>
    split at h
    · cases h
    · split at h
      · cases h
      · next hdigest =>
        cases h
        exact ⟨not_ne_iff.mp hdigest, name, hres⟩

theorem StoreOk.intact_of_get (h : StoreOk host s) {ref sha : Text} {m : Manifest Extra}
    (hget : host.get s ref = .ok (m, sha)) :
    Intact host s sha ∧ ∃ name, resolveRefName s ref = .ok (sha, name) := by
  obtain ⟨hdigest, name, hres⟩ := resolve_eq_ok (get_eq_ok.mp hget).1
  obtain ⟨f, hf, hcontent⟩ := get_intact h.sound hget
  exact ⟨⟨(resolveRefName_eq_ok hres).1, f, hf, hcontent.trans hdigest⟩, name, hres⟩

/-! ## The check of Image.Remove -/

theorem reads_findUser (target : Text) (s : Store Extra) (vms : List VM) :
    Reads s (findUser host target s vms).1 := by
  induction vms generalizing s with
  | nil => exact .refl s
  | cons v vms ih =>
    have hread := reads_get host s v.imageRef
    unfold findUser readImage
    split
    · exact ih s
    · cases host.get s v.imageRef with
      | error => exact hread.trans (ih _)
      | ok =>
        dsimp only
        split
        · exact hread
        · exact hread.trans (ih _)

theorem StoreOk.findUser (hsha : ∀ b, isSHA256Hex (host.sha256Hex b) = true) (target : Text)
    (h : StoreOk host s) (vms : List VM) :
    StoreOk host (findUser host target s vms).1 := by
  induction vms generalizing s with
  | nil => exact h
  | cons v vms ih =>
    have hok : StoreOk host (Image.act host s ⟨.get v.imageRef, none⟩) :=
      h.act hsha _ trivial trivial
    unfold Images.findUser readImage
    split
    · exact ih h
    · cases host.get s v.imageRef with
      | error => exact ih hok
      | ok =>
        dsimp only
        split
        · exact hok
        · exact ih hok

theorem findUser_eq_none (hsha : ∀ b, isSHA256Hex (host.sha256Hex b) = true) {target : Text}
    (h : StoreOk host s) (hintact : Intact host s target)
    (hnone : (findUser host target s vms).2 = none) :
    ∀ v ∈ vms, v.imageRef ≠ digestText target := by
  induction vms generalizing s with
  | nil => exact nofun
  | cons v vms ih =>
    have hread := reads_get host s v.imageRef
    have hok : StoreOk host (act host s ⟨.get v.imageRef, none⟩) := h.act hsha _ trivial trivial
    unfold findUser readImage at hnone
    split at hnone
    · next hnil =>
      refine forall_mem_cons.mpr ⟨?_, ih h hintact hnone⟩
      rw [hnil]
      exact (digestText_ne_nil target).symm
    · -- The digest of the disk reads back the disk.
      have hget : v.imageRef = digestText target →
          ∃ m, host.get s v.imageRef = .ok (m, target) := by
        rintro hdigest
        obtain ⟨hpoints, f, hf, hcontent⟩ := hintact
        have hhex := (h.indexed.manifest_of_points hpoints).1
        rw [hdigest]
        exact h.indexed.get_digest (not_plain_digestText hhex) hpoints hf hcontent
      cases hres : host.get s v.imageRef with
      | error =>
        rw [hres] at hnone
        refine forall_mem_cons.mpr ⟨fun hdigest => ?_, ih hok (hintact.reads hread) hnone⟩
        obtain ⟨m, hm⟩ := hget hdigest
        cases hres.symm.trans hm
      | ok =>
        rw [hres] at hnone
        dsimp only at hnone
        split at hnone
        · cases hnone
        · next hne =>
          refine forall_mem_cons.mpr
            ⟨fun hdigest => ?_, ih hok (hintact.reads hread) hnone⟩
          obtain ⟨m, hm⟩ := hget hdigest
          cases hres.symm.trans hm
          exact hne rfl

theorem reads_checkUnused (host : Host) (s : Store Extra) (vms : List VM) (ref : Text) :
    Reads s (checkUnused host s vms ref).1 := by
  have hread := reads_get host s ref
  unfold checkUnused readImage
  cases host.get s ref with
  | error => exact hread
  | ok r => exact hread.trans (reads_findUser r.2 _ vms)

theorem StoreOk.checkUnused (hsha : ∀ b, isSHA256Hex (host.sha256Hex b) = true)
    (h : StoreOk host s) (vms : List VM) (ref : Text) :
    StoreOk host (checkUnused host s vms ref).1 := by
  have hok : StoreOk host (Image.act host s ⟨.get ref, none⟩) := h.act hsha _ trivial trivial
  unfold Images.checkUnused readImage
  cases host.get s ref with
  | error => exact hok
  | ok r => exact hok.findUser hsha r.2 vms

theorem checkUnused_eq_none (hsha : ∀ b, isSHA256Hex (host.sha256Hex b) = true) (h : StoreOk host s)
    {ref : Text} (hread : (host.get s ref).isOk = true ∨ (resolveRefName s ref).isOk = false)
    (hnone : (checkUnused host s vms ref).2 = none) {name : Option Text}
    (hres : resolveRefName s ref = .ok (sha, name)) : ∀ v ∈ vms, v.imageRef ≠ digestText sha := by
  cases hget : host.get s ref with
  | error =>
    rw [hget, hres] at hread
    cases hread with
    | inl hok => cases hok
    | inr hfail => cases hfail
  | ok r =>
    obtain ⟨m, sha'⟩ := r
    obtain ⟨hintact, name', hres'⟩ := h.intact_of_get hget
    cases hres.symm.trans hres'
    have hok : StoreOk host (act host s ⟨.get ref, none⟩) := h.act hsha _ trivial trivial
    unfold checkUnused readImage at hnone
    rw [hget] at hnone
    exact findUser_eq_none hsha hok (hintact.reads (reads_get host s ref)) hnone

end Store

/-! ## Steps and runs -/

theorem createdOk_runImage {s : Store Extra} (h : StoreOk host s)
    {image dir imageRef imageDigest imageDir : Text} (id name : Text)
    (hrun : runImage s image dir = .ok (imageRef, imageDigest, imageDir)) :
    CreatedOk ⟨id, name, imageRef, imageDigest, imageDir⟩ := by
  unfold runImage at hrun
  split at hrun
  · split at hrun
    · cases hrun
    · next m sha hresolve =>
      cases hrun
      obtain ⟨hdigest, name, hres⟩ := resolve_eq_ok hresolve
      have hhex := (h.indexed.manifest_of_points (resolveRefName_eq_ok hres).1).1
      exact fun _ => ⟨rfl, imageDir, hhex, hdigest⟩
  · cases hrun
    exact fun hne => absurd rfl hne

theorem storeOk_handleImageRemove (hsha : ∀ b, isSHA256Hex (host.sha256Hex b) = true)
    (h : StoreOk host d.store) (ref : Text) (cut : Option Nat) :
    StoreOk host (handleImageRemove host d ref cut).1.store := by
  have hcheck := h.checkUnused hsha d.vms ref
  unfold handleImageRemove
  split
  · next s user heq =>
    rw [heq] at hcheck
    exact hcheck
  · next s heq =>
    rw [heq] at hcheck
    exact hcheck.act hsha ⟨.remove ref, cut⟩ trivial trivial

theorem Inv.step (hsha : ∀ b, isSHA256Hex (host.sha256Hex b) = true) (h : Inv host d)
    {r : Request Extra} (hr : Allowed host d r) :
    Inv host (step host d r) := by
  cases r with
  | put name newTag m disk renamed copied cut =>
    exact ⟨h.store.act hsha ⟨.put name newTag m disk renamed copied, cut⟩ hr.1 hr.2, h.vms⟩
  | setRecipe ref digest cut =>
    exact ⟨h.store.act hsha ⟨.setRecipe ref digest, cut⟩ trivial trivial, h.vms⟩
  | tag ref name newTag cut =>
    simp only [Images.step]
    split
    · exact h
    · next hne =>
      simp only [not_or] at hne
      exact ⟨h.store.act hsha ⟨.tag ref name newTag, cut⟩ hne.2 hr, h.vms⟩
  | run id name =>
    simp only [Images.step, handleRun]
    split
    · exact h
    · next imageRef imageDigest imageDir hrun =>
      split
      · refine ⟨h.store, fun v hv => ?_⟩
        rcases mem_append.mp hv with hv | hv
        · exact h.vms v hv
        · rw [mem_singleton.mp hv]
          exact createdOk_runImage h.store id name hrun
      · exact h
  | removeVM => exact ⟨h.store, fun v hv => h.vms v (mem_filter.mp hv).1⟩
  | removeImage ref cut =>
    refine ⟨storeOk_handleImageRemove hsha h.store ref cut, ?_⟩
    simp only [Images.step, handleImageRemove]
    split
    · exact h.vms
    · exact h.vms
  | prune cut =>
    exact ⟨h.store.act hsha ⟨.pruneUnreferenced (imageDigestsInUse d.vms), cut⟩ trivial trivial,
      h.vms⟩

theorem imageDigestsInUse_of_mem {v : VM} (hv : v ∈ vms) (hhex : isSHA256Hex sha = true)
    (hdigest : v.imageDigest = digestText sha) :
    imageDigestsInUse vms (digestText sha) = true := by
  have hcounts : countsAsDigest (digestText sha) = true := by
    have hlen := ((Bool.and_eq_true _ _).mp hhex).1
    have hprefix : digestPrefix.isPrefixOf (digestText sha) = true :=
      isPrefixOf_iff_prefix.mpr (prefix_append _ _)
    rw [countsAsDigest, hprefix, stripPrefix_digestText, hlen]
    rfl
  unfold imageDigestsInUse
  rw [hcounts, Bool.true_and, any_eq_true]
  exact ⟨v, hv, by simp [hdigest]⟩

theorem Inv.keepsDisks (hsha : ∀ b, isSHA256Hex (host.sha256Hex b) = true) (h : Inv host d)
    {r : Request Extra} (hr : Allowed host d r) : KeepsDisks host d r := by
  intro v hv sha f hdigest hf
  obtain ⟨href, hhex⟩ := h.created hv hdigest
  cases r with
  | put | setRecipe => exact disk_act_of_leaves hf trivial
  | tag =>
    simp only [Images.step]
    split
    · exact hf
    · exact disk_act_of_leaves hf trivial
  | run =>
    simp only [Images.step, handleRun]
    split
    · exact hf
    · split
      · exact hf
      · exact hf
  | removeVM => exact hf
  | removeImage ref =>
    have hreads := reads_checkUnused host d.store d.vms ref
    simp only [Images.step, handleImageRemove]
    split
    · next s user hcheck =>
      rw [hcheck] at hreads
      exact hreads.disk sha f hf
    · next s hcheck =>
      rw [hcheck] at hreads
      refine disk_act_of_leaves (hreads.disk sha f hf) fun other name hres heq => ?_
      rw [resolveRefName_congr hreads.refs] at hres
      have hnone : (checkUnused host d.store d.vms ref).2 = none := by rw [hcheck]
      exact checkUnused_eq_none hsha h.store hr hnone hres v hv (heq ▸ href)
  | prune => exact disk_act_of_leaves hf (imageDigestsInUse_of_mem hv hhex hdigest)

/-- In every run of requests in which manifests are proper, no tag is spelled like a
digest and Image.Remove can read the image it removes, no request deletes or changes
the disk that a registered VM was created from. -/
theorem vm_disks_kept (host : Host) (hsha : ∀ b, isSHA256Hex (host.sha256Hex b) = true)
    (tagFile : Text → Text) (rs : List (Request Extra))
    (hallowed : AllSteps (step host) (Allowed host) (.new tagFile) rs) :
    AllSteps (step host) (KeepsDisks host) (.new tagFile) rs :=
  hallowed.of_invariant (I := Inv host) (fun _ _ h hr => h.step hsha hr)
    (fun _ _ h hr => h.keepsDisks hsha hr) ⟨⟨allSound_new tagFile, indexed_new tagFile⟩, nofun⟩

def putDisk (name tag : String) (disk : Bytes) : Request Unit :=
  .put name.toList tag.toList sampleManifest disk true 0 none

/-- The state after the requests, on an empty store. -/
def afterRequests (rs : List (Request Unit)) : Daemon Unit := run (step sampleHost) (.new id) rs

/-- The VM that is created from the disk of two bytes. -/
def webVM : VM :=
  ⟨"vm1".toList, "web".toList, sampleHost.digest [1, 2], sampleHost.digest [1, 2],
    sampleSha256Hex [1, 2]⟩

/-- `app:v1` is built, run, and rebuilt with another disk; what is not in use is
pruned, and the tag is removed. -/
def rebuiltAndRemoved : List (Request Unit) :=
  [putDisk "app" "v1" [1, 2], .run "vm1".toList "web".toList "app:v1".toList [] true,
    putDisk "app" "v1" [1], .prune none, .removeImage "app:v1".toList none]

/-- The first disk stays, in use by a VM and with no reference to it. -/
theorem vm_disks_kept_rebuilt :
    (afterRequests (rebuiltAndRemoved.take 3)).vms = [webVM] ∧
      ¬(afterRequests (rebuiltAndRemoved.take 3)).store.refs.Points (sampleSha256Hex [1, 2]) ∧
      AllSteps (step sampleHost) (KeepsDisks sampleHost) (.new id) rebuiltAndRemoved := by
  refine ⟨by decide +kernel, by decide +kernel, ?_⟩
  exact vm_disks_kept sampleHost isSHA256Hex_sample id rebuiltAndRemoved (by decide +kernel)

/-- Another image is tagged with the digest of the VM's disk for its name, and
the tag the VM was created from is removed. -/
def digestTagged : List (Request Unit) :=
  [putDisk "app" "v1" [1, 2], .run "vm1".toList "web".toList "app:v1".toList [] true,
    putDisk "other" "latest" [1],
    .tag "other".toList "sha256".toList (sampleSha256Hex [1, 2]) none]

/-- Image.Remove returns success, and the disk of the VM is gone. -/
theorem vm_disk_removed :
    (afterRequests digestTagged).vms = [webVM] ∧
      ((afterRequests digestTagged).store.disk (sampleSha256Hex [1, 2])).isSome = true ∧
      (handleImageRemove sampleHost (afterRequests digestTagged) "app:v1".toList none).2 = .ok () ∧
      (step sampleHost (afterRequests digestTagged)
        (.removeImage "app:v1".toList none)).store.disk (sampleSha256Hex [1, 2]) = none ∧
      ¬KeepsDisks sampleHost (afterRequests digestTagged) (.removeImage "app:v1".toList none) := by
  have hvms : (afterRequests digestTagged).vms = [webVM] := by decide +kernel
  have hdisk : ((afterRequests digestTagged).store.disk (sampleSha256Hex [1, 2])).isSome =
      true := by
    decide +kernel
  have hgone : (step sampleHost (afterRequests digestTagged)
      (.removeImage "app:v1".toList none)).store.disk (sampleSha256Hex [1, 2]) = none := by
    decide +kernel
  refine ⟨hvms, hdisk, by decide +kernel, hgone, fun hkeeps => ?_⟩
  obtain ⟨f, hf⟩ := Option.isSome_iff_exists.mp hdisk
  have hkept := hkeeps webVM (hvms ▸ mem_singleton_self webVM) _ f rfl hf
  cases hgone.symm.trans hkept

end Jerboa.Api.Images
