import Jerboa.Image.References

/-!
# The index, wherever calls are cut short

A call of the image store may be cut short after any of its changes.  What the
index promises holds none the less: a disk that some reference points to has a
proper manifest, and no call but `Remove` and `PruneUnreferenced` deletes or
rewrites a disk that is there.
-/

namespace Jerboa.Image

open List Net.Address Naming Lib Lib.Run Lib.Table

variable {Extra : Type} {host : Host} {s s' : Store Extra} {Named : Text → Prop}

def ManifestOk (sha : Text) (d : ImgDir Extra) : Prop :=
  isSHA256Hex sha = true ∧ ∀ m, d.manifest = some m → Proper sha m

/-- The references of the index are among those that `Named` allows, and the
disks they point to have their manifests. -/
structure Indexed (Named : Text → Prop) (s : Store Extra) : Prop where
  dirs : Everywhere ManifestOk s
  refs : ∀ ref sha, s.refs.lookup ref = some sha → Named ref ∧ (s.manifest sha).isSome = true

theorem indexed_new (tagFile : Text → Text) : Indexed Named (.new tagFile : Store Extra) :=
  ⟨nofun, nofun⟩

variable {sha : Text}

theorem Indexed.manifest_of_points (h : Indexed Named s) (hpoints : s.refs.Points sha) :
    isSHA256Hex sha = true ∧ ∃ m, s.manifest sha = some m ∧ Proper sha m := by
  obtain ⟨ref, href⟩ := Refs.points_iff.mp hpoints
  obtain ⟨m, hm⟩ := Option.isSome_iff_exists.mp (h.refs ref sha href).2
  obtain ⟨d, hd, hdm⟩ := Option.bind_eq_some_iff.mp hm
  obtain ⟨hhex, hproper⟩ := h.dirs sha d hd
  exact ⟨hhex, m, hm, hproper m hdm⟩

/-! ## One change -/

def Fine (Named : Text → Prop) (s : Store Extra) : Effect Extra → Prop
  | .mkdir sha => isSHA256Hex sha = true
  | .writeManifest sha m => Proper sha m
  | .writeRefs refs =>
    ∀ ref sha, refs.lookup ref = some sha → Named ref ∧ (s.manifest sha).isSome = true
  | .removeAll sha => ¬s.refs.Points sha
  | _ => True

variable {f : ImgDir Extra → ImgDir Extra} {other : Text}

theorem manifest_isSome_of_change
    (hdir : ∀ other, s'.dir other = if other = sha then (s.dir sha).map f else s.dir other)
    (hf : ∀ d, d.manifest.isSome = true → (f d).manifest.isSome = true)
    (h : (s.manifest other).isSome = true) : (s'.manifest other).isSome = true := by
  obtain ⟨m, hm⟩ := Option.isSome_iff_exists.mp h
  obtain ⟨d, hd, hdm⟩ := Option.bind_eq_some_iff.mp hm
  have hsome : d.manifest.isSome = true := by rw [hdm, Option.isSome_some]
  unfold Store.manifest
  rw [hdir]
  rcases eq_or_ne other sha with rfl | hne
  · rw [if_pos rfl, hd]
    exact hf d hsome
  · rw [if_neg hne, hd]
    exact hsome

theorem Indexed.change (h : Indexed Named s)
    (hdir : ∀ other, s'.dir other = if other = sha then (s.dir sha).map f else s.dir other)
    (hrefs : s'.refs = s.refs)
    (hf : ∀ d, (f d).manifest = d.manifest ∨ ∃ m, (f d).manifest = some m ∧ Proper sha m) :
    Indexed Named s' := by
  constructor
  · refine h.dirs.change hdir (fun _ _ hd => hd) fun d _ hd => ⟨hd.1, fun m hm => ?_⟩
    rcases hf d with hsame | ⟨m', hm', hproper⟩
    · exact hd.2 m (hsame ▸ hm)
    · cases hm'.symm.trans hm
      exact hproper
  · intro ref other href
    obtain ⟨hnamed, hsome⟩ := h.refs ref other (hrefs ▸ href)
    refine ⟨hnamed, manifest_isSome_of_change hdir (fun d hd => ?_) hsome⟩
    rcases hf d with hsame | ⟨m', hm', -⟩
    · rw [hsame, hd]
    · rw [hm', Option.isSome_some]

theorem manifest_mkdir (host : Host) (s : Store Extra) (sha : Text)
    (h : (s.manifest other).isSome = true) :
    ((exec host s (.mkdir sha)).manifest other).isSome = true := by
  obtain ⟨m, hm⟩ := Option.isSome_iff_exists.mp h
  obtain ⟨d, hd, hdm⟩ := Option.bind_eq_some_iff.mp hm
  unfold Store.manifest
  rw [dir_mkdir]
  split
  · next heq =>
    subst heq
    simp [Store.dirD, hd, hdm]
  · simp [hd, hdm]

theorem Indexed.exec (h : Indexed Named s) {e : Effect Extra} (he : Fine Named s e) :
    Indexed Named (exec host s e) := by
  cases e with
  | mkdir sha =>
    refine ⟨h.dirs.mkdir host ⟨he, nofun⟩, fun ref other href => ?_⟩
    rw [mkdir_refs] at href
    obtain ⟨hnamed, hsome⟩ := h.refs ref other href
    exact ⟨hnamed, manifest_mkdir host s sha hsome⟩
  | writeDisk sha content =>
    exact h.change (dir_writeDisk host s sha · content) (s.modify_refs sha _) fun d => .inl rfl
  | chmod sha => exact h.change (dir_chmod host s sha) (s.modify_refs sha _) fun d => .inl rfl
  | markVerified sha digest =>
    obtain ⟨record, hdir⟩ := dir_markVerified host s sha digest
    exact h.change hdir (markVerified_refs host s sha digest) fun d => .inl rfl
  | verifyDisk sha digest =>
    obtain ⟨record, hdir⟩ := dir_verifyDisk host s sha digest
    exact h.change hdir (verifyDisk_refs host s sha digest) fun d => .inl rfl
  | writeManifest sha m =>
    exact h.change (dir_writeManifest host s sha · m) (s.modify_refs sha _)
      fun d => .inr ⟨m, rfl, he⟩
  | writeTag sha ref m =>
    exact h.change (dir_writeTag host s sha · ref m) (writeTag_refs host s sha ref m)
      fun d => .inl rfl
  | removeTag sha ref =>
    exact h.change (dir_removeTag host s sha · ref) (removeTag_refs host s sha ref)
      fun d => .inl rfl
  | writeRefs => exact ⟨h.dirs, he⟩
  | removeAll sha =>
    refine ⟨h.dirs.removeAll host, fun ref other href => ?_⟩
    have hne : other ≠ sha := by
      rintro rfl
      exact he (Refs.points_iff.mpr ⟨ref, href⟩)
    obtain ⟨hnamed, hsome⟩ := h.refs ref other href
    refine ⟨hnamed, ?_⟩
    unfold Store.manifest at hsome ⊢
    rwa [dir_removeAll, if_neg hne]

def Spares (sha : Text) : Effect Extra → Prop
  | .writeDisk other _ => other ≠ sha
  | .chmod other => other ≠ sha
  | .removeAll other => other ≠ sha
  | _ => True

variable {g : DiskFile}

theorem disk_of_change
    (hdir : ∀ other, s'.dir other = if other = sha then (s.dir sha).map f else s.dir other)
    (hf : other = sha → ∀ d, (f d).disk = d.disk) (h : s.disk other = some g) :
    s'.disk other = some g := by
  obtain ⟨d, hd, hdg⟩ := Option.bind_eq_some_iff.mp h
  unfold Store.disk
  rw [hdir]
  rcases eq_or_ne other sha with rfl | hne
  · rw [if_pos rfl, hd]
    exact (hf rfl d).trans hdg
  · rw [if_neg hne, hd]
    exact hdg

theorem disk_exec {e : Effect Extra} (he : Spares sha e) (h : s.disk sha = some g) :
    (exec host s e).disk sha = some g := by
  cases e with
  | mkdir =>
    obtain ⟨d, hd, hdg⟩ := Option.bind_eq_some_iff.mp h
    unfold Store.disk
    rw [dir_mkdir]
    split
    · next heq =>
      subst heq
      simp [Store.dirD, hd, hdg]
    · simp [hd, hdg]
  | writeDisk other content =>
    exact disk_of_change (dir_writeDisk host s other · content)
      (fun heq => absurd heq.symm he) h
  | chmod other =>
    exact disk_of_change (dir_chmod host s other) (fun heq => absurd heq.symm he) h
  | markVerified other digest =>
    obtain ⟨record, hdir⟩ := dir_markVerified host s other digest
    exact disk_of_change hdir (fun _ d => rfl) h
  | verifyDisk other digest =>
    obtain ⟨record, hdir⟩ := dir_verifyDisk host s other digest
    exact disk_of_change hdir (fun _ d => rfl) h
  | writeManifest other m =>
    exact disk_of_change (dir_writeManifest host s other · m) (fun _ d => rfl) h
  | writeTag other ref m =>
    exact disk_of_change (dir_writeTag host s other · ref m) (fun _ d => rfl) h
  | removeTag other ref =>
    exact disk_of_change (dir_removeTag host s other · ref) (fun _ d => rfl) h
  | writeRefs => exact h
  | removeAll =>
    unfold Store.disk
    rw [dir_removeAll, if_neg fun heq => he heq.symm]
    exact h

variable {a : Action Extra}

theorem act_of_allSteps {I : Store Extra → Prop} {P : Store Extra → Effect Extra → Prop}
    (hstep : ∀ s e, I s → P s e → I (exec host s e)) (h : I s)
    (hplan : ∀ effects, plan host s a.call = .ok effects → AllSteps (exec host) P s effects) :
    I (act host s a) := by
  unfold act
  cases hcall : plan host s a.call with
  | error => exact h
  | ok effects =>
    have heffects := hplan effects hcall
    cases a.cut with
    | none => exact run_invariant_of_allSteps hstep h heffects
    | some n => exact run_invariant_of_allSteps hstep h (heffects.take n)

theorem disk_act (h : s.disk sha = some g)
    (hplan : ∀ effects, plan host s a.call = .ok effects → ∀ e ∈ effects, Spares sha e) :
    (act host s a).disk sha = some g :=
  act_of_allSteps (I := fun s => s.disk sha = some g) (P := fun _ e => Spares sha e)
    (fun _ _ hs he => disk_exec he hs) h fun effects heffects =>
      allSteps_of_forall (hplan effects heffects)

/-- The changes that neither write the index nor delete a directory. -/
def Mild : Effect Extra → Prop
  | .writeRefs _ => False
  | .removeAll _ => False
  | _ => True

structure Milder (s s' : Store Extra) : Prop where
  refs : s'.refs = s.refs
  dir : ∀ sha, (s.dir sha).isSome = true → (s'.dir sha).isSome = true
  manifest : ∀ sha, (s.manifest sha).isSome = true → (s'.manifest sha).isSome = true

theorem Milder.refl (s : Store Extra) : Milder s s := ⟨rfl, fun _ h => h, fun _ h => h⟩

theorem Milder.trans {s'' : Store Extra} (h : Milder s s') (h' : Milder s' s'') : Milder s s'' :=
  ⟨h'.refs.trans h.refs, fun sha hsha => h'.dir sha (h.dir sha hsha),
    fun sha hsha => h'.manifest sha (h.manifest sha hsha)⟩

theorem Milder.of_change
    (hdir : ∀ other, s'.dir other = if other = sha then (s.dir sha).map f else s.dir other)
    (hrefs : s'.refs = s.refs) (hf : ∀ d, d.manifest.isSome = true → (f d).manifest.isSome = true) :
    Milder s s' := by
  refine ⟨hrefs, fun other hother => ?_, fun other => manifest_isSome_of_change hdir hf⟩
  rw [hdir]
  split
  · next heq =>
    subst heq
    rwa [Option.isSome_map]
  · exact hother

theorem milder_exec (host : Host) (s : Store Extra) (e : Effect Extra) (he : Mild e) :
    Milder s (exec host s e) := by
  cases e with
  | mkdir sha =>
    refine ⟨mkdir_refs host s sha, fun other hother => ?_, fun other => manifest_mkdir host s sha⟩
    rw [dir_mkdir]
    split
    · rfl
    · exact hother
  | writeDisk sha content =>
    exact .of_change (dir_writeDisk host s sha · content) (s.modify_refs sha _) fun d hd => hd
  | chmod sha => exact .of_change (dir_chmod host s sha) (s.modify_refs sha _) fun d hd => hd
  | markVerified sha digest =>
    obtain ⟨record, hdir⟩ := dir_markVerified host s sha digest
    exact .of_change hdir (markVerified_refs host s sha digest) fun d hd => hd
  | verifyDisk sha digest =>
    obtain ⟨record, hdir⟩ := dir_verifyDisk host s sha digest
    exact .of_change hdir (verifyDisk_refs host s sha digest) fun d hd => hd
  | writeManifest sha m =>
    exact .of_change (dir_writeManifest host s sha · m) (s.modify_refs sha _) fun d _ => rfl
  | writeTag sha ref m =>
    exact .of_change (dir_writeTag host s sha · ref m) (writeTag_refs host s sha ref m)
      fun d hd => hd
  | removeTag sha ref =>
    exact .of_change (dir_removeTag host s sha · ref) (removeTag_refs host s sha ref)
      fun d hd => hd
  | writeRefs | removeAll => exact he.elim

variable {effects : List (Effect Extra)}

theorem milder_run (h : ∀ e ∈ effects, Mild e) :
    Milder s (run (exec host) s effects) := by
  induction effects generalizing s with
  | nil => exact .refl s
  | cons e effects ih =>
    exact (milder_exec host s e (h e mem_cons_self)).trans
      (ih fun e he => h e (mem_cons_of_mem _ he))

theorem mild_storeDisk (host : Host) (disk : Bytes) (renamed : Bool) (copied : Nat) :
    ∀ e ∈ (storeDisk host disk renamed copied : List (Effect Extra)), Mild e := by
  cases renamed with
  | true | false => simp [storeDisk, Mild]

/-! ## The plan of a call -/

theorem Indexed.fine_insert (h : Indexed Named s) (hmild : Milder s s') {ref sha : Text}
    (hnamed : Named ref) (hsome : (s'.manifest sha).isSome = true) :
    Fine Named s' (.writeRefs (s.refs.insert ref sha)) := by
  intro r other hr
  rcases eq_or_ne r ref with rfl | hne
  · rw [AList.lookup_insert] at hr
    cases hr
    exact ⟨hnamed, hsome⟩
  · rw [AList.lookup_insert_ne hne] at hr
    obtain ⟨hn, hm⟩ := h.refs r other hr
    exact ⟨hn, hmild.manifest other hm⟩

theorem Indexed.allSteps_put (hsha : ∀ b, isSHA256Hex (host.sha256Hex b) = true)
    (h : Indexed Named s) {name tag : Text} {m : Manifest Extra} {disk : Bytes} (renamed : Bool)
    (copied : Nat) (hvalid : validate (storedManifest host name tag m disk) = .ok ())
    (hnamed : Named (refText name tag)) :
    AllSteps (Image.exec host) (Fine Named) s (put host s name tag m disk renamed copied) := by
  set sha := host.sha256Hex disk with hshadef
  set s₁ := Image.exec host s (.mkdir sha) with hs₁
  set place : List (Effect Extra) :=
    if (s.disk sha).isSome then [] else storeDisk host disk renamed copied with hplace
  have hmild : ∀ e ∈ place, Mild e := by
    rw [hplace]
    split
    · exact nofun
    · exact mild_storeDisk host disk renamed copied
  have hfine : ∀ (s : Store Extra), AllSteps (Image.exec host) (Fine Named) s place := by
    intro s
    rw [hplace]
    split
    · trivial
    · cases renamed with
      | true => exact ⟨trivial, trivial, trivial, trivial⟩
      | false => exact ⟨trivial, trivial, trivial, trivial, trivial⟩
  have hm₂ : Milder s (run (Image.exec host) s₁ place) :=
    (milder_exec host s (.mkdir sha) trivial).trans (milder_run hmild)
  have hdir : ((run (Image.exec host) s₁ place).dir sha).isSome = true := by
    refine (milder_run hmild).dir sha ?_
    rw [hs₁, dir_mkdir, if_pos rfl]
    rfl
  refine ⟨hsha disk, (allSteps_append _ _ _).mpr ⟨hfine s₁, ⟨hvalid, rfl⟩, trivial, ?_, trivial⟩⟩
  -- The manifest has been written when the index is.
  set stored := storedManifest host name tag m disk
  have hm₃ := milder_exec host (run (Image.exec host) s₁ place) (.writeManifest sha stored) trivial
  have hm₄ := milder_exec host
    (Image.exec host (run (Image.exec host) s₁ place) (.writeManifest sha stored))
    (.writeTag sha (refText name tag) stored) trivial
  refine h.fine_insert (hm₂.trans (hm₃.trans hm₄)) hnamed (hm₄.manifest sha ?_)
  obtain ⟨d, hd⟩ := Option.isSome_iff_exists.mp hdir
  rw [Store.manifest, dir_writeManifest, if_pos rfl, hd]
  rfl

theorem allSteps_removeAlls {shas : List Text} (h : ∀ sha ∈ shas, ¬s.refs.Points sha) :
    AllSteps (exec host) (Fine Named) s (shas.map .removeAll) := by
  induction shas generalizing s with
  | nil => trivial
  | cons sha shas ih =>
    exact ⟨h sha mem_cons_self, ih fun sha hsha => h sha (mem_cons_of_mem _ hsha)⟩

theorem Indexed.allSteps_plan (hsha : ∀ b, isSHA256Hex (host.sha256Hex b) = true)
    (h : Indexed Named s) {c : Call Extra} (hc : c.Promised host) (hnamed : c.Gives Named)
    (hplan : plan host s c = .ok effects) :
    AllSteps (Image.exec host) (Fine Named) s effects := by
  cases c with
  | put name newTag m disk renamed copied =>
    cases hplan
    exact h.allSteps_put hsha renamed copied hc hnamed
  | tag ref name newTag =>
    simp only [plan, tag] at hplan
    split at hplan
    · cases hplan
    · next sha source hres =>
      split at hplan
      · cases hplan
      · next m hread =>
        cases hplan
        obtain ⟨hhex, m₀, hm₀, -⟩ := h.manifest_of_points (resolveRefName_eq_ok hres).1
        have hsome : (s.manifest sha).isSome = true := by rw [hm₀, Option.isSome_some]
        have hmild := (milder_exec host s (.mkdir sha) trivial).trans
          (milder_exec host (Image.exec host s (.mkdir sha))
            (.writeTag sha (refText name newTag) { m with name := name, tag := newTag }) trivial)
        exact ⟨hhex, trivial, h.fine_insert hmild hnamed (hmild.manifest sha hsome), trivial⟩
  | setRecipe =>
    simp only [plan, setRecipe] at hplan
    split at hplan
    · cases hplan
    · cases hplan
    · next sha name hres =>
      split at hplan
      · cases hplan
      · cases hplan
        exact ⟨(h.manifest_of_points (resolveRefName_eq_ok hres).1).1, trivial, trivial⟩
  | remove ref =>
    simp only [plan, remove] at hplan
    split at hplan
    · cases hplan
    · next sha name hres =>
      cases hplan
      have hmild : ∀ e ∈ ((removedRefs s sha name).map (.removeTag sha) : List (Effect Extra)),
          Mild e := by
        intro e he
        obtain ⟨ref, -, rfl⟩ := mem_map.mp he
        trivial
      refine (allSteps_append _ _ _).mpr ⟨?_, ?_, ?_⟩
      · refine (allSteps_of_forall (Q := fun e => ∀ s, Fine Named s e) fun e he s => ?_).imp
          fun s e he => he s
        obtain ⟨ref, -, rfl⟩ := mem_map.mp he
        trivial
      · intro r other hr
        rw [lookup_eraseAll] at hr
        split at hr
        · cases hr
        · obtain ⟨hn, hm⟩ := h.refs r other hr
          exact ⟨hn, (milder_run hmild).manifest other hm⟩
      · split
        · trivial
        · next hpoints => exact ⟨hpoints, trivial⟩
  | pruneUnreferenced =>
    cases hplan
    exact allSteps_removeAlls fun sha hsha => (mem_unreferenced.mp hsha).2.2.1
  | get =>
    cases hplan
    unfold verification
    split
    · trivial
    · split
      · trivial
      · exact ⟨trivial, trivial⟩

theorem Indexed.act (hsha : ∀ b, isSHA256Hex (host.sha256Hex b) = true) (h : Indexed Named s)
    (ha : a.call.Promised host) (hnamed : a.call.Gives Named) :
    Indexed Named (act host s a) :=
  act_of_allSteps (fun _ _ hs he => hs.exec he) h fun _ hplan =>
    h.allSteps_plan hsha ha hnamed hplan

/-- The calls that leave a disk that is there alone, in the state they start
from. -/
def Leaves (s : Store Extra) (sha : Text) : Call Extra → Prop
  | .remove ref => ∀ other name, resolveRefName s ref = .ok (other, name) → other ≠ sha
  | .pruneUnreferenced inUse => inUse (digestText sha) = true
  | _ => True

theorem spares_plan (hdisk : s.disk sha = some g) {c : Call Extra} (hc : Leaves s sha c)
    (hplan : plan host s c = .ok effects) :
    ∀ e ∈ effects, Spares sha e := by
  cases c with
  | put name newTag m disk renamed =>
    cases hplan
    intro e he
    rcases mem_cons.mp he with rfl | he
    · trivial
    · rcases mem_append.mp he with he | he
      · -- A file is written where there was none.
        split at he
        · cases he
        · next hnone =>
          have hne : host.sha256Hex disk ≠ sha := by
            rintro rfl
            rw [hdisk] at hnone
            exact hnone rfl
          cases renamed with
          | true =>
            simp only [storeDisk, if_true, mem_cons, not_mem_nil, or_false] at he
            rcases he with rfl | rfl | rfl
            · exact hne
            · exact hne
            · trivial
          | false =>
            simp only [storeDisk, Bool.false_eq_true, if_false, mem_cons,
              not_mem_nil, or_false] at he
            rcases he with rfl | rfl | rfl | rfl
            · exact hne
            · exact hne
            · exact hne
            · trivial
      · simp only [mem_cons, not_mem_nil, or_false] at he
        rcases he with rfl | rfl | rfl <;> trivial
  | tag =>
    simp only [plan, tag] at hplan
    split at hplan
    · cases hplan
    · split at hplan
      · cases hplan
      · cases hplan
        simp [Spares]
  | setRecipe =>
    simp only [plan, setRecipe] at hplan
    split at hplan
    · cases hplan
    · cases hplan
    · split at hplan
      · cases hplan
      · cases hplan
        simp [Spares]
  | remove =>
    simp only [plan, remove] at hplan
    split at hplan
    · cases hplan
    · next other name hres =>
      cases hplan
      intro e he
      rcases mem_append.mp he with he | he
      · obtain ⟨r, -, rfl⟩ := mem_map.mp he
        trivial
      · rcases mem_cons.mp he with rfl | he
        · trivial
        · split at he
          · cases he
          · rw [mem_singleton.mp he]
            exact hc other name hres
  | pruneUnreferenced =>
    cases hplan
    intro e he
    obtain ⟨other, hother, rfl⟩ := mem_map.mp he
    rintro rfl
    have huse := (mem_unreferenced.mp hother).2.2.2
    rw [hc] at huse
    cases huse
  | get =>
    cases hplan
    unfold verification
    split
    · simp [Spares]
    · split
      · simp [Spares]
      · intro e he
        rw [mem_singleton.mp he]
        trivial

theorem disk_act_of_leaves (hdisk : s.disk sha = some g) (ha : Leaves s sha a.call) :
    (Image.act host s a).disk sha = some g :=
  disk_act hdisk fun _ hplan => spares_plan hdisk ha hplan

theorem eq_of_prefix_of_hex {a b : Text} (ha : isSHA256Hex a = true) (hb : isSHA256Hex b = true)
    (h : a <+: b) : a = b := by
  obtain ⟨rest, rfl⟩ := h
  have hlen := of_decide_eq_true ((Bool.and_eq_true _ _).mp ha).1
  have hlen' := of_decide_eq_true ((Bool.and_eq_true _ _).mp hb).1
  cases rest with
  | nil => exact (append_nil a).symm
  | cons c =>
    have hc := Char.utf8Size_pos c
    simp only [byteLen, map_append, sum_append, map_cons, sum_cons]
      at hlen hlen'
    omega

theorem matchSHA_self {sha found : Text} {shas : List Text} (hne : sha ≠ [])
    (hfound : found = [] ∨ found = sha) (hmem : found = sha ∨ sha ∈ shas)
    (honly : ∀ other ∈ shas, sha <+: other → other = sha) :
    matchSHA sha found shas = some sha := by
  induction shas generalizing found with
  | nil =>
    have hsha : found = sha := hmem.resolve_right (by simp)
    rw [matchSHA, if_pos (hsha ▸ hne), hsha]
  | cons other shas ih =>
    have honly' : ∀ other ∈ shas, sha <+: other → other = sha :=
      fun other hother => honly other (mem_cons_of_mem _ hother)
    rw [matchSHA]
    split
    · next hmatch =>
      have heq : other = sha :=
        hmatch.elim id (honly other mem_cons_self)
      subst heq
      rw [if_neg, ih (.inr rfl) (.inl rfl) honly']
      rintro ⟨hnil, hother⟩
      exact hfound.elim hnil hother
    · next hmatch =>
      refine ih hfound ?_ honly'
      rcases hmem with rfl | hmem
      · exact .inl rfl
      · rcases mem_cons.mp hmem with rfl | hmem
        · exact absurd (.inl rfl) hmatch
        · exact .inr hmem

theorem Indexed.resolveRefName_digest (h : Indexed Named s) (hnot : ¬Named (digestText sha))
    (hpoints : s.refs.Points sha) :
    resolveRefName s (digestText sha) = .ok (sha, none) := by
  have hhex := (h.manifest_of_points hpoints).1
  have hlookup : s.refs.lookup (digestText sha) = none := by
    cases hl : s.refs.lookup (digestText sha) with
    | none => rfl
    | some other => exact absurd (h.refs _ other hl).1 hnot
  have hcolon : ':' ∈ digestText sha :=
    mem_append_left _ (by decide)
  have hfind : findBySHA s.refs (digestText sha) = some sha := by
    unfold findBySHA
    rw [stripPrefix_digestText]
    obtain ⟨⟨ref, sha'⟩, hmem, rfl⟩ := hpoints
    refine matchSHA_self ?_ (.inl rfl) (.inr (mem_map.mpr ⟨_, hmem, rfl⟩)) ?_
    · rintro rfl
      cases hhex
    · intro other hother hpre
      obtain ⟨e, he, rfl⟩ := mem_map.mp hother
      have hother := (h.manifest_of_points ⟨e, he, rfl⟩).1
      exact (eq_of_prefix_of_hex hhex hother hpre).symm
  unfold resolveRefName
  rw [hlookup, if_pos hcolon, hfind]

theorem Indexed.get_digest (h : Indexed Named s) (hnot : ¬Named (digestText sha))
    (hpoints : s.refs.Points sha) {f : DiskFile} (hdisk : s.disk sha = some f)
    (hdigest : host.digest f.content = digestText sha) :
    ∃ m, host.get s (digestText sha) = .ok (m, sha) := by
  obtain ⟨hhex, m, hm, hvalid, hmdigest⟩ := h.manifest_of_points hpoints
  refine ⟨m, get_eq_ok.mpr ⟨?_, ?_⟩⟩
  · simp only [resolve, h.resolveRefName_digest hnot hpoints, readRefManifest, readManifest, hm,
      parse, hvalid, hmdigest, ne_eq, not_true_eq_false, if_false]
  · rw [hmdigest]
    exact trusted_of_disk hhex hdisk hdigest

end Jerboa.Image
