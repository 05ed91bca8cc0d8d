import Jerboa.Image.Integrity

/-!
# References of the image store

References share the directory of a disk, and each keeps a manifest of its own
there.  Over every history of calls, each reference resolves to its own
manifest and its own disk, a call touches the references it names and no other,
and directories go exactly when `Remove` or `PruneUnreferenced` should delete
them.
-/

namespace Jerboa.Image

open List Net.Address Lib Lib.Run Lib.Table

variable {Extra : Type} {host : Host} {s s' : Store Extra}

theorem Refs.points_iff {refs : Refs} {sha : Text} :
    refs.Points sha ↔ ∃ ref, refs.lookup ref = some sha := by
  constructor
  · rintro ⟨⟨ref, sha'⟩, hmem, rfl⟩
    exact ⟨ref, AList.mem_lookup_iff.mpr hmem⟩
  · rintro ⟨ref, href⟩
    exact ⟨⟨ref, sha⟩, AList.mem_lookup_iff.mp href, rfl⟩

theorem mem_of_matchSHA {needle found sha : Text} {shas : List Text}
    (h : matchSHA needle found shas = some sha) : sha ∈ found :: shas ∧ sha ≠ [] := by
  induction shas generalizing found with
  | nil =>
    simp only [matchSHA] at h
    split at h
    · next hfound =>
      cases h
      exact ⟨mem_cons_self, hfound⟩
    · cases h
  | cons sha' shas ih =>
    simp only [matchSHA] at h
    split at h
    · split at h
      · cases h
      · exact ⟨mem_cons_of_mem _ (ih h).1, (ih h).2⟩
    · rcases mem_cons.mp (ih h).1 with rfl | hmem
      · exact ⟨mem_cons_self, (ih h).2⟩
      · exact ⟨mem_cons_of_mem _ (mem_cons_of_mem _ hmem), (ih h).2⟩

variable {ref sha : Text}

theorem points_of_findBySHA {refs : Refs} (h : findBySHA refs ref = some sha) :
    refs.Points sha := by
  obtain ⟨hmem, hne⟩ := mem_of_matchSHA h
  rcases mem_cons.mp hmem with rfl | hmem
  · exact absurd rfl hne
  · obtain ⟨e, he, rfl⟩ := mem_map.mp hmem
    exact ⟨e, he, rfl⟩

variable {name : Option Text}

theorem resolveRefName_eq_ok (h : resolveRefName s ref = .ok (sha, name)) :
    s.refs.Points sha ∧ ∀ n, name = some n → s.refs.lookup n = some sha := by
  have hnamed : ∀ n, s.refs.lookup n = some sha →
      s.refs.Points sha ∧ ∀ n', some n = some n' → s.refs.lookup n' = some sha :=
    fun n hn => ⟨Refs.points_iff.mpr ⟨n, hn⟩, fun n' hn' => Option.some.inj hn' ▸ hn⟩
  unfold resolveRefName at h
  split at h
  · next hn =>
    cases h
    exact hnamed _ hn
  · split at h
    · next hn =>
      cases h
      split at hn
      · cases hn
      · exact hnamed _ hn
    · split at h
      · next hfind =>
        cases h
        exact ⟨points_of_findBySHA hfind, by simp⟩
      · cases h

/-- A manifest that passes the checks and names the disk of its directory. -/
def Proper (sha : Text) (m : Manifest Extra) : Prop :=
  validate m = .ok () ∧ m.diskDigest = digestText sha

/-- A directory whose manifests are proper, those of tags in the files of their own
references. -/
structure DirOk (tagFile : Text → Text) (named : Set Text) (sha : Text) (d : ImgDir Extra) :
    Prop where
  hex : isSHA256Hex sha = true
  manifest : ∀ m, d.manifest = some m → Proper sha m
  tags : ∀ file m, d.tags.lookup file = some m →
    Proper sha m ∧ m.ref ∈ named ∧ tagFile m.ref = file

/-- The directory has the disk, its manifest and the manifest of the
reference. -/
def Holds (tagFile : Text → Text) (d : ImgDir Extra) (ref : Text) : Prop :=
  d.disk.isSome ∧ d.manifest.isSome ∧ (d.tags.lookup (tagFile ref)).isSome

/-- Every reference is one of `named`, whose files the file system tells apart, and
leads to a directory that has what it needs. -/
structure Consistent (named : Set Text) (s : Store Extra) : Prop where
  apart : Set.InjOn s.tagFile named
  dirs : Everywhere (DirOk s.tagFile named) s
  refs : ∀ ref sha, s.refs.lookup ref = some sha →
    ref ∈ named ∧ ∃ d, s.dir sha = some d ∧ Holds s.tagFile d ref

variable {named : Set Text}

theorem consistent_new {tagFile : Text → Text} (h : Set.InjOn tagFile named) :
    Consistent named (.new tagFile : Store Extra) := ⟨h, nofun, nofun⟩

variable {m : Manifest Extra}

namespace Consistent

theorem resolve (h : Consistent named s) (href : s.refs.lookup ref = some sha) :
    ∃ m, s.tagManifest sha ref = some m ∧ Proper sha m ∧ m.ref = ref ∧
      Image.resolve s ref = .ok (m, sha) := by
  obtain ⟨hnamed, d, hd, -, -, htag⟩ := h.refs ref sha href
  obtain ⟨m, hm⟩ := Option.isSome_iff_exists.mp htag
  obtain ⟨hproper, hmnamed, hfile⟩ := (h.dirs sha d hd).tags _ m hm
  have hstored : s.tagManifest sha ref = some m := by
    rw [Store.tagManifest, hd]
    exact hm
  exact ⟨m, hstored, hproper, h.apart hmnamed hnamed hfile,
    resolve_of_tagManifest href hstored hproper.1 hproper.2⟩

theorem dir_of_points (h : Consistent named s) {sha : Text} (hpoints : s.refs.Points sha) :
    ∃ d, s.dir sha = some d ∧ d.disk.isSome ∧ d.manifest.isSome := by
  obtain ⟨ref, href⟩ := Refs.points_iff.mp hpoints
  obtain ⟨-, d, hd, hdisk, hmanifest, -⟩ := h.refs ref sha href
  exact ⟨d, hd, hdisk, hmanifest⟩

theorem proper_of_readRefManifest (h : Consistent named s)
    (hname : resolveRefName s ref = .ok (sha, name)) (hread : readRefManifest s sha name = .ok m) :
    Proper sha m := by
  obtain ⟨hpoints, hlookup⟩ := resolveRefName_eq_ok hname
  cases name with
  | none =>
    obtain ⟨d, hd, -, hmanifest⟩ := h.dir_of_points hpoints
    obtain ⟨m', hm'⟩ := Option.isSome_iff_exists.mp hmanifest
    have hproper := (h.dirs sha d hd).manifest m' hm'
    have hstored : s.manifest sha = some m' := by
      rw [Store.manifest, hd]
      exact hm'
    simp only [readRefManifest, readManifest, hstored, parse, hproper.1, Except.ok.injEq] at hread
    exact hread ▸ hproper
  | some n =>
    obtain ⟨m', hstored, hproper, -⟩ := h.resolve (hlookup n rfl)
    simp only [readRefManifest, hstored, parse, hproper.1, Except.ok.injEq] at hread
    exact hread ▸ hproper

end Consistent

/-- The reference points where it did, and its manifest and disk are as they
were. -/
def SameFor (ref : Text) (s s' : Store Extra) : Prop :=
  s'.refs.lookup ref = s.refs.lookup ref ∧
    ∀ sha, s.refs.lookup ref = some sha →
      s'.tagManifest sha ref = s.tagManifest sha ref ∧ s'.disk sha = s.disk sha

theorem SameFor.of_dir {ref : Text} (hfile : s'.tagFile = s.tagFile)
    (href : s'.refs.lookup ref = s.refs.lookup ref)
    (hdir : ∀ sha, s.refs.lookup ref = some sha → s'.dir sha = s.dir sha) : SameFor ref s s' := by
  refine ⟨href, fun sha hsha => ?_⟩
  rw [Store.tagManifest, Store.disk, hdir sha hsha, hfile]
  exact ⟨rfl, rfl⟩

theorem SameFor.refl (ref : Text) (s : Store Extra) : SameFor ref s s :=
  .of_dir rfl rfl fun _ _ => rfl

theorem Consistent.resolve_eq (h : Consistent named s) (href : s.refs.lookup ref = some sha)
    (hsame : SameFor ref s s') :
    Image.resolve s' ref = Image.resolve s ref := by
  obtain ⟨m, hstored, hproper, -, hresolve⟩ := h.resolve href
  rw [hresolve]
  exact resolve_of_tagManifest (hsame.1.trans href) ((hsame.2 sha href).1.trans hstored)
    hproper.1 hproper.2

/-! ## Put, Tag and SetRecipe -/

theorem Consistent.dirD_tags (h : Consistent named s) {sha file : Text}
    (hm : (s.dirD sha).tags.lookup file = some m) :
    Proper sha m ∧ m.ref ∈ named ∧ s.tagFile m.ref = file := by
  unfold Store.dirD at hm
  cases hd : s.dir sha with
  | none =>
    rw [hd] at hm
    cases hm
  | some d =>
    rw [hd] at hm
    exact (h.dirs sha d hd).tags file m hm

/-- What the three calls that enter a reference have in common: the manifest
`m` of `ref` is written in the directory of `sha`, which is now `d` and keeps
the disk it had, and the index points `ref` there. -/
structure Entered (s s' : Store Extra) (sha ref : Text) (m : Manifest Extra) (d : ImgDir Extra) :
    Prop where
  hex : isSHA256Hex sha = true
  proper : Proper sha m
  ref_eq : m.ref = ref
  tagFile : s'.tagFile = s.tagFile
  dir : ∀ other, s'.dir other = if other = sha then some d else s.dir other
  tags : d.tags = (s.dirD sha).tags.insert (s.tagFile ref) m
  disk : d.disk.isSome
  disk_kept : ∀ f, s.disk sha = some f → d.disk = some f
  manifest : ∃ m', d.manifest = some m' ∧ Proper sha m'
  refs : ∀ r, s'.refs.lookup r = if r = ref then some sha else s.refs.lookup r

namespace Entered

variable {sha ref : Text} {m : Manifest Extra} {d : ImgDir Extra}

theorem tags_of_ne (h : Consistent named s) (he : Entered s s' sha ref m d) (href : ref ∈ named)
    {r : Text} (hr : r ∈ named) (hne : r ≠ ref) :
    d.tags.lookup (s.tagFile r) = (s.dirD sha).tags.lookup (s.tagFile r) := by
  rw [he.tags, AList.lookup_insert_ne fun heq => hne (h.apart hr href heq)]

theorem consistent (h : Consistent named s) (he : Entered s s' sha ref m d) (href : ref ∈ named) :
    Consistent named s' := by
  obtain ⟨m₀, hm₀, hproper₀⟩ := he.manifest
  refine ⟨he.tagFile ▸ h.apart, ?_, ?_⟩
  · intro other d' hd'
    rw [he.tagFile]
    rw [he.dir] at hd'
    split at hd'
    · next heq =>
      subst heq
      cases hd'
      refine ⟨he.hex, fun m' hm' => ?_, fun file m' hm' => ?_⟩
      · cases hm₀.symm.trans hm'
        exact hproper₀
      · rw [he.tags] at hm'
        rcases eq_or_ne file (s.tagFile ref) with rfl | hne
        · rw [AList.lookup_insert] at hm'
          cases hm'
          rw [he.ref_eq]
          exact ⟨he.proper, href, rfl⟩
        · rw [AList.lookup_insert_ne hne] at hm'
          exact h.dirD_tags hm'
    · exact h.dirs other d' hd'
  · intro r sha' hr
    rw [he.tagFile]
    rw [he.refs] at hr
    have hmanifest : d.manifest.isSome := Option.isSome_iff_exists.mpr ⟨m₀, hm₀⟩
    split at hr
    · next heq =>
      subst heq
      cases hr
      refine ⟨href, d, by rw [he.dir, if_pos rfl], he.disk, hmanifest, ?_⟩
      rw [he.tags, AList.lookup_insert]
      rfl
    · next hne =>
      obtain ⟨hnamed, d₀, hd₀, hholds⟩ := h.refs r sha' hr
      rcases eq_or_ne sha' sha with rfl | hsha
      · refine ⟨hnamed, d, by rw [he.dir, if_pos rfl], he.disk, hmanifest, ?_⟩
        rw [he.tags_of_ne h href hnamed hne, Store.dirD, hd₀]
        exact hholds.2.2
      · exact ⟨hnamed, d₀, by rw [he.dir, if_neg hsha, hd₀], hholds⟩

theorem sameFor (h : Consistent named s) (he : Entered s s' sha ref m d) (href : ref ∈ named)
    {r : Text} (hr : r ≠ ref) :
    SameFor r s s' := by
  refine ⟨by rw [he.refs, if_neg hr], fun sha' hsha' => ?_⟩
  obtain ⟨hnamed, d₀, hd₀, hdisk, -⟩ := h.refs r sha' hsha'
  rcases eq_or_ne sha' sha with rfl | hne
  · obtain ⟨f, hf⟩ := Option.isSome_iff_exists.mp hdisk
    have hsf : s.disk sha' = some f := by
      rw [Store.disk, hd₀]
      exact hf
    rw [hsf, Store.tagManifest, Store.tagManifest, Store.disk, he.dir, if_pos rfl, hd₀, he.tagFile]
    refine ⟨?_, he.disk_kept f hsf⟩
    change d.tags.lookup (s.tagFile r) = d₀.tags.lookup (s.tagFile r)
    rw [he.tags_of_ne h href hnamed hr, Store.dirD, hd₀]
    rfl
  · rw [Store.tagManifest, Store.tagManifest, Store.disk, Store.disk, he.dir, if_neg hne,
      he.tagFile]
    exact ⟨rfl, rfl⟩

theorem resolve (he : Entered s s' sha ref m d) : Image.resolve s' ref = .ok (m, sha) := by
  have htag : s'.tagManifest sha ref = some m := by
    rw [Store.tagManifest, he.dir, if_pos rfl, Option.bind_some, he.tagFile, he.tags]
    exact AList.lookup_insert _
  exact resolve_of_tagManifest (by rw [he.refs, if_pos rfl]) htag he.proper.1 he.proper.2

end Entered

theorem entered_put (hsha : ∀ b, isSHA256Hex (host.sha256Hex b) = true) (s : Store Extra)
    {name tag : Text} {disk : Bytes} (renamed : Bool) (copied : Nat)
    (hvalid : validate (storedManifest host name tag m disk) = .ok ()) :
    ∃ d, Entered s (run (exec host) s (put host s name tag m disk renamed copied))
      (host.sha256Hex disk) (refText name tag) (storedManifest host name tag m disk) d := by
  obtain ⟨f, v, hf, hdir, hrefs⟩ := run_put host s disk renamed copied name tag m
  have hproper : Proper (host.sha256Hex disk) (storedManifest host name tag m disk) :=
    ⟨hvalid, rfl⟩
  refine ⟨_, hsha disk, hproper, rfl, run_exec_tagFile host s _, hdir, rfl, rfl, fun g hg => ?_,
    ⟨_, rfl, hproper⟩, fun r => ?_⟩
  · rcases hf with hf | ⟨hnone, -⟩
    · exact hf.symm.trans hg
    · cases hnone.symm.trans hg
  · rw [hrefs]
    split
    · next heq => exact heq ▸ AList.lookup_insert s.refs
    · next hne => exact AList.lookup_insert_ne hne

theorem Consistent.entered_writeTag (host : Host) (h : Consistent named s)
    {sha ref : Text} (hpoints : s.refs.Points sha) (hproper : Proper sha m) (href : m.ref = ref)
    (hfile : s'.tagFile = s.tagFile)
    (hdir : ∀ other,
      s'.dir other = (exec host (exec host s (.mkdir sha)) (.writeTag sha ref m)).dir other)
    (hrefs : ∀ r, s'.refs.lookup r = if r = ref then some sha else s.refs.lookup r) :
    ∃ d, Entered s s' sha ref m d := by
  obtain ⟨d, hd, hdisk, hmanifest⟩ := h.dir_of_points hpoints
  have hdirD : s.dirD sha = d := by rw [Store.dirD, hd, Option.getD_some]
  obtain ⟨m₀, hm₀⟩ := Option.isSome_iff_exists.mp hmanifest
  refine ⟨{ d with tags := d.tags.insert (s.tagFile ref) m }, (h.dirs sha d hd).hex, hproper, href,
    hfile, fun other => ?_, by rw [hdirD], hdisk, fun f hf => ?_,
    ⟨m₀, hm₀, (h.dirs sha d hd).manifest m₀ hm₀⟩, hrefs⟩
  · rw [hdir, dir_writeTag, dir_mkdir, dir_mkdir, if_pos rfl, hdirD, exec_tagFile]
    split <;> rfl
  · rw [Store.disk, hd] at hf
    exact hf

theorem Consistent.entered_tag (host : Host) (h : Consistent named s) {ref name newTag : Text}
    (hname : name ≠ []) (htag : newTag ≠ []) {source : Option Text}
    (hres : resolveRefName s ref = .ok (sha, source))
    (hread : readRefManifest s sha source = .ok m) :
    ∃ d, Entered s (step host s (.tag ref name newTag)) sha (refText name newTag)
      { m with name := name, tag := newTag } d := by
  have hproper := h.proper_of_readRefManifest hres hread
  have hstep : step host s (.tag ref name newTag) = run (exec host) s
      [.mkdir sha, .writeTag sha (refText name newTag) { m with name := name, tag := newTag },
        .writeRefs (s.refs.insert (refText name newTag) sha)] := by
    simp only [step, plan, tag, hres, hread]
  rw [hstep]
  refine h.entered_writeTag host (resolveRefName_eq_ok hres).1
    ⟨validate_rename hproper.1 hname htag m.recipe, hproper.2⟩ rfl (run_exec_tagFile host s _)
    (fun other => rfl) fun r => ?_
  split
  · next heq => exact heq ▸ AList.lookup_insert s.refs
  · next hne => exact AList.lookup_insert_ne hne

theorem Consistent.entered_setRecipe (host : Host) (h : Consistent named s) {ref name : Text}
    (digest : Text) (hres : resolveRefName s ref = .ok (sha, some name)) :
    ∃ m d, Image.resolve s name = .ok (m, sha) ∧
      Entered s (step host s (.setRecipe ref digest)) sha name { m with recipe := digest } d := by
  obtain ⟨hpoints, hlookup⟩ := resolveRefName_eq_ok hres
  obtain ⟨m, hstored, hproper, hmref, hresolve⟩ := h.resolve (hlookup name rfl)
  have hread : readRefManifest s sha (some name) = .ok m := by
    simp only [readRefManifest, hstored, parse, hproper.1]
  have hstep : step host s (.setRecipe ref digest) = run (exec host) s
      [.mkdir sha, .writeTag sha name { m with recipe := digest }] := by
    simp only [step, plan, setRecipe, hres, hread]
  have hnames := name_ne_nil_of_validate hproper.1
  have hrefs : (run (exec host) s
      [.mkdir sha, .writeTag sha name { m with recipe := digest }]).refs = s.refs := by
    simp only [run_cons, run_nil, writeTag_refs, mkdir_refs]
  rw [hstep]
  obtain ⟨d, he⟩ := h.entered_writeTag host hpoints
    ⟨validate_rename hproper.1 hnames.1 hnames.2 digest, hproper.2⟩ hmref
    (run_exec_tagFile host s [.mkdir sha, .writeTag sha name { m with recipe := digest }])
    (fun other => rfl) fun r => by
      rw [hrefs]
      split
      · next heq => rw [heq, hlookup name rfl]
      · rfl
  exact ⟨m, d, hresolve, he⟩

/-! ## Remove -/

theorem run_removeTags (host : Host) (s : Store Extra) (sha : Text) (gone : List Text) :
    (run (exec host) s (gone.map (.removeTag sha))).refs = s.refs ∧
      ∀ other, (run (exec host) s (gone.map (.removeTag sha))).dir other =
        if other = sha then
          (s.dir sha).map fun d => { d with tags := eraseAll d.tags (gone.map s.tagFile) }
        else s.dir other := by
  induction gone generalizing s with
  | nil =>
    refine ⟨rfl, fun other => ?_⟩
    rcases eq_or_ne other sha with rfl | hne
    · rw [if_pos rfl]
      exact Option.map_id'.symm
    · rw [if_neg hne]
      rfl
  | cons ref gone ih =>
    obtain ⟨hrefs, hdir⟩ := ih (exec host s (.removeTag sha ref))
    rw [removeTag_refs] at hrefs
    rw [exec_tagFile] at hdir
    refine ⟨hrefs, fun other => ?_⟩
    rw [map_cons, run_cons, hdir, dir_removeTag, dir_removeTag, if_pos rfl, Option.map_map]
    split <;> rfl

/-- The references `gone` leave the index and the directory of their disk,
which goes with the last of them. -/
structure Removed (s s' : Store Extra) (sha : Text) (gone : List Text) : Prop where
  tagFile : s'.tagFile = s.tagFile
  refs : s'.refs = eraseAll s.refs gone
  dir : ∀ other, s'.dir other =
    if other = sha then
      if s'.refs.Points sha then
        (s.dir sha).map fun d => { d with tags := eraseAll d.tags (gone.map s.tagFile) }
      else none
    else s.dir other

theorem removed_of_resolve (host : Host) {ref : Text}
    (hres : resolveRefName s ref = .ok (sha, name)) :
    Removed s (step host s (.remove ref)) sha (removedRefs s sha name) := by
  simp only [step, plan, remove, hres]
  obtain ⟨-, hdir⟩ := run_removeTags host s sha (removedRefs s sha name)
  set s₁ := run (exec host) s ((removedRefs s sha name).map (.removeTag sha)) with hs₁
  have hfile : s₁.tagFile = s.tagFile := run_exec_tagFile host s _
  rw [run_append, run_cons, ← hs₁]
  set refs : Refs := eraseAll s.refs (removedRefs s sha name) with hrefs
  by_cases hpoints : refs.Points sha
  · rw [if_pos hpoints, run_nil]
    refine ⟨hfile, rfl, fun other => ?_⟩
    rw [dir_writeRefs, hdir]
    exact congrArg (ite _ · _) (if_pos hpoints).symm
  · rw [if_neg hpoints, run_cons, run_nil]
    refine ⟨hfile, rfl, fun other => ?_⟩
    rw [dir_removeAll, dir_writeRefs, hdir]
    split
    · exact (if_neg hpoints).symm
    · rfl

theorem mem_removedRefs {r : Text} : r ∈ removedRefs s sha name ↔
    name = some r ∨ name = none ∧ s.refs.lookup r = some sha := by
  cases name with
  | some n => simp [removedRefs, eq_comm]
  | none =>
    constructor
    · intro hr
      obtain ⟨⟨r', sha'⟩, hmem, rfl⟩ := mem_map.mp hr
      obtain ⟨hentry, hsha⟩ := mem_filter.mp hmem
      cases of_decide_eq_true hsha
      exact .inr ⟨rfl, AList.mem_lookup_iff.mpr hentry⟩
    · rintro (h | ⟨-, hr⟩)
      · cases h
      · exact mem_map.mpr ⟨⟨r, sha⟩, mem_filter.mpr ⟨AList.mem_lookup_iff.mp hr, by simp⟩, rfl⟩

theorem lookup_of_mem_removedRefs {ref sha n : Text} (h : resolveRefName s ref = .ok (sha, name))
    (hn : n ∈ removedRefs s sha name) :
    s.refs.lookup n = some sha := by
  rcases mem_removedRefs.mp hn with rfl | ⟨-, hlookup⟩
  · exact (resolveRefName_eq_ok h).2 n rfl
  · exact hlookup

namespace Removed

variable {sha : Text} {gone : List Text}

theorem lookup (hr : Removed s s' sha gone) (ref : Text) :
    s'.refs.lookup ref = if ref ∈ gone then none else s.refs.lookup ref := by
  rw [hr.refs]
  refine (lookup_eraseAll s.refs gone ref).trans ?_
  congr

theorem dir_of_lookup (hr : Removed s s' sha gone) {ref sha' : Text} {d : ImgDir Extra}
    (href : s'.refs.lookup ref = some sha') (hd : s.dir sha' = some d) :
    s'.dir sha' = some (if sha' = sha then
      { d with tags := eraseAll d.tags (gone.map s.tagFile) } else d) := by
  rw [hr.dir]
  rcases eq_or_ne sha' sha with rfl | hne
  · rw [if_pos rfl, if_pos rfl, if_pos (Refs.points_iff.mpr ⟨ref, href⟩), hd, Option.map_some]
  · rw [if_neg hne, if_neg hne, hd]

theorem tagFile_notMem (h : Consistent named s) (hgone : ∀ r ∈ gone, r ∈ named) {ref : Text}
    (href : ref ∈ named) (hkept : ref ∉ gone) : s.tagFile ref ∉ gone.map s.tagFile := by
  intro hmem
  obtain ⟨r, hr, heq⟩ := mem_map.mp hmem
  exact hkept (h.apart (hgone r hr) href heq ▸ hr)

theorem consistent (h : Consistent named s) (hr : Removed s s' sha gone)
    (hgone : ∀ r ∈ gone, r ∈ named) : Consistent named s' := by
  refine ⟨hr.tagFile ▸ h.apart, ?_, ?_⟩
  · intro other d hd
    rw [hr.tagFile]
    rw [hr.dir] at hd
    split at hd
    · next heq =>
      subst heq
      split at hd
      · obtain ⟨d₀, hd₀, rfl⟩ := Option.map_eq_some_iff.mp hd
        have hok := h.dirs other d₀ hd₀
        refine ⟨hok.hex, hok.manifest, fun file m hm => hok.tags file m ?_⟩
        rw [lookup_eraseAll] at hm
        split at hm
        · cases hm
        · exact hm
      · cases hd
    · exact h.dirs other d hd
  · intro ref sha' href
    rw [hr.tagFile]
    have hstays := href
    rw [hr.lookup] at hstays
    split at hstays
    · cases hstays
    · next hkept =>
      obtain ⟨hnamed, d, hd, hdisk, hmanifest, htag⟩ := h.refs ref sha' hstays
      refine ⟨hnamed, _, hr.dir_of_lookup href hd, ?_⟩
      split
      · refine ⟨hdisk, hmanifest, ?_⟩
        rw [lookup_eraseAll, if_neg (tagFile_notMem h hgone hnamed hkept)]
        exact htag
      · exact ⟨hdisk, hmanifest, htag⟩

theorem sameFor (h : Consistent named s) (hr : Removed s s' sha gone)
    (hgone : ∀ r ∈ gone, r ∈ named) {ref : Text} (hkept : ref ∉ gone) :
    SameFor ref s s' := by
  have hlookup : s'.refs.lookup ref = s.refs.lookup ref := by rw [hr.lookup, if_neg hkept]
  refine ⟨hlookup, fun sha' href => ?_⟩
  obtain ⟨hnamed, d, hd, -⟩ := h.refs ref sha' href
  rw [Store.tagManifest, Store.tagManifest, Store.disk, Store.disk,
    hr.dir_of_lookup (hlookup.trans href) hd, hd, hr.tagFile]
  split
  · refine ⟨?_, rfl⟩
    change (eraseAll d.tags (gone.map s.tagFile)).lookup (s.tagFile ref) =
      d.tags.lookup (s.tagFile ref)
    rw [lookup_eraseAll, if_neg (tagFile_notMem h hgone hnamed hkept)]
  · exact ⟨rfl, rfl⟩

end Removed

/-- A directory that was there and is gone. -/
def Deleted (s s' : Store Extra) (sha : Text) : Prop := (s.dir sha).isSome ∧ s'.dir sha = none

theorem Removed.deleted_iff (h : Consistent named s) (hres : resolveRefName s ref = .ok (sha, name))
    (hr : Removed s s' sha (removedRefs s sha name)) (other : Text) :
    Deleted s s' other ↔ s.refs.Points other ∧ ¬s'.refs.Points other := by
  constructor
  · rintro ⟨hsome, hnone⟩
    rw [hr.dir] at hnone
    split at hnone
    · next heq =>
      subst heq
      split at hnone
      · rw [Option.map_eq_none_iff] at hnone
        rw [hnone] at hsome
        cases hsome
      · next hpoints => exact ⟨(resolveRefName_eq_ok hres).1, hpoints⟩
    · rw [hnone] at hsome
      cases hsome
  · rintro ⟨hpoints, hgone⟩
    obtain ⟨d, hd, -⟩ := h.dir_of_points hpoints
    obtain ⟨r, hr'⟩ := Refs.points_iff.mp hpoints
    have hmem : r ∈ removedRefs s sha name := by
      by_contra hkept
      exact hgone (Refs.points_iff.mpr ⟨r, by rw [hr.lookup, if_neg hkept, hr']⟩)
    have heq : other = sha :=
      Option.some.inj (hr'.symm.trans (lookup_of_mem_removedRefs hres hmem))
    subst heq
    refine ⟨by rw [hd]; rfl, ?_⟩
    rw [hr.dir, if_pos rfl, if_neg hgone]

theorem run_removeAlls (host : Host) (s : Store Extra) (shas : List Text) :
    (run (exec host) s (shas.map .removeAll)).refs = s.refs ∧
      ∀ other, (run (exec host) s (shas.map .removeAll)).dir other =
        if other ∈ shas then none else s.dir other := by
  induction shas generalizing s with
  | nil => exact ⟨rfl, fun other => rfl⟩
  | cons sha shas ih =>
    obtain ⟨hrefs, hdir⟩ := ih (exec host s (.removeAll sha))
    refine ⟨hrefs, fun other => ?_⟩
    rw [map_cons, run_cons, hdir, dir_removeAll]
    rcases eq_or_ne other sha with rfl | hne
    · simp
    · simp [hne]

theorem mem_unreferenced {inUse : Text → Bool} {sha : Text} :
    sha ∈ unreferenced s inUse ↔ (s.dir sha).isSome ∧ isSHA256Hex sha = true ∧
      ¬s.refs.Points sha ∧ inUse (digestText sha) = false := by
  unfold unreferenced
  rw [mem_filter, ← AList.mem_keys, s.mem_dirs_iff]
  simp [and_assoc]

theorem Consistent.prune (h : Consistent named s) (host : Host) (inUse : Text → Bool) :
    Consistent named (run (exec host) s ((unreferenced s inUse).map .removeAll)) ∧
      ∀ ref, SameFor ref s (run (exec host) s ((unreferenced s inUse).map .removeAll)) := by
  obtain ⟨hrefs, hdir⟩ := run_removeAlls host s (unreferenced s inUse)
  have hkept : ∀ ref sha, s.refs.lookup ref = some sha →
      (run (exec host) s ((unreferenced s inUse).map .removeAll)).dir sha = s.dir sha := by
    intro ref sha href
    rw [hdir, if_neg]
    intro hmem
    exact (mem_unreferenced.mp hmem).2.2.1 (Refs.points_iff.mpr ⟨ref, href⟩)
  have hfile := run_exec_tagFile host s ((unreferenced s inUse).map .removeAll)
  refine ⟨⟨hfile ▸ h.apart, fun sha d hd => ?_, fun ref sha href => ?_⟩, fun ref => ?_⟩
  · rw [hfile]
    rw [hdir] at hd
    split at hd
    · cases hd
    · exact h.dirs sha d hd
  · rw [hrefs] at href
    rw [hkept ref sha href, hfile]
    exact h.refs ref sha href
  · exact .of_dir hfile (by rw [hrefs]) (hkept ref)

theorem Consistent.deleted_prune_iff (h : Consistent named s) (host : Host) (inUse : Text → Bool)
    (sha : Text) :
    Deleted s (run (exec host) s ((unreferenced s inUse).map .removeAll)) sha ↔
      (s.dir sha).isSome ∧ ¬s.refs.Points sha ∧ inUse (digestText sha) = false := by
  obtain ⟨-, hdir⟩ := run_removeAlls host s (unreferenced s inUse)
  unfold Deleted
  rw [hdir]
  constructor
  · rintro ⟨hsome, hnone⟩
    split at hnone
    · next hmem =>
      obtain ⟨-, -, hpoints, huse⟩ := mem_unreferenced.mp hmem
      exact ⟨hsome, hpoints, huse⟩
    · rw [hnone] at hsome
      cases hsome
  · rintro ⟨hsome, hpoints, huse⟩
    obtain ⟨d, hd⟩ := Option.isSome_iff_exists.mp hsome
    refine ⟨hsome, if_pos (mem_unreferenced.mpr ⟨hsome, (h.dirs sha d hd).hex, hpoints, huse⟩)⟩

theorem Consistent.verifyDisk (h : Consistent named s) (host : Host) (sha digest : Text) :
    Consistent named (exec host s (.verifyDisk sha digest)) ∧
      ∀ ref, SameFor ref s (exec host s (.verifyDisk sha digest)) := by
  obtain ⟨record, hdir⟩ := dir_verifyDisk host s sha digest
  have hfile := exec_tagFile host s (.verifyDisk sha digest)
  refine ⟨⟨hfile ▸ h.apart, ?_, fun ref sha' href => ?_⟩,
    fun ref => ⟨by rw [verifyDisk_refs], fun sha' _ => ?_⟩⟩
  · rw [hfile]
    exact h.dirs.change hdir (fun _ _ hd => hd) fun d _ hd => { hd with }
  · rw [verifyDisk_refs] at href
    rw [hfile]
    obtain ⟨hnamed, d, hd, hholds⟩ := h.refs ref sha' href
    rcases eq_or_ne sha' sha with rfl | hne
    · exact ⟨hnamed, { d with verified := record d }, by rw [hdir, if_pos rfl, hd, Option.map_some],
        hholds⟩
    · exact ⟨hnamed, d, by rw [hdir, if_neg hne, hd], hholds⟩
  · rw [Store.tagManifest, Store.tagManifest, Store.disk, Store.disk, hdir, hfile]
    rcases eq_or_ne sha' sha with rfl | hne
    · rw [if_pos rfl]
      cases s.dir sha' with
      | none | some => exact ⟨rfl, rfl⟩
    · rw [if_neg hne]
      exact ⟨rfl, rfl⟩

/-! ## Histories -/

/-- What callers promise: a `Put` comes with a manifest that passes the checks
once the name, the tag and the digest are filled in, and the new name and tag
of a `Tag` are not empty. -/
def Call.Promised (host : Host) : Call Extra → Prop
  | .put name newTag m disk _ _ => validate (storedManifest host name newTag m disk) = .ok ()
  | .tag _ name newTag => name ≠ [] ∧ newTag ≠ []
  | _ => True

/-- The references that the call enters are allowed. -/
def Call.Gives (Named : Text → Prop) : Call Extra → Prop
  | .put name newTag _ _ _ _ => Named (refText name newTag)
  | .tag _ name newTag => Named (refText name newTag)
  | _ => True

/-- The references a call is about. -/
def targets (s : Store Extra) : Call Extra → List Text
  | .put name newTag _ _ _ _ => [refText name newTag]
  | .tag _ name newTag => [refText name newTag]
  | .setRecipe ref _ =>
    match resolveRefName s ref with
    | .ok (_, some name) => [name]
    | _ => []
  | .remove ref =>
    match resolveRefName s ref with
    | .ok (sha, name) => removedRefs s sha name
    | .error _ => []
  | .pruneUnreferenced _ => []
  | .get _ => []

/-- What a call does to the references it is about: `Put` makes its reference resolve to
the manifest and the disk it was given, `Tag` its new one to the manifest of the old one
under the new name, and `SetRecipe` changes the recipe; `Remove` takes away the
reference it was given or, given a digest, those of the disk. -/
def Effective (host : Host) (s s' : Store Extra) : Call Extra → Prop
  | .put name newTag m disk _ _ => resolve s' (refText name newTag) =
      .ok (storedManifest host name newTag m disk, host.sha256Hex disk)
  | .tag ref name newTag => ∀ m sha, resolve s ref = .ok (m, sha) →
      resolve s' (refText name newTag) = .ok ({ m with name := name, tag := newTag }, sha)
  | .setRecipe ref digest => ∀ sha name, resolveRefName s ref = .ok (sha, some name) →
      ∃ m, resolve s name = .ok (m, sha) ∧ resolve s' name = .ok ({ m with recipe := digest }, sha)
  | .remove ref => ∀ sha name, resolveRefName s ref = .ok (sha, name) →
      ∀ r, name = some r ∨ name = none ∧ s.refs.lookup r = some sha → s'.refs.lookup r = none
  | .pruneUnreferenced _ | .get _ => s'.refs = s.refs

structure Stepped (host : Host) (named : Set Text) (s s' : Store Extra) (c : Call Extra) :
    Prop where
  consistent : Consistent named s'
  others : ∀ ref ∉ targets s c, SameFor ref s s'
  effective : Effective host s s' c

theorem Entered.others {d : ImgDir Extra} (he : Entered s s' sha ref m d)
    (h : Consistent named s) (href : ref ∈ named) : ∀ r ∉ [ref], SameFor r s s' :=
  fun _ hr => he.sameFor h href fun heq => hr (heq ▸ mem_singleton_self _)

theorem Consistent.step (hsha : ∀ b, isSHA256Hex (host.sha256Hex b) = true)
    (h : Consistent named s) {c : Call Extra} (hc : c.Promised host)
    (hnamed : c.Gives (· ∈ named)) :
    Stepped host named s (step host s c) c := by
  cases c with
  | put name tag m disk renamed copied =>
    obtain ⟨d, he⟩ := entered_put hsha s renamed copied hc
    exact ⟨he.consistent h hnamed, he.others h hnamed, he.resolve⟩
  | tag ref name newTag =>
    cases hres : resolveRefName s ref with
    | error =>
      simp only [Image.step, plan, tag, hres]
      refine ⟨h, fun r _ => .refl r s, fun m sha hm => ?_⟩
      obtain ⟨_, hname, -⟩ := resolve_eq_ok hm
      cases hres.symm.trans hname
    | ok found =>
      obtain ⟨sha, source⟩ := found
      cases hread : readRefManifest s sha source with
      | error =>
        simp only [Image.step, plan, tag, hres, hread]
        refine ⟨h, fun r _ => .refl r s, fun m sha' hm => ?_⟩
        obtain ⟨_, hname, hm⟩ := resolve_eq_ok hm
        cases hres.symm.trans hname
        cases hread.symm.trans hm
      | ok m =>
        obtain ⟨d, he⟩ := h.entered_tag host hc.1 hc.2 hres hread
        refine ⟨he.consistent h hnamed, he.others h hnamed, fun m' sha' hm => ?_⟩
        obtain ⟨_, hname, hm⟩ := resolve_eq_ok hm
        cases hres.symm.trans hname
        cases hread.symm.trans hm
        exact he.resolve
  | setRecipe ref digest =>
    cases hres : resolveRefName s ref with
    | error =>
      simp only [Image.step, plan, setRecipe, hres]
      refine ⟨h, fun r _ => .refl r s, fun sha name hname => ?_⟩
      cases hres.symm.trans hname
    | ok found =>
      obtain ⟨sha, name⟩ := found
      cases name with
      | none =>
        simp only [Image.step, plan, setRecipe, hres]
        refine ⟨h, fun r _ => .refl r s, fun sha name hname => ?_⟩
        cases hres.symm.trans hname
      | some name =>
        obtain ⟨m, d, hm, he⟩ := h.entered_setRecipe host digest hres
        have hin := (h.refs name sha ((resolveRefName_eq_ok hres).2 name rfl)).1
        refine ⟨he.consistent h hin, ?_, fun sha' name' hname => ?_⟩
        · simp only [targets, hres]
          exact he.others h hin
        · cases hres.symm.trans hname
          exact ⟨m, hm, he.resolve⟩
  | remove ref =>
    cases hres : resolveRefName s ref with
    | error =>
      simp only [Image.step, plan, remove, hres]
      refine ⟨h, fun r _ => .refl r s, fun sha name hname => ?_⟩
      cases hres.symm.trans hname
    | ok found =>
      obtain ⟨sha, name⟩ := found
      have hremoved := removed_of_resolve host hres
      have hgone : ∀ r ∈ removedRefs s sha name, r ∈ named :=
        fun r hr => (h.refs r sha (lookup_of_mem_removedRefs hres hr)).1
      refine ⟨hremoved.consistent h hgone, ?_, fun sha' name' hname r hr => ?_⟩
      · simp only [targets, hres]
        exact fun r hr => hremoved.sameFor h hgone hr
      · cases hres.symm.trans hname
        rw [hremoved.lookup, if_pos (mem_removedRefs.mpr hr)]
  | pruneUnreferenced inUse =>
    obtain ⟨hcons, hsame⟩ := h.prune host inUse
    exact ⟨hcons, fun ref _ => hsame ref, (run_removeAlls host s _).1⟩
  | get ref =>
    simp only [Image.step, plan, verification]
    split
    · exact ⟨h, fun ref _ => .refl ref s, rfl⟩
    · next m sha hres =>
      split
      · exact ⟨h, fun ref _ => .refl ref s, rfl⟩
      · exact ⟨(h.verifyDisk host sha m.diskDigest).1,
          fun ref _ => (h.verifyDisk host sha m.diskDigest).2 ref, verifyDisk_refs host s sha _⟩

/-- The store after the calls, on a file system that has the manifests of tags in the
files `tagFile`. -/
def Store.after (host : Host) (tagFile : Text → Text) (calls : List (Call Extra)) : Store Extra :=
  run (step host) (.new tagFile) calls

theorem consistent_after (hsha : ∀ b, isSHA256Hex (host.sha256Hex b) = true)
    {tagFile : Text → Text} (hapart : Set.InjOn tagFile named) {calls : List (Call Extra)}
    (hcalls : ∀ c ∈ calls, c.Promised host ∧ c.Gives (· ∈ named)) :
    Consistent named (Store.after host tagFile calls) :=
  run_invariant_of_allSteps (P := fun _ c => c.Promised host ∧ c.Gives (· ∈ named))
    (fun _ _ h hc => (h.step hsha hc.1 hc.2).consistent) (consistent_new hapart)
    (allSteps_of_forall hcalls)

/-- After every history of calls on references whose files the file system tells apart:
each reference resolves to the manifest of its own name and tag, with the digest of the
disk it points to; a call does to the references it is about what it should, and leaves
what every other one resolves to, and its disk, as they were; `Remove` deletes a
directory exactly when its last reference goes; and `PruneUnreferenced` deletes exactly
the directories that no reference points to and that are not in use. -/
theorem references_kept (host : Host) (hsha : ∀ b, isSHA256Hex (host.sha256Hex b) = true)
    (tagFile : Text → Text) (named : Set Text) (hapart : Set.InjOn tagFile named)
    (calls : List (Call Extra)) (hcalls : ∀ c ∈ calls, c.Promised host ∧ c.Gives (· ∈ named)) :
    (∀ ref sha, (Store.after host tagFile calls).refs.lookup ref = some sha →
      ∃ m, resolve (Store.after host tagFile calls) ref = .ok (m, sha) ∧
        m.ref = ref ∧ m.diskDigest = digestText sha) ∧
    (∀ c : Call Extra, c.Promised host → c.Gives (· ∈ named) →
      Effective host (Store.after host tagFile calls)
        (step host (Store.after host tagFile calls) c) c ∧
      ∀ ref ∉ targets (Store.after host tagFile calls) c,
        (step host (Store.after host tagFile calls) c).refs.lookup ref =
          (Store.after host tagFile calls).refs.lookup ref ∧
        ∀ sha, (Store.after host tagFile calls).refs.lookup ref = some sha →
          resolve (step host (Store.after host tagFile calls) c) ref =
            resolve (Store.after host tagFile calls) ref ∧
          (step host (Store.after host tagFile calls) c).disk sha =
            (Store.after host tagFile calls).disk sha) ∧
    (∀ ref sha, Deleted (Store.after host tagFile calls)
        (step host (Store.after host tagFile calls) (.remove ref)) sha ↔
      (Store.after host tagFile calls).refs.Points sha ∧
        ¬(step host (Store.after host tagFile calls) (.remove ref)).refs.Points sha) ∧
    (∀ inUse sha, Deleted (Store.after host tagFile calls)
        (step host (Store.after host tagFile calls) (.pruneUnreferenced inUse)) sha ↔
      ((Store.after host tagFile calls).dir sha).isSome ∧
        ¬(Store.after host tagFile calls).refs.Points sha ∧
        inUse (digestText sha) = false) := by
  have h := consistent_after hsha hapart hcalls
  generalize Store.after host tagFile calls = s at h ⊢
  refine ⟨fun ref sha href => ?_, fun c hc hnamed => ?_, fun ref sha => ?_, fun inUse sha => ?_⟩
  · obtain ⟨m, -, hproper, hmref, hresolve⟩ := h.resolve href
    exact ⟨m, hresolve, hmref, hproper.2⟩
  · have hstep := h.step hsha hc hnamed
    refine ⟨hstep.effective, fun ref href => ?_⟩
    have hsame := hstep.others ref href
    exact ⟨hsame.1, fun sha hlookup => ⟨h.resolve_eq hlookup hsame, (hsame.2 sha hlookup).2⟩⟩
  · cases hres : resolveRefName s ref with
    | error =>
      simp only [step, plan, remove, hres]
      constructor
      · rintro ⟨hsome, hnone⟩
        rw [hnone] at hsome
        cases hsome
      · rintro ⟨hpoints, hgone⟩
        exact absurd hpoints hgone
    | ok found => exact (removed_of_resolve _ hres).deleted_iff h hres sha
  · exact h.deleted_prune_iff host inUse sha

def twoTags : List (Call Unit) :=
  [putSample, .tag "app".toList "web".toList "v1".toList,
    .setRecipe "web:v1".toList "sha256:abc".toList]

/-- With the first tag removed, the second resolves to what it did. -/
theorem references_kept_shared :
    (Store.after sampleHost id twoTags).refs.lookup "app:latest".toList =
        some (sampleSha256Hex [1, 2]) ∧
      (Store.after sampleHost id twoTags).refs.lookup "web:v1".toList =
        some (sampleSha256Hex [1, 2]) ∧
      (step sampleHost (Store.after sampleHost id twoTags) (.remove "app".toList)).refs.lookup
        "app:latest".toList = none ∧
      resolve (step sampleHost (Store.after sampleHost id twoTags) (.remove "app".toList))
          "web:v1".toList =
        resolve (Store.after sampleHost id twoTags) "web:v1".toList := by
  have hcalls : ∀ c ∈ twoTags, c.Promised sampleHost ∧ c.Gives (· ∈ Set.univ) := by
    have hput : putSample.Promised sampleHost := by
      change validate (storedManifest _ _ _ _ _) = .ok ()
      decide +kernel
    simp only [twoTags, forall_mem_cons, hput, true_and]
    exact ⟨trivial, ⟨⟨by decide, by decide⟩, trivial⟩, ⟨trivial, trivial⟩, nofun⟩
  have hweb : (Store.after sampleHost id twoTags).refs.lookup "web:v1".toList =
      some (sampleSha256Hex [1, 2]) := by decide +kernel
  obtain ⟨heffective, hothers⟩ := (references_kept sampleHost isSHA256Hex_sample id Set.univ
    (Function.injective_id.injOn) twoTags hcalls).2.1 (.remove "app".toList) trivial trivial
  have hother := hothers "web:v1".toList (by decide +kernel)
  exact ⟨by decide +kernel, hweb,
    heffective (sampleSha256Hex [1, 2]) (some "app:latest".toList) (by decide +kernel) _ (.inl rfl),
    (hother.2 _ hweb).1⟩

/-- The file of a tag where the file system ignores the case of names. -/
def foldedFile (ref : Text) : Text := ref.map Char.toLower

/-- A second tag of the disk, which differs from the first one in the case of a letter. -/
def recasedTag : List (Call Unit) :=
  [putSample, .tag "app".toList "app".toList "Latest".toList]

/-- The first tag now resolves to the manifest of the second. -/
theorem tag_overwritten :
    (Store.after sampleHost foldedFile recasedTag).refs.lookup "app:latest".toList =
        some (sampleSha256Hex [1, 2]) ∧
      (resolve (Store.after sampleHost foldedFile recasedTag) "app:latest".toList).toOption.map
        (fun found => found.1.ref) = some "app:Latest".toList := by
  decide +kernel

end Jerboa.Image
