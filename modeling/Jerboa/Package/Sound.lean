import Jerboa.Package.Unpack

/-!
# What verification finds

The digests a process knows and the index it saves tell the truth about the
identities they are about, whatever is done to the package between calls.  So what
`Verify` returns are files of the archive, with their bytes.  All files of the archive
are among them, unless the comparison was skipped and a file is gone since: the index
is asked about the files that are there, and not about those it records.
-/

namespace Jerboa.Package

open List Lib Lib.Run Net.Address Assoc

variable {ι δ : Type} {w : World ι δ}

def regularFile (e : TarEntry) : Option (List Text × List UInt8) :=
  match e.kind with
  | .reg bytes _ _ => some (tarEntryName e.name, bytes)
  | _ => none

theorem regularFile_eq_some {e : TarEntry} {x : List Text × List UInt8} :
    regularFile e = some x ↔ ∃ exec broken, e.kind = .reg x.2 exec broken ∧
      tarEntryName e.name = x.1 := by
  unfold regularFile
  cases e.kind with
  | dir | other => simp
  | reg bytes exec broken =>
    rw [Option.some.injEq]
    constructor
    · intro hx
      subst hx
      exact ⟨exec, broken, rfl, rfl⟩
    · rintro ⟨exec', broken', hkind, hname⟩
      obtain ⟨hbytes, -, -⟩ := TarKind.reg.inj hkind
      exact Prod.ext hname hbytes

/-- The regular files of an archive, by name. -/
def regularFiles (a : Tar) : List (List Text × List UInt8) := a.entries.filterMap regularFile

def Functional (files : List (List Text × List UInt8)) : Prop :=
  ∀ name b b', (name, b) ∈ files → (name, b') ∈ files → b = b'

/-- What is read at a path. -/
def bytesAt (w : World ι δ) (t : Tree Text (Stamp ι)) (f : List Text) : Option (List UInt8) :=
  (statID w t f).map w.bytes

/-- The files are the regular files of the archive, with their bytes. -/
structure Exact (w : World ι δ) (t : Tree Text (Stamp ι)) (files : List (List Text)) (a : Tar) :
    Prop where
  sound : ∀ f ∈ files, ∃ b, bytesAt w t f = some b ∧ (entryName f, b) ∈ regularFiles a
  complete : ∀ x ∈ regularFiles a, ∃ f ∈ files, entryName f = x.1 ∧ bytesAt w t f = some x.2

/-- An archive whose files can be told by their names. -/
structure Named (a : Tar) : Prop where
  functional : Functional (regularFiles a)
  nonempty : ∀ x ∈ regularFiles a, x.1 ≠ []

structure Verified (w : World ι δ) (t : Tree Text (Stamp ι)) (b : List UInt8)
    (files : List (List Text)) : Prop where
  named : Named (w.untar b)
  sound : ∀ f ∈ files, ∃ id, statID w t f = some id ∧
    (entryName f, w.bytes id) ∈ regularFiles (w.untar b)

def Complete (w : World ι δ) (b : List UInt8) (files : List (List Text)) : Prop :=
  ∀ x ∈ regularFiles (w.untar b), ∃ f ∈ files, entryName f = x.1

variable {b : List UInt8}

theorem Complete.perm {files files' : List (List Text)} (h : files.Perm files') :
    Complete w b files ↔ Complete w b files' := by
  unfold Complete
  simp only [h.mem_iff]

variable {files : List (List Text)}

theorem Verified.exact_iff {t : Tree Text (Stamp ι)} (h : Verified w t b files) :
    Exact w t files (w.untar b) ↔ Complete w b files := by
  constructor
  · intro hexact x hx
    obtain ⟨f, hf, hname, -⟩ := hexact.complete x hx
    exact ⟨f, hf, hname⟩
  · intro hcomplete
    refine ⟨fun f hf => ?_, fun x hx => ?_⟩
    · obtain ⟨id, hid, hmem⟩ := h.sound f hf
      exact ⟨w.bytes id, by rw [bytesAt, hid]; rfl, hmem⟩
    · obtain ⟨f, hf, hname⟩ := hcomplete x hx
      obtain ⟨id, hid, hmem⟩ := h.sound f hf
      rw [hname] at hmem
      refine ⟨f, hf, hname, ?_⟩
      rw [bytesAt, hid, h.named.functional x.1 x.2 (w.bytes id) hx hmem]
      rfl

def IsListed (path : List Text) : Prop := path.getLast? = some filesDir

structure Sound (w : World ι δ) (s : State ι δ) : Prop where
  cache : ∀ e ∈ s.cache, e.2 = w.sha (w.bytes e.1.2)
  records : ∀ e ∈ s.index.files, e.2.2 = w.sha (w.bytes e.2.1)
  verified : ∀ b, s.index.verifiedArchive = some (w.sha b) → Named (w.untar b) ∧
    ∀ e ∈ s.index.files, IsListed e.1 → (entryName e.1, w.bytes e.2.1) ∈ regularFiles (w.untar b)

theorem Sound.of_tree {s s' : State ι δ} (h : Sound w s) (hcache : s'.cache = s.cache)
    (hindex : s'.index = s.index) : Sound w s' :=
  ⟨hcache ▸ h.cache, hindex ▸ h.records, hindex ▸ h.verified⟩

/-! ### Digests -/

structure SameStore (s s' : State ι δ) : Prop where
  tree : s'.tree = s.tree
  index : s'.index = s.index

theorem SameStore.refl (s : State ι δ) : SameStore s s := ⟨rfl, rfl⟩

theorem SameStore.trans {s s' s'' : State ι δ} (h : SameStore s s') (h' : SameStore s' s'') :
    SameStore s s'' :=
  ⟨h'.tree.trans h.tree, h'.index.trans h.index⟩

variable {s : State ι δ}

section Digests

variable [DecidableEq ι]

theorem fileDigest_same (w : World ι δ) (s : State ι δ) (path : List Text) :
    SameStore s (fileDigest w s path).1 := by
  unfold fileDigest
  split
  · exact ⟨rfl, rfl⟩
  · split <;> exact ⟨rfl, rfl⟩

section

variable (h : Sound w s)
include h

theorem Sound.fileDigest (path : List Text) :
    Sound w (fileDigest w s path).1 := by
  unfold Package.fileDigest
  split
  · exact h
  · split
    · exact h
    · refine ⟨fun e he => ?_, h.records, h.verified⟩
      rcases mem_set he with rfl | he
      · rfl
      · exact h.cache e he

theorem Sound.fileDigest_eq (path : List Text) :
    (Package.fileDigest w s path).2 = (statID w s.tree path).map fun id => w.sha (w.bytes id) := by
  unfold Package.fileDigest
  split
  · next hid => rw [hid]; rfl
  · next id hid =>
    rw [hid]
    split
    · next sum hsum => exact congrArg some (h.cache _ (mem_of_find hsum))
    · rfl

theorem Sound.seedDigests :
    Sound w (seedDigests w s) ∧ SameStore s (seedDigests w s) := by
  have hfold : ∀ (recs : List (List Text × ι × δ)) (s' : State ι δ),
      (∀ e ∈ recs, e.2.2 = w.sha (w.bytes e.2.1)) → Sound w s' → SameStore s s' →
        Sound w (recs.foldl (seedDigest w) s') ∧ SameStore s (recs.foldl (seedDigest w) s') := by
    intro recs
    induction recs with
    | nil => exact fun s' _ hs' hsame => ⟨hs', hsame⟩
    | cons r recs ih =>
      intro s' hrecs hs' hsame
      rw [forall_mem_cons] at hrecs
      refine ih _ hrecs.2 ?_ ?_
      · unfold seedDigest
        split
        · refine ⟨fun e he => ?_, hs'.records, hs'.verified⟩
          rcases mem_set he with rfl | he
          · exact hrecs.1
          · exact hs'.cache e he
        · exact hs'
      · unfold seedDigest
        split
        · exact ⟨hsame.tree, hsame.index⟩
        · exact hsame
  exact hfold _ s h.records h (.refl s)

theorem Sound.digestAll (files : List (List Text)) :
    Sound w (digestAll w s files) ∧ SameStore s (digestAll w s files) := by
  induction files generalizing s with
  | nil => exact ⟨h, .refl s⟩
  | cons f files ih =>
    obtain ⟨hs, hsame⟩ := ih (h.fileDigest f)
    exact ⟨hs, (fileDigest_same w s f).trans hsame⟩

theorem Sound.mem_saveDigests {paths : List (List Text)} {e : List Text × ι × δ}
    (he : e ∈ paths.foldl (saveDigest w s) []) :
    e.1 ∈ paths ∧ statID w s.tree e.1 = some e.2.1 ∧ e.2.2 = w.sha (w.bytes e.2.1) := by
  have hfold : ∀ (rest : List (List Text)) (acc : List (List Text × ι × δ)),
      (∀ r ∈ rest, r ∈ paths) →
      (∀ e ∈ acc, e.1 ∈ paths ∧ statID w s.tree e.1 = some e.2.1 ∧ e.2.2 = w.sha (w.bytes e.2.1)) →
        ∀ e ∈ rest.foldl (saveDigest w s) acc,
          e.1 ∈ paths ∧ statID w s.tree e.1 = some e.2.1 ∧ e.2.2 = w.sha (w.bytes e.2.1) := by
    intro rest
    induction rest with
    | nil => exact fun acc _ hacc => hacc
    | cons path rest ih =>
      intro acc hrest hacc
      rw [forall_mem_cons] at hrest
      refine ih _ hrest.2 fun e he => ?_
      unfold saveDigest at he
      split at he
      · exact hacc e he
      · next id hid =>
        split at he
        · exact hacc e he
        · next sum hsum =>
          rcases mem_set he with rfl | he
          · exact ⟨hrest.1, hid, h.cache _ (mem_of_find hsum)⟩
          · exact hacc e he
  exact hfold paths [] (fun _ h => h) (by simp) e he

end

theorem Sound.saveDigests (hsha : Function.Injective w.sha) (h : Sound w s)
    (hfiles : Verified w s.tree b files) (ok : Bool) :
    Sound w (saveDigests w s (files ++ [archivePath]) (w.sha b) ok) := by
  unfold Package.saveDigests
  split
  · refine ⟨h.cache, fun e he => (h.mem_saveDigests he).2.2, fun b' hb' => ?_⟩
    cases hsha (Option.some.inj hb')
    refine ⟨hfiles.named, fun e he hlisted => ?_⟩
    obtain ⟨hmem, hid, -⟩ := h.mem_saveDigests he
    rcases mem_append.mp hmem with hmem | hmem
    · obtain ⟨id, hid', hreg⟩ := hfiles.sound _ hmem
      cases hid.symm.trans hid'
      exact hreg
    · rw [mem_singleton] at hmem
      rw [IsListed, hmem] at hlisted
      exact absurd hlisted (by decide)
  · exact h

end Digests

/-- The state that is compared with the archive, whose content is `b`. -/
structure Prepared (w : World ι δ) (s : State ι δ) (b : List UInt8) (s₁ : State ι δ)
    (files : List (List Text)) : Prop where
  archive : archiveBytes w s.tree = some b
  sound : Sound w s₁
  index : s₁.index = s.index
  extracted : isExtracted w s.tree = true → s₁.tree = s.tree
  root : s₁.tree.isDir w.root = true
  listed : extractedFileList w s₁.tree = some files
  unpacked : s₁.tree.node (filesDir :: w.root) = some .dir → archiveBytes w s₁.tree = some b ∧
    (isExtracted w s.tree = false → ∀ e ∈ (w.untar b).entries, ∀ bytes exec broken,
      e.kind = .reg bytes exec broken → tarEntryName e.name ≠ [] →
        s₁.tree.isFile ((tarEntryName e.name).reverse ++ filesDir :: w.root) = true)

theorem prepared_of_extract {s s₀ : State ι δ} (h : Sound w s₀) (hsame : SameStore s s₀)
    (harchive : archiveBytes w s.tree = some b) (hok : (extract w s₀).2 = true)
    {files : List (List Text)} (hlisted : extractedFileList w (extract w s₀).1.tree = some files) :
    Prepared w s b (extract w s₀).1 files := by
  have harchive₀ : archiveBytes w s₀.tree = some b := hsame.tree ▸ harchive
  obtain ⟨id, hid, -⟩ := Option.map_eq_some_iff.mp harchive₀
  obtain ⟨st, hst, -⟩ := Option.map_eq_some_iff.mp hid
  have hunpacked := extract_spec harchive₀ hok
  rw [hsame.tree] at hunpacked
  obtain ⟨hcache, hindex, hextracted⟩ := extract_kept (w := w) s₀
  rw [hsame.tree] at hextracted
  exact ⟨harchive, h.of_tree hcache hindex, hindex.trans hsame.index, hextracted,
    (extract_grows_any hok).isDir (isDir_root_of_stamp hst), hlisted, hunpacked⟩

theorem swapFirst_perm {α : Type} (l : List α) (i : Nat) : (swapFirst l i).Perm l := by
  unfold swapFirst
  split
  · next x l i =>
    split
    · next y hy =>
      obtain ⟨hi, rfl⟩ := List.getElem?_eq_some_iff.mp hy
      calc List.Perm (l[i] :: l.set i x) (l[i] :: x :: l.eraseIdx i) :=
            (List.set_perm_cons_eraseIdx hi x).cons _
        List.Perm _ (x :: l[i] :: l.eraseIdx i) := .swap _ _ _
        List.Perm _ (x :: l) := (getElem_cons_eraseIdx_perm hi).cons _
    · exact .refl _
  · exact .refl _

theorem programFirst_perm (p : Meta δ) (files : List (List Text)) :
    (programFirst p files).Perm files := by
  unfold programFirst
  split
  · exact .refl _
  · split
    · exact swapFirst_perm _ _
    · exact .refl _

/-! ### The comparison -/

section Expect

variable [DecidableEq δ]

theorem expectEntry_eq_ok {expected expected' : List (List Text × δ)} {e : TarEntry}
    (h : expectEntry w expected e = .ok expected') :
    (∀ name sum, find expected name = some sum → find expected' name = some sum) ∧
      (∀ x, regularFile e = some x → find expected' x.1 = some (w.sha x.2)) ∧
      ∀ name sum, find expected' name = some sum → find expected name = some sum ∨
        ∃ b, regularFile e = some (name, b) ∧ w.sha b = sum := by
  unfold expectEntry at h
  split at h
  · next bytes exec broken hkind =>
    have hfile : regularFile e = some (tarEntryName e.name, bytes) :=
      regularFile_eq_some.mpr ⟨exec, broken, hkind, rfl⟩
    dsimp only at h
    split_ifs at h with hbroken hcollision
    cases h
    rw [hfile]
    refine ⟨fun name sum hold => ?_, fun x hx => ?_, fun name sum hnew => ?_⟩
    · rw [find_set]
      split
      · next heq =>
        subst heq
        by_contra hne
        exact hcollision ⟨sum, hold, fun heq => hne (congrArg some heq.symm)⟩
      · exact hold
    · cases hx
      rw [find_set, if_pos rfl]
    · rw [find_set] at hnew
      split at hnew
      · next heq =>
        subst heq
        cases hnew
        exact .inr ⟨bytes, rfl, rfl⟩
      · exact .inl hnew
  · next hkind =>
    cases h
    refine ⟨fun _ _ h => h, fun x hx => ?_, fun name sum h => .inl h⟩
    obtain ⟨exec, broken, hreg, -⟩ := regularFile_eq_some.mp hx
    exact absurd hreg (hkind _ _ _)

theorem expect_eq_ok {a : Tar} {expected : List (List Text × δ)} (h : expect w a = .ok expected) :
    (∀ x ∈ regularFiles a, find expected x.1 = some (w.sha x.2)) ∧
      ∀ name sum, find expected name = some sum → ∃ b, (name, b) ∈ regularFiles a ∧
        w.sha b = sum := by
  have hfold : ∀ (es : List TarEntry) (acc : List (List Text × δ)),
      es.foldlM (expectEntry w) acc = .ok expected →
        (∀ name sum, find acc name = some sum → find expected name = some sum) ∧
        (∀ x ∈ es.filterMap regularFile, find expected x.1 = some (w.sha x.2)) ∧
        ∀ name sum, find expected name = some sum → find acc name = some sum ∨
          ∃ b, (name, b) ∈ es.filterMap regularFile ∧ w.sha b = sum := by
    intro es
    induction es with
    | nil =>
      intro acc hok
      cases hok
      exact ⟨fun _ _ h => h, by simp, fun _ _ h => .inl h⟩
    | cons e es ih =>
      intro acc hok
      rw [foldlM_cons, bind_eq_ok] at hok
      obtain ⟨acc', he, hrest⟩ := hok
      obtain ⟨hkeep, hnew, hback⟩ := expectEntry_eq_ok he
      obtain ⟨hkeep', hnew', hback'⟩ := ih acc' hrest
      refine ⟨fun name sum h => hkeep' _ _ (hkeep _ _ h), fun x hx => ?_, fun name sum h => ?_⟩
      · rw [mem_filterMap] at hx
        obtain ⟨e', he', hx⟩ := hx
        rcases mem_cons.mp he' with rfl | he'
        · exact hkeep' _ _ (hnew x hx)
        · exact hnew' x (mem_filterMap.mpr ⟨e', he', hx⟩)
      · rcases hback' name sum h with h | ⟨b, hb, hsum⟩
        · rcases hback name sum h with h | ⟨b, hb, hsum⟩
          · exact .inl h
          · exact .inr ⟨b, mem_filterMap.mpr ⟨e, mem_cons_self, hb⟩, hsum⟩
        · rw [mem_filterMap] at hb
          obtain ⟨e', he', hb⟩ := hb
          exact .inr ⟨b, mem_filterMap.mpr ⟨e', mem_cons_of_mem e he', hb⟩, hsum⟩
  unfold expect at h
  split at h
  · cases h
  · split at h
    · cases h
    · next expected' hok =>
      split at h
      · cases h
        obtain ⟨-, hnew, hback⟩ := hfold a.entries [] hok
        refine ⟨hnew, fun name sum h => ?_⟩
        rcases hback name sum h with h | h
        · cases h
        · exact h
      · cases h

theorem filesDir_notMem {host : Host δ} {platform : Text}
    (h : validateFiles host (files.map hostFile) platform = .ok ()) : [filesDir] ∉ files := by
  intro hmem
  have hname := ((validateFiles_eq_ok host h).1 (hostFile [filesDir]) (mem_map_of_mem hmem)).2
  exact hname (by decide)

end Expect

variable [DecidableEq ι] [DecidableEq δ]

theorem compareFiles_same (s : State ι δ) (expected : List (List Text × δ))
    (files : List (List Text)) (h : Sound w s) :
    Sound w (compareFiles w s expected files).1 ∧ SameStore s
      (compareFiles w s expected files).1 := by
  induction files generalizing s expected with
  | nil => exact ⟨h, .refl s⟩
  | cons f files ih =>
    have hs := h.fileDigest f
    have hsame := fileDigest_same w s f
    unfold compareFiles
    split
    · next s' heq =>
      rw [heq] at hs hsame
      exact ⟨hs, hsame⟩
    · next s' got heq =>
      rw [heq] at hs hsame
      split
      · obtain ⟨hrest, hsame'⟩ := ih s' (expected.filter fun e => e.1 ≠ entryName f) hs
        exact ⟨hrest, hsame.trans hsame'⟩
      · exact ⟨hs, hsame⟩

theorem compareFiles_eq_ok (h : Sound w s) {expected : List (List Text × δ)}
    (hok : (compareFiles w s expected files).2 = .ok ()) :
    (∀ f ∈ files, ∃ id, statID w s.tree f = some id ∧
      find expected (entryName f) = some (w.sha (w.bytes id))) ∧
      ∀ name, find expected name ≠ none → ∃ f ∈ files, entryName f = name := by
  induction files generalizing s expected with
  | nil =>
    refine ⟨by simp, fun name hname => ?_⟩
    unfold compareFiles at hok
    split at hok
    · next hnil =>
      subst hnil
      exact absurd rfl hname
    · cases hok
  | cons f files ih =>
    have hs := h.fileDigest f
    have hsame := fileDigest_same w s f
    have hdigest := h.fileDigest_eq f
    unfold compareFiles at hok
    split at hok
    · cases hok
    · next s' got heq =>
      rw [heq] at hs hsame hdigest
      split at hok
      · next hgot =>
        obtain ⟨hfiles, hall⟩ := ih hs hok
        refine ⟨forall_mem_cons.mpr ⟨?_, fun f' hf' => ?_⟩, fun name hname => ?_⟩
        · obtain ⟨id, hid, hsum⟩ := Option.map_eq_some_iff.mp hdigest.symm
          exact ⟨id, hid, by rw [hsum]; exact hgot⟩
        · obtain ⟨id, hid, hfound⟩ := hfiles f' hf'
          rw [find_filter expected fun name => name ≠ entryName f] at hfound
          split at hfound
          · exact ⟨id, by rw [← hsame.tree]; exact hid, hfound⟩
          · cases hfound
        · by_cases hf : name = entryName f
          · exact ⟨f, mem_cons_self, hf.symm⟩
          · have hrest : find (expected.filter fun e => e.1 ≠ entryName f) name ≠ none := by
              rw [find_filter expected fun name => name ≠ entryName f, if_pos (by simpa using hf)]
              exact hname
            obtain ⟨f', hf', hname'⟩ := hall name hrest
            exact ⟨f', mem_cons_of_mem f hf', hname'⟩
      · cases hok

theorem Sound.verified_of_archiveVerified (h : Sound w s) (hlisted : ∀ f ∈ files, IsListed f)
    (hindex : archiveVerified w s (w.sha b) files = true) : Verified w s.tree b files := by
  unfold archiveVerified at hindex
  simp only [Bool.and_eq_true, decide_eq_true_eq, all_eq_true] at hindex
  obtain ⟨⟨hverified, -⟩, hall⟩ := hindex
  obtain ⟨hnamed, hrecords⟩ := h.verified b hverified
  refine ⟨hnamed, fun f hf => ?_⟩
  have hf' := hall f hf
  split at hf'
  · cases hf'
  · next rec hrec =>
    exact ⟨rec.1, decide_eq_true_eq.mp hf', hrecords _ (mem_of_find hrec) (hlisted f hf)⟩

theorem Sound.verified_of_compare (hsha : Function.Injective w.sha) (h : Sound w s)
    (harchive : archiveBytes w s.tree = some b) (hnames : ∀ f ∈ files, entryName f ≠ [])
    (hok : (verifyExtractedArchive w s files).2 = .ok ()) :
    Verified w s.tree b files ∧ Complete w b files := by
  unfold verifyExtractedArchive at hok
  rw [archiveOf, harchive] at hok
  split at hok
  · cases hok
  · next expected hexpect =>
    obtain ⟨hnew, hback⟩ := expect_eq_ok hexpect
    obtain ⟨hfiles, hall⟩ := compareFiles_eq_ok h hok
    have hcomplete : Complete w b files := by
      intro x hx
      exact hall x.1 (by rw [hnew x hx]; simp)
    refine ⟨⟨⟨fun name c c' hc hc' => ?_, fun x hx => ?_⟩, fun f hf => ?_⟩, hcomplete⟩
    · have heq : some (w.sha c) = some (w.sha c') :=
        (hnew (name, c) hc).symm.trans (hnew (name, c') hc')
      exact hsha (Option.some.inj heq)
    · obtain ⟨f, hf, hname⟩ := hcomplete x hx
      rw [← hname]
      exact hnames f hf
    · obtain ⟨id, hid, hfound⟩ := hfiles f hf
      obtain ⟨c, hc, hsum⟩ := hback _ _ hfound
      rw [hsha hsum] at hc
      exact ⟨id, hid, hc⟩

/-! ## Verify -/

theorem accept_spec (hsha : Function.Injective w.sha) (p : Meta δ) (platform : Text) (saved : Bool)
    (h : Sound w s) (hfiles : [filesDir] ∉ files → Verified w s.tree b files) :
    Sound w (accept w p platform (w.sha b) saved s files).1 ∧
      ∀ found, (accept w p platform (w.sha b) saved s files).2 = .ok found →
        [filesDir] ∉ files ∧ found.Perm files ∧
          (accept w p platform (w.sha b) saved s files).1.tree = s.tree := by
  have hperm := programFirst_perm p files
  obtain ⟨hdigest, hsame⟩ := h.digestAll (programFirst p files)
  unfold accept
  dsimp only
  split
  · exact ⟨hdigest, nofun⟩
  · next hvalid =>
    have hdir : [filesDir] ∉ files := fun hmem => filesDir_notMem hvalid (hperm.mem_iff.mpr hmem)
    have hsaved : Sound w (saveDigests w (digestAll w s (programFirst p files))
        (programFirst p files ++ [archivePath]) (w.sha b) saved) := by
      refine hdigest.saveDigests hsha ?_ saved
      rw [hsame.tree]
      exact ⟨(hfiles hdir).named, fun f hf => (hfiles hdir).sound f (hperm.mem_iff.mp hf)⟩
    have htree : (saveDigests w (digestAll w s (programFirst p files))
        (programFirst p files ++ [archivePath]) (w.sha b) saved).tree = s.tree := by
      unfold saveDigests
      split
      · exact hsame.tree
      · exact hsame.tree
    split_ifs
    · exact ⟨hsaved, nofun⟩
    · exact ⟨hsaved, nofun⟩
    · refine ⟨hsaved, fun found hfound => ?_⟩
      cases hfound
      exact ⟨hdir, hperm, htree⟩

theorem check_same (h : Sound w s) (hash : δ) (files : List (List Text)) :
    Sound w (check w hash s files).1 ∧ SameStore s (check w hash s files).1 := by
  unfold check verifyExtractedArchive
  split
  · exact ⟨h, .refl s⟩
  · split
    · exact ⟨h, .refl s⟩
    · exact compareFiles_same s _ files h

/-- Files that pass are files of the archive, and all of them are there unless the
index was trusted with a directory that was there before. -/
theorem Prepared.verified (hsha : Function.Injective w.sha) {s s₁ : State ι δ}
    (h : Prepared w s b s₁ files) (hok : (check w (w.sha b) s₁ files).2 = .ok ())
    (hdir : [filesDir] ∉ files) :
    Verified w s₁.tree b files ∧
      ((isExtracted w s.tree = true → archiveVerified w s₁ (w.sha b) files = true →
        Complete w b files) → Complete w b files) := by
  rcases extractedFileList_eq h.root h.listed with rfl | ⟨hnode, hwalk⟩
  · exact absurd (mem_singleton.mpr rfl) hdir
  · obtain ⟨harchive, hunpacked⟩ := h.unpacked hnode
    have hlisted : ∀ f ∈ files, IsListed f ∧ entryName f ≠ [] := by
      intro f hf
      rw [hwalk] at hf
      obtain ⟨rel, hne, rfl⟩ := exists_of_mem_walkFiles hf
      rw [IsListed, entryName, getLast?_concat, dropLast_concat]
      exact ⟨rfl, by simpa using hne⟩
    unfold check at hok
    split at hok
    · next hindex =>
      have hverified := h.sound.verified_of_archiveVerified (fun f hf => (hlisted f hf).1) hindex
      refine ⟨hverified, fun hcomplete => ?_⟩
      cases hextracted : isExtracted w s.tree with
      | true => exact hcomplete hextracted hindex
      | false =>
        -- all that the archive names was just written
        intro x hx
        obtain ⟨e, he, hreg⟩ := mem_filterMap.mp hx
        obtain ⟨exec, broken, hkind, hname⟩ := regularFile_eq_some.mp hreg
        have hnonempty := hverified.named.nonempty x hx
        rw [← hname] at hnonempty
        rw [hwalk, ← hname]
        exact mem_walkFiles_of_name hnonempty
          (hunpacked hextracted e he _ exec broken hkind hnonempty)
    · obtain ⟨hverified, hcomplete⟩ :=
        h.sound.verified_of_compare hsha harchive (fun f hf => (hlisted f hf).2) hok
      exact ⟨hverified, fun _ => hcomplete⟩

theorem verify_cases (h : Sound w s) (p : Meta δ) (platform : Text) (saved : Bool) :
    (Sound w (verify w p platform saved s).1 ∧ ∃ e, (verify w p platform saved s).2 = .error e) ∨
      ∃ b s₁ files, Prepared w s b s₁ files ∧ (p.sha256.isSome → p.sha256 = some (w.sha b)) ∧
        (check w (w.sha b) s₁ files).2 = .ok () ∧
        verify w p platform saved s =
          accept w p platform (w.sha b) saved (check w (w.sha b) s₁ files).1 files := by
  obtain ⟨hseed, hsameSeed⟩ := h.seedDigests
  have hdigest := hseed.fileDigest archivePath
  have hsame := hsameSeed.trans (fileDigest_same w (seedDigests w s) archivePath)
  have heq := hseed.fileDigest_eq archivePath
  unfold verify
  split
  · exact .inl ⟨h, _, rfl⟩
  · split
    · next s₀ hnone =>
      rw [hnone] at hdigest
      exact .inl ⟨hdigest, _, rfl⟩
    · next s₀ hash hsome =>
      rw [hsome] at hdigest hsame heq
      rw [hsameSeed.tree] at heq
      obtain ⟨id, hid, hhash⟩ := Option.map_eq_some_iff.mp heq.symm
      subst hhash
      have harchive : archiveBytes w s.tree = some (w.bytes id) := by rw [archiveBytes, hid]; rfl
      split
      · exact .inl ⟨hdigest, _, rfl⟩
      · next hsum =>
        have hextract := prepared_of_extract hdigest hsame harchive
        obtain ⟨hcache, hindex, -⟩ := extract_kept (w := w) s₀
        have hkept := hdigest.of_tree hcache hindex
        split
        · next s₁ hfailed =>
          rw [hfailed] at hkept
          exact .inl ⟨hkept, _, rfl⟩
        · next s₁ hextracted =>
          rw [hextracted] at hextract hkept
          split
          · exact .inl ⟨hkept, _, rfl⟩
          · next files hlisted =>
            have hprepared := hextract rfl hlisted
            have hcheck := check_same hprepared.sound (w.sha (w.bytes id)) files
            split
            · next s₂ e hbad =>
              rw [hbad] at hcheck
              exact .inl ⟨hcheck.1, _, rfl⟩
            · next s₂ hgood =>
              refine .inr ⟨w.bytes id, s₁, files, hprepared, fun hsome => ?_, ?_, ?_⟩
              · by_contra hne
                exact hsum ⟨hsome, hne⟩
              · rw [hgood]
              · rw [hgood]

section

variable (hsha : Function.Injective w.sha)
include hsha

theorem Prepared.accept_spec {s s₁ : State ι δ}
    (h : Prepared w s b s₁ files) (hok : (check w (w.sha b) s₁ files).2 = .ok ()) (p : Meta δ)
    (platform : Text) (saved : Bool) :
    Sound w (accept w p platform (w.sha b) saved (check w (w.sha b) s₁ files).1 files).1 ∧
      ∀ found, (accept w p platform (w.sha b) saved (check w (w.sha b) s₁ files).1 files).2 =
        .ok found → [filesDir] ∉ files ∧ found.Perm files ∧
          (accept w p platform (w.sha b) saved (check w (w.sha b) s₁ files).1 files).1.tree =
            s₁.tree := by
  obtain ⟨hsound, hsame⟩ := check_same h.sound (w.sha b) files
  have hfiles : [filesDir] ∉ files → Verified w (check w (w.sha b) s₁ files).1.tree b files := by
    rw [hsame.tree]
    exact fun hdir => (h.verified hsha hok hdir).1
  rw [← hsame.tree]
  exact Package.accept_spec hsha p platform saved hsound hfiles

theorem Sound.step (h : Sound w s) (op : Op ι δ) :
    Sound w (step w s op) := by
  cases op with
  | verify p platform saved =>
    rw [Package.step]
    rcases verify_cases h p platform saved with ⟨hsound, -⟩ | ⟨b, s₁, files, hprepared, -, hok, heq⟩
    · exact hsound
    · rw [heq]
      exact (hprepared.accept_spec hsha hok p platform saved).1
  | change => exact h.of_tree rfl rfl
  | restart => exact ⟨by simp [Package.step], h.records, h.verified⟩

theorem sound_run (tree : Tree Text (Stamp ι)) (ops : List (Op ι δ)) :
    Sound w (run (Package.step w) { tree := tree } ops) :=
  run_invariant (fun s op h => h.step hsha op) ⟨by simp, by simp, by simp⟩ ops

end

/-- The index is not trusted, or no file of the archive is gone from the directory. -/
def NoneGone (w : World ι δ) (s : State ι δ) (b : List UInt8) : Prop :=
  isExtracted w s.tree = true → ∀ listed, extractedFileList w s.tree = some listed →
    archiveVerified w s (w.sha b) listed = true → Complete w b listed

theorem Prepared.noneGone_iff (hsha : Function.Injective w.sha) {s s₁ : State ι δ}
    (h : Prepared w s b s₁ files) (hok : (check w (w.sha b) s₁ files).2 = .ok ())
    (hdir : [filesDir] ∉ files) :
    Complete w b files ↔ NoneGone w s b := by
  have hlisted : isExtracted w s.tree = true → extractedFileList w s.tree = some files := by
    intro hextracted
    rw [← h.extracted hextracted]
    exact h.listed
  have hindex : isExtracted w s.tree = true →
      archiveVerified w s₁ (w.sha b) files = archiveVerified w s (w.sha b) files := by
    intro hextracted
    rw [archiveVerified, archiveVerified, h.index, h.extracted hextracted]
  constructor
  · intro hcomplete hextracted listed hlist _
    cases (hlisted hextracted).symm.trans hlist
    exact hcomplete
  · intro hnone
    refine (h.verified hsha hok hdir).2 fun hextracted hverified => ?_
    exact hnone hextracted files (hlisted hextracted) (hindex hextracted ▸ hverified)

/-- Whatever is done to a package, the files that a successful call returns are files of
the archive that was recorded, with their bytes.  They are all of its files if and only
if none is gone that the index was trusted with. -/
theorem verify_exact_iff {ι δ : Type} [DecidableEq ι] [DecidableEq δ] (w : World ι δ)
    (hsha : Function.Injective w.sha) (tree : Tree Text (Stamp ι)) (ops : List (Op ι δ))
    (p : Meta δ) (hash : δ) (hp : p.sha256 = some hash) (platform : Text) (saved : Bool)
    (files : List (List Text))
    (hok : (verify w p platform saved (run (Package.step w) { tree := tree } ops)).2 = .ok files) :
    ∃ b, archiveBytes w (run (Package.step w) { tree := tree } ops).tree = some b ∧ w.sha b = hash ∧
      (∀ f ∈ files, ∃ c, bytesAt w
        (verify w p platform saved (run (Package.step w) { tree := tree } ops)).1.tree f = some c ∧
          (entryName f, c) ∈ regularFiles (w.untar b)) ∧
      (Exact w (verify w p platform saved (run (Package.step w) { tree := tree } ops)).1.tree files
        (w.untar b) ↔ NoneGone w (run (Package.step w) { tree := tree } ops) b) := by
  have hsound := sound_run hsha tree ops
  rcases verify_cases hsound p platform saved
    with ⟨-, e, he⟩ | ⟨b, s₁, listed, hprepared, hsum, hcheck, heq⟩
  · rw [he] at hok
    cases hok
  · rw [heq] at hok ⊢
    obtain ⟨hdir, hperm, htree⟩ := (hprepared.accept_spec hsha hcheck p platform saved).2 files hok
    obtain ⟨hverified, -⟩ := hprepared.verified hsha hcheck hdir
    have hfiles : Verified w s₁.tree b files :=
      ⟨hverified.named, fun f hf => hverified.sound f (hperm.mem_iff.mp hf)⟩
    refine ⟨b, hprepared.archive, ?_, fun f hf => ?_, ?_⟩
    · have hrecorded := hsum (by rw [hp]; rfl)
      exact Option.some.inj (hrecorded.symm.trans hp)
    · obtain ⟨id, hid, hmem⟩ := hfiles.sound f hf
      exact ⟨w.bytes id, by rw [htree, bytesAt, hid]; rfl, hmem⟩
    · rw [htree, hfiles.exact_iff, Complete.perm hperm]
      exact hprepared.noneGone_iff hsha hcheck hdir

def amd64 : Text := "linux/amd64".toList

/-- A program that says `hi`, and a library. -/
def pair : Tar where
  opens := true
  entries := [⟨"app".toList, .reg [104, 105] true false⟩, ⟨"lib".toList, .reg [97] false false⟩]
  eof := true

/-- The two as `tar` and `gzip` pack them. -/
def pairArchive : List UInt8 :=
  [31, 139, 8, 0, 0, 0, 0, 0, 0, 255, 75, 44, 40, 96, 160, 53, 48, 0, 2, 115, 83, 83, 48, 13, 4,
    232, 52, 16, 24, 33, 177, 65, 226, 102, 38, 38, 198, 12, 10, 6, 12, 116, 0, 165, 197, 37, 137,
    69, 64, 43, 25, 70, 38, 200, 200, 100, 24, 5, 35, 24, 228, 100, 38, 209, 37, 255, 3, 115, 52,
    158, 252, 111, 136, 145, 255, 141, 76, 71, 243, 63, 61, 64, 226, 104, 22, 24, 5, 163, 96, 20,
    140, 130, 17, 9, 0, 1, 209, 74, 237, 0, 12, 0, 0]

def archiveSum : Text :=
  "86ed5bacd62bfc9f941803f323fec5e114059fb6019c68a97f1b0752ed84206a".toList

def appSum : Text := "8f434346648f6b96df89dda901c5176b10a6d83961dd3c1ac88b59b2dc327aa4".toList

def libSum : Text := "ca978112ca1bbdcafac231b39a23dc4da786eff8147c4e72b9807785afee48bb".toList

/-- SHA-256 of what is hashed here; of anything else, the bytes themselves. -/
def sampleSum (b : List UInt8) : Text ⊕ List UInt8 :=
  if b = pairArchive then .inl archiveSum
  else if b = [104, 105] then .inl appSum
  else if b = [97] then .inl libSum
  else .inr b

theorem sampleSum_injective : Function.Injective sampleSum := by
  have happ : archiveSum ≠ appSum := by decide +kernel
  have hlib : archiveSum ≠ libSum := by decide +kernel
  have hboth : appSum ≠ libSum := by decide +kernel
  intro a b h
  unfold sampleSum at h
  split_ifs at h <;> simp_all

/-- A file is told by the number of the write and by what it holds. -/
def lab : World (Nat × List UInt8) (Text ⊕ List UInt8) where
  root := []
  hops := 8
  bytes := Prod.snd
  new n b := (n, b)
  bytes_new _ _ := rfl
  weak _ := false
  sha := sampleSum
  untar b := if b = pairArchive then pair else ⟨false, [], false⟩
  elfAccepted b _ := b.take 4 ≠ [0x7f, 0x45, 0x4c, 0x46]
  isELF b := b.take 4 = [0x7f, 0x45, 0x4c, 0x46]
  digestEntries entries :=
    if entries = [(["app".toList], true, .inl appSum), (["lib".toList], false, .inl libSum)] then
      .inl "sha256:0bf6edfcea8828c383789ab09e1348f663a658bbde65ace8c829e221ee92160f".toList
    else .inr []

def recorded : Meta (Text ⊕ List UInt8) :=
  { platform := amd64, sha256 := some (.inl archiveSum) }

/-- A package that was pulled. -/
def pulled : Tree Text (Stamp (Nat × List UInt8)) :=
  Tree.empty.put "files.tar.gz".toList [] (.file ⟨(0, pairArchive), false⟩)

def verifyOnce : List (Op (Nat × List UInt8) (Text ⊕ List UInt8)) := [.verify recorded amd64 true]

theorem verify_exact_iff_twice :
    Exact lab
      (verify lab recorded amd64 true (run (Package.step lab) { tree := pulled } verifyOnce)).1.tree
      [["app".toList, filesDir], ["lib".toList, filesDir]] pair := by
  obtain ⟨b, -, hb, -, hiff⟩ := verify_exact_iff lab sampleSum_injective pulled verifyOnce recorded
    (.inl archiveSum) rfl amd64 true [["app".toList, filesDir], ["lib".toList, filesDir]]
    (eq_ok_of_toOption (by decide +kernel))
  obtain rfl : b = pairArchive := sampleSum_injective (hb.trans (by decide +kernel))
  refine hiff.mpr fun _ listed hlisted _ => ?_
  have hall : extractedFileList lab (run (Package.step lab) { tree := pulled } verifyOnce).tree =
      some [["app".toList, filesDir], ["lib".toList, filesDir]] := by decide +kernel
  cases hall.symm.trans hlisted
  exact (by decide +kernel : ∀ x ∈ regularFiles pair,
    ∃ f ∈ [["app".toList, filesDir], ["lib".toList, filesDir]], entryName f = x.1)

/-- The library is deleted. -/
def withoutLib : Tree Text (Stamp (Nat × List UInt8)) :=
  (run (Package.step lab) { tree := pulled } verifyOnce).tree.removeAll ["lib".toList, filesDir]

/-- The next call does not miss the library. -/
theorem deleted_unnoticed :
    ∃ files, (verify lab recorded amd64 true
        (run (Package.step lab) { tree := pulled } (verifyOnce ++ [.change withoutLib]))).2 =
          .ok files ∧
      ¬ Exact lab (verify lab recorded amd64 true
          (run (Package.step lab) { tree := pulled } (verifyOnce ++ [.change withoutLib]))).1.tree
        files pair := by
  refine ⟨[["app".toList, filesDir]], eq_ok_of_toOption (by decide +kernel), fun hexact => ?_⟩
  obtain ⟨f, hf, hname, -⟩ := hexact.complete (["lib".toList], [97]) (by decide +kernel)
  rw [mem_singleton] at hf
  subst hf
  exact absurd hname (by decide)

end Jerboa.Package
