import Jerboa.Lib.Run
import Jerboa.Naming
import Mathlib.Data.List.Nodup

/-!
# The coordinates of ops packages

`OpsStore` keeps a package in a directory named after its coordinates and reads them back
from the name.  The stores of both architectures stand in one directory, that of `arm64`
below that of `amd64`.  The file system may take different names for one: `fold` is the form
in which it compares them (the text itself on Linux, the text in lower case on macOS and
Windows), and a directory keeps the name it was made with.  File system calls succeed; a
download may fail.  What the calls have stored, by what they returned, stands beside the
directories.
-/

namespace Jerboa.Ops.Packages

open List Lib.Delimited Lib.Run Naming Net.Address

/-- An `OpsPackage`. -/
structure Ref where
  ns : Text
  name : Text
  version : Text
deriving DecidableEq

def Ref.dirName (r : Ref) : Text := r.name ++ '_' :: r.version

inductive Arch where
  | amd64
  | arm64
deriving DecidableEq

/-- Where `NewOpsStoreArch` puts the store, below the directory it is given. -/
def Arch.root : Arch → List Text
  | .amd64 => []
  | .arm64 => ["arm64".toList]

/-- The parts of the path.  Validated ones have no separator. -/
def packageDir (root : List Text) (r : Ref) : List Text := root ++ [r.ns, r.dirName]

def validateOpsRef (r : Ref) : Except NameErr Unit := do
  validateResourceName r.ns
  validateResourceName r.name
  validateResourceName r.version

def isHexDigit (c : Char) : Bool := c.isDigit || ('a' ≤ c && c ≤ 'f') || ('A' ≤ c && c ≤ 'F')

def isSHA256Hex (s : Text) : Bool := s.length = 64 && s.all isHexDigit

/-- The directories, by their paths, and those with the archive of an architecture. -/
structure Store where
  dirs : List (List Text) := []
  archives : List (List Text × Arch) := []

inductive DownloadErr where
  | ref (err : NameErr)
  | checksumMissing
  | fetch
  | checksumMismatch

inductive Call where
  | download (arch : Arch) (r : Ref) (expectedSHA256 : Text) (fetched : Option Text)
  | remove (arch : Arch) (r : Ref)

def splitOpsDirName (dirName : Text) : Text × Text := (cutLast '_' dirName).getD (dirName, [])

section

variable (fold : Text → Text)

/-- The directory `name` in the one that has been reached, made if it is not there. -/
def mkdir (s : List (List Text) × List Text) (name : Text) : List (List Text) × List Text :=
  match s.1.find? fun d => d.map fold = (s.2 ++ [name]).map fold with
  | some d => (s.1, d)
  | none => ((s.2 ++ [name]) :: s.1, s.2 ++ [name])

/-- The directories after `os.MkdirAll`, and the path under which `path` is found. -/
def mkdirAll (dirs : List (List Text)) (path : List Text) : List (List Text) × List Text :=
  path.foldl (mkdir fold) (dirs, [])

/-- `fetched` is the digest of the body, if `Fetch` succeeds. -/
def Store.download (s : Store) (arch : Arch) (r : Ref) (expectedSHA256 : Text)
    (fetched : Option Text) : Except DownloadErr Unit × Store :=
  match validateOpsRef r with
  | .error err => (.error (.ref err), s)
  | .ok () =>
    let (dirs, dir) := mkdirAll fold s.dirs (packageDir arch.root r)
    let s := { s with dirs := dirs }
    if (dir, arch) ∈ s.archives then (.ok (), s)
    else if isSHA256Hex expectedSHA256 = false then (.error .checksumMissing, s)
    else
      match fetched with
      | none => (.error .fetch, s)
      | some got =>
        if got.map Char.toLower ≠ expectedSHA256.map Char.toLower then (.error .checksumMismatch, s)
        else (.ok (), { s with archives := (dir, arch) :: s.archives })

/-- The directory and what is below it go. -/
def Store.remove (s : Store) (arch : Arch) (r : Ref) : Except NameErr Unit × Store :=
  match validateOpsRef r with
  | .error err => (.error err, s)
  | .ok () =>
    let gone (d : List Text) : Bool := ((packageDir arch.root r).map fold).isPrefixOf (d.map fold)
    (.ok (), ⟨s.dirs.filter (!gone ·), s.archives.filter (!gone ·.1)⟩)

/-- The directories two levels below the root of the architecture. -/
def Store.list (s : Store) (arch : Arch) : List Ref :=
  let n := arch.root.length
  (s.dirs.filter fun d => d.length = n + 2 ∧ (d.take n).map fold = arch.root.map fold).map fun d =>
    ⟨d.getD n [], (splitOpsDirName (d.getD (n + 1) [])).1, (splitOpsDirName (d.getD (n + 1) [])).2⟩

/-- The store, and the packages that are stored: `Download` returned success, and no `Remove`
since. -/
structure Sys where
  store : Store := {}
  stored : List Ref := []

def Sys.step (s : Sys) : Call → Sys
  | .download arch r expectedSHA256 fetched =>
    let (result, store) := s.store.download fold arch r expectedSHA256 fetched
    ⟨store, if result.isOk then r :: s.stored else s.stored⟩
  | .remove arch r =>
    let (result, store) := s.store.remove fold arch r
    ⟨store, if result.isOk then s.stored.filter (· ≠ r) else s.stored⟩

/-- The package is already there, or the right archive comes. -/
def Succeeds (s : Store) (arch : Arch) (r : Ref) (expectedSHA256 : Text) (fetched : Option Text) :
    Prop :=
  (packageDir arch.root r, arch) ∈ s.archives ∨ isSHA256Hex expectedSHA256 = true ∧
    ∃ got ∈ fetched, got.map Char.toLower = expectedSHA256.map Char.toLower

/-- What the file system takes for a directory on the path is that directory. -/
def Spelled (dirs : List (List Text)) (path : List Text) : Prop :=
  ∀ d ∈ dirs, ∀ p ∈ path.inits, d.map fold = p.map fold → d = p
deriving Decidable

/-- The coordinates are refused; or the architecture is the one whose packages are listed, the
version has no underscore, the path is spelled as the directories are, and a download
succeeds. -/
def Plain (arch : Arch) (s : Sys) : Call → Prop
  | .download arch' r expectedSHA256 fetched =>
    validateOpsRef r = .ok () → arch' = arch ∧ '_' ∉ r.version ∧
      Spelled fold s.store.dirs (packageDir arch.root r) ∧
      Succeeds s.store arch r expectedSHA256 fetched
  | .remove arch' r =>
    validateOpsRef r = .ok () → arch' = arch ∧ '_' ∉ r.version ∧
      Spelled fold s.store.dirs (packageDir arch.root r)

/-- The directories of packages are those of the stored ones, which have the archive. -/
structure Inv (arch : Arch) (s : Sys) : Prop where
  dirs : ∀ d, d ∈ s.store.dirs ∧ d.length = arch.root.length + 2 ↔
    ∃ r ∈ s.stored, packageDir arch.root r = d
  short : ∀ d ∈ s.store.dirs, d.length ≤ arch.root.length + 2
  archives : ∀ d, (d, arch) ∈ s.store.archives ↔
    d ∈ s.store.dirs ∧ d.length = arch.root.length + 2
  plain : ∀ r ∈ s.stored, '_' ∉ r.version
  nodup : (s.store.dirs.map (map fold)).Nodup

end

variable {fold : Text → Text} {arch : Arch} {s : Sys} {r r' : Ref} {root path : List Text}

theorem length_packageDir (root : List Text) (r : Ref) :
    (packageDir root r).length = root.length + 2 := by
  simp [packageDir]

theorem eq_of_packageDir (h : '_' ∉ r.version) (h' : '_' ∉ r'.version)
    (heq : packageDir root r = packageDir root r') : r = r' := by
  rw [packageDir, packageDir, append_cancel_left_eq, List.cons.injEq, List.cons.injEq] at heq
  obtain ⟨hns, hdir, -⟩ := heq
  obtain ⟨hname, hversion⟩ := append_cons_inj_right h h' hdir
  cases r
  cases r'
  cases hns
  cases hname
  cases hversion
  rfl

theorem split_dirName (h : '_' ∉ r.version) : splitOpsDirName r.dirName = (r.name, r.version) := by
  rw [splitOpsDirName, Ref.dirName, cutLast_append h]
  rfl

/-- What `List` reads from the directory of a package is the package. -/
theorem read_packageDir (h : '_' ∉ r.version) :
    (⟨(packageDir root r).getD root.length [],
      (splitOpsDirName ((packageDir root r).getD (root.length + 1) [])).1,
      (splitOpsDirName ((packageDir root r).getD (root.length + 1) [])).2⟩ : Ref) = r := by
  have hns : (packageDir root r).getD root.length [] = r.ns := by simp [packageDir]
  have hdir : (packageDir root r).getD (root.length + 1) [] = r.dirName := by simp [packageDir]
  rw [hns, hdir, split_dirName h]

theorem Inv.mem_list (h : Inv fold arch s) : r ∈ s.store.list fold arch ↔ r ∈ s.stored := by
  simp only [Store.list, mem_map, mem_filter, decide_eq_true_eq]
  constructor
  · rintro ⟨d, ⟨hd, hlength, -⟩, rfl⟩
    obtain ⟨q, hq, rfl⟩ := (h.dirs d).mp ⟨hd, hlength⟩
    rw [read_packageDir (h.plain q hq)]
    exact hq
  · intro hr
    obtain ⟨hd, hlength⟩ := (h.dirs _).mpr ⟨r, hr, rfl⟩
    exact ⟨_, ⟨hd, hlength, by simp [packageDir]⟩, read_packageDir (h.plain r hr)⟩

theorem Inv.nodup_list (h : Inv fold arch s) : (s.store.list fold arch).Nodup := by
  refine (h.nodup.of_map.filter _).map_on fun d hd d' hd' heq => ?_
  simp only [mem_filter, decide_eq_true_eq] at hd hd'
  obtain ⟨q, hq, rfl⟩ := (h.dirs d).mp ⟨hd.1, hd.2.1⟩
  obtain ⟨q', hq', rfl⟩ := (h.dirs d').mp ⟨hd'.1, hd'.2.1⟩
  rw [read_packageDir (h.plain q hq), read_packageDir (h.plain q' hq')] at heq
  rw [heq]

theorem mkdir_spelled {dirs : List (List Text)} {parent : List Text} {name : Text}
    (h : ∀ d ∈ dirs, d.map fold = (parent ++ [name]).map fold → d = parent ++ [name]) :
    mkdir fold (dirs, parent) name = (dirs.insert (parent ++ [name]), parent ++ [name]) := by
  unfold mkdir
  split
  · next d hfind =>
    have hsame := find?_some hfind
    simp only [decide_eq_true_eq] at hsame
    have hd := mem_of_find?_eq_some hfind
    cases h d hd hsame
    rw [insert_of_mem hd]
  · next hfind =>
    rw [insert_of_not_mem fun hmem => find?_eq_none.mp hfind _ hmem (by simp)]

/-- The path is there in the end, and of what is made on the way nothing is as long. -/
theorem mkdirAll_spelled {dirs : List (List Text)} (h : Spelled fold dirs path)
    (hnodup : (dirs.map (map fold)).Nodup) :
    ∃ dirs', mkdirAll fold dirs path = (dirs', path) ∧ (dirs'.map (map fold)).Nodup ∧
      (∀ d ∈ dirs, d ∈ dirs') ∧ (path ≠ [] → path ∈ dirs') ∧
      ∀ d ∈ dirs', d ∈ dirs ∨ d.length < path.length ∨ d = path := by
  induction path using reverseRecOn with
  | nil => exact ⟨dirs, rfl, hnodup, fun _ hd => hd, fun hne => absurd rfl hne, fun _ => .inl⟩
  | append_singleton path name ih =>
    have hspelled : ∀ d ∈ dirs, ∀ p, p <+: path ++ [name] → d.map fold = p.map fold → d = p :=
      fun d hd p hp => h d hd p ((mem_inits _ _).mpr hp)
    obtain ⟨dirs₁, hdirs, hnodup₁, hold, -, hmade⟩ := ih fun d hd p hp =>
      hspelled d hd p (((mem_inits _ _).mp hp).trans (prefix_append _ _))
    have hnew : ∀ d ∈ dirs₁, d.map fold = (path ++ [name]).map fold → d = path ++ [name] := by
      intro d hd heq
      have hlength := congrArg length heq
      simp only [length_map, length_append, length_singleton] at hlength
      rcases hmade d hd with hd | hlt | rfl
      · exact hspelled d hd _ prefix_rfl heq
      · omega
      · omega
    refine ⟨dirs₁.insert (path ++ [name]), ?_, ?_, fun d hd => mem_insert_of_mem (hold d hd),
      fun _ => mem_insert_self, fun d hd => ?_⟩
    · rw [mkdirAll, foldl_append, ← mkdirAll, hdirs]
      exact mkdir_spelled hnew
    · by_cases hmem : path ++ [name] ∈ dirs₁
      · rwa [insert_of_mem hmem]
      · rw [insert_of_not_mem hmem, map_cons, nodup_cons]
        refine ⟨fun hsame => ?_, hnodup₁⟩
        obtain ⟨d, hd, heq⟩ := mem_map.mp hsame
        exact hmem (hnew d hd heq ▸ hd)
    · rcases mem_insert_iff.mp hd with rfl | hd
      · exact .inr (.inr rfl)
      · refine (hmade d hd).imp_right fun hor => .inl ?_
        rw [length_append, length_singleton]
        rcases hor with hlt | rfl <;> omega

theorem download_of_succeeds {store : Store} {sha : Text} {fetched : Option Text}
    {dirs : List (List Text)} (hr : validateOpsRef r = .ok ())
    (hdirs : mkdirAll fold store.dirs (packageDir arch.root r) = (dirs, packageDir arch.root r))
    (h : Succeeds store arch r sha fetched) :
    ∃ archives, store.download fold arch r sha fetched = (.ok (), ⟨dirs, archives⟩) ∧
      ∀ d, d ∈ archives ↔ d = (packageDir arch.root r, arch) ∨ d ∈ store.archives := by
  simp only [Store.download, hr, hdirs]
  by_cases hmem : (packageDir arch.root r, arch) ∈ store.archives
  · rw [if_pos hmem]
    exact ⟨store.archives, rfl, fun d => ⟨.inr, fun h => h.elim (fun heq => heq ▸ hmem) id⟩⟩
  · obtain ⟨hsha, got, hgot, heq⟩ := h.resolve_left hmem
    rw [if_neg hmem, if_neg (by simp [hsha]), Option.mem_def.mp hgot]
    simp only [heq, ne_eq, not_true_eq_false, if_false]
    exact ⟨_, rfl, fun d => mem_cons⟩

theorem Inv.download (h : Inv fold arch s) {sha : Text} {fetched : Option Text}
    (hr : validateOpsRef r = .ok ()) (hversion : '_' ∉ r.version)
    (hspelled : Spelled fold s.store.dirs (packageDir arch.root r))
    (hsucceeds : Succeeds s.store arch r sha fetched) :
    Inv fold arch (s.step fold (.download arch r sha fetched)) := by
  obtain ⟨dirs, hdirs, hnodup, hold, hself, hmade⟩ := mkdirAll_spelled hspelled h.nodup
  obtain ⟨archives, hdownload, harchives⟩ := download_of_succeeds hr hdirs hsucceeds
  have hlength := length_packageDir arch.root r
  -- of the directories made, only the last lies at the level of packages
  have hlevel : ∀ d, d ∈ dirs ∧ d.length = arch.root.length + 2 ↔
      d = packageDir arch.root r ∨ d ∈ s.store.dirs ∧ d.length = arch.root.length + 2 := by
    intro d
    constructor
    · rintro ⟨hd, hd'⟩
      rcases hmade d hd with hd | hlt | rfl
      · exact .inr ⟨hd, hd'⟩
      · omega
      · exact .inl rfl
    · rintro (rfl | ⟨hd, hd'⟩)
      · exact ⟨hself (by simp [packageDir]), hlength⟩
      · exact ⟨hold d hd, hd'⟩
  simp only [Sys.step, hdownload]
  refine ⟨fun d => ?_, fun d hd => ?_, fun d => ?_, forall_mem_cons.mpr ⟨hversion, h.plain⟩,
    hnodup⟩
  · rw [hlevel, h.dirs]
    simp [Except.isOk, Except.toBool, eq_comm]
  · rcases hmade d hd with hd | hlt | rfl
    · exact h.short d hd
    · omega
    · omega
  · rw [hlevel, harchives, h.archives, Prod.mk.injEq]
    simp

theorem Inv.remove (h : Inv fold arch s) (hr : validateOpsRef r = .ok ())
    (hversion : '_' ∉ r.version) (hspelled : Spelled fold s.store.dirs (packageDir arch.root r)) :
    Inv fold arch (s.step fold (.remove arch r)) := by
  -- nothing lies below the directory, and what is taken for it is it
  have hgone : ∀ d ∈ s.store.dirs,
      ((packageDir arch.root r).map fold).isPrefixOf (d.map fold) = true ↔
        d = packageDir arch.root r := by
    intro d hd
    refine isPrefixOf_iff_prefix.trans ?_
    refine ⟨fun hprefix => ?_, fun heq => heq ▸ prefix_rfl⟩
    have hshort := h.short d hd
    have heq := hprefix.eq_of_length_le (by simpa [length_packageDir] using hshort)
    exact hspelled d hd _ ((mem_inits _ _).mpr prefix_rfl) heq.symm
  simp only [Sys.step, Store.remove, hr, Except.isOk, Except.toBool, if_true]
  refine ⟨fun d => ?_, fun d hd => h.short d (mem_of_mem_filter hd), fun d => ?_,
    fun q hq => h.plain q (mem_of_mem_filter hq), h.nodup.sublist (filter_sublist.map _)⟩
  · simp only [mem_filter, Bool.not_eq_true', ← Bool.not_eq_true, decide_eq_true_eq]
    constructor
    · rintro ⟨⟨hd, hne⟩, hlength⟩
      obtain ⟨q, hq, rfl⟩ := (h.dirs d).mp ⟨hd, hlength⟩
      exact ⟨q, ⟨hq, fun heq => hne ((hgone _ hd).mpr (heq ▸ rfl))⟩, rfl⟩
    · rintro ⟨q, ⟨hq, hne⟩, rfl⟩
      obtain ⟨hd, hlength⟩ := (h.dirs _).mpr ⟨q, hq, rfl⟩
      exact ⟨⟨hd, fun hpre => hne (eq_of_packageDir (h.plain q hq) hversion
        ((hgone _ hd).mp hpre))⟩, hlength⟩
  · simp only [mem_filter, h.archives]
    tauto

theorem Inv.step (h : Inv fold arch s) {c : Call} (hc : Plain fold arch s c) :
    Inv fold arch (s.step fold c) := by
  cases c with
  | download arch' r =>
    cases hr : validateOpsRef r with
    | error =>
      simp only [Sys.step, Store.download, hr]
      exact h
    | ok =>
      obtain ⟨rfl, hversion, hspelled, hsucceeds⟩ := hc hr
      exact h.download hr hversion hspelled hsucceeds
  | remove arch' r =>
    cases hr : validateOpsRef r with
    | error =>
      simp only [Sys.step, Store.remove, hr]
      exact h
    | ok =>
      obtain ⟨rfl, hversion, hspelled⟩ := hc hr
      exact h.remove hr hversion hspelled

/-- Coordinates whose version has no underscore have their own path, and in every run of calls
with such coordinates for one architecture, in which no download fails and paths are spelled as
the directories are, no two stored packages share a directory and `List` returns what is
stored. -/
theorem packages_listed (fold : Text → Text) (arch : Arch) (calls : List Call)
    (hcalls : AllSteps (Sys.step fold) (Plain fold arch) {} calls) :
    (∀ root (r r' : Ref), '_' ∉ r.version → '_' ∉ r'.version →
        packageDir root r = packageDir root r' → r = r') ∧
      (∀ r ∈ (run (Sys.step fold) {} calls).stored, ∀ r' ∈ (run (Sys.step fold) {} calls).stored,
        (packageDir arch.root r).map fold = (packageDir arch.root r').map fold → r = r') ∧
      ((run (Sys.step fold) {} calls).store.list fold arch).Nodup ∧
      ∀ r, r ∈ (run (Sys.step fold) {} calls).store.list fold arch ↔
        r ∈ (run (Sys.step fold) {} calls).stored := by
  have hinit : Inv fold arch {} := ⟨fun d => by simp, nofun, fun d => by simp, nofun, nodup_nil⟩
  have hinv : Inv fold arch (run (Sys.step fold) {} calls) :=
    run_invariant_of_allSteps (fun _ _ hs hc => hs.step hc) hinit hcalls
  refine ⟨fun _ _ _ => eq_of_packageDir, fun r hr r' hr' heq => ?_, hinv.nodup_list,
    fun r => hinv.mem_list⟩
  have hd := ((hinv.dirs _).mpr ⟨r, hr, rfl⟩).1
  have hd' := ((hinv.dirs _).mpr ⟨r', hr', rfl⟩).1
  exact eq_of_packageDir (hinv.plain r hr) (hinv.plain r' hr')
    (inj_on_of_nodup_map hinv.nodup hd hd' heq)

def sha : Text := List.replicate 64 'a'

def node : Ref := ⟨"eyberg".toList, "node_lts".toList, "v16".toList⟩

def python : Ref := ⟨"eyberg".toList, "python".toList, "3.11".toList⟩

/-- How macOS and Windows compare names. -/
def lower (s : Text) : Text := s.map Char.toLower

theorem packages_listed_node :
    node ∈ (run (Sys.step lower) {} [.download .arm64 node sha (some sha),
      .download .arm64 python sha (some sha), .remove .arm64 python]).store.list lower .arm64 :=
  ((packages_listed lower .arm64 [.download .arm64 node sha (some sha),
    .download .arm64 python sha (some sha), .remove .arm64 python]
    ⟨fun _ => ⟨rfl, by decide +kernel, by decide +kernel, .inr ⟨by decide +kernel, sha, rfl, rfl⟩⟩,
      fun _ => ⟨rfl, by decide +kernel, by decide +kernel, .inr ⟨by decide +kernel, sha, rfl, rfl⟩⟩,
      fun _ => ⟨rfl, by decide +kernel, by decide +kernel⟩, trivial⟩).2.2.2 node).mpr
      (by decide +kernel)

/-- Two packages share a directory, and only one of them is listed; a package whose download
failed is listed; the store of `amd64` lists a namespace of `arm64`; and where names are compared
in lower case a package is listed under the name of another. -/
theorem directory_shared :
    (validateOpsRef node = .ok () ∧
      validateOpsRef ⟨node.ns, "node".toList, "lts_v16".toList⟩ = .ok () ∧
      packageDir [] node = packageDir [] ⟨node.ns, "node".toList, "lts_v16".toList⟩ ∧
      (run (Sys.step id) {} [.download .amd64 ⟨node.ns, "node".toList, "lts_v16".toList⟩ sha
        (some sha)]).store.list id .amd64 = [node]) ∧
      ((run (Sys.step id) {} [.download .amd64 node sha none]).store.list id .amd64 = [node] ∧
        (run (Sys.step id) {} [.download .amd64 node sha none]).stored = []) ∧
      (run (Sys.step id) {} [.download .arm64 node sha (some sha)]).store.list id .amd64 =
        [⟨"arm64".toList, "eyberg".toList, []⟩] ∧
      (run (Sys.step lower) {} [.download .amd64 python sha (some sha),
        .download .amd64 ⟨python.ns, "Python".toList, "3.11".toList⟩ sha none]).store.list
          lower .amd64 = [python] := by
  decide +kernel

end Jerboa.Ops.Packages
