import Jerboa.Ops.Contained
import Jerboa.Package.Verify

/-!
# What an extraction leaves

Where the directory of the files is a directory in the end, `Store.Extract` wrote
nothing outside of it: no entry was led astray by a link.  So the archive is the one
that was hashed before.  Every file that was unpacked is there, and is listed.
-/

namespace Jerboa.Package

open List Lib Lib.Run Net.Address Tree

theorem cleanStep_eq (rooted : Bool) {body : List Text} (hbody : ['.', '.'] ∉ body) (k : Nat)
    (part : Text) :
    ∃ body' k', Ops.cleanStep rooted (body ++ List.replicate k ['.', '.']) part =
      body' ++ List.replicate k' ['.', '.'] ∧ ['.', '.'] ∉ body' ∧
        Path.cleanStep body.reverse part = body'.reverse := by
  unfold Ops.cleanStep Path.cleanStep
  split
  · exact ⟨body, k, rfl, hbody, rfl⟩
  · split
    · cases body with
      | nil =>
        cases k with
        | zero =>
          cases rooted with
          | false => exact ⟨[], 1, rfl, by simp, rfl⟩
          | true => exact ⟨[], 0, rfl, by simp, rfl⟩
        | succ k => exact ⟨[], k + 2, rfl, by simp, rfl⟩
      | cons last body =>
        rw [mem_cons, not_or] at hbody
        refine ⟨body, k, if_neg fun h => hbody.1 h.symm, hbody.2, ?_⟩
        rw [reverse_cons, dropLast_concat]
    · next hpart =>
      refine ⟨part :: body, k, rfl, ?_, (reverse_cons).symm⟩
      rw [mem_cons, not_or]
      exact ⟨fun h => hpart h.symm, hbody⟩

theorem foldl_cleanStep_eq (rooted : Bool) (parts body : List Text) (hbody : ['.', '.'] ∉ body)
    (k : Nat) :
    ∃ body' k', parts.foldl (Ops.cleanStep rooted) (body ++ List.replicate k ['.', '.']) =
      body' ++ List.replicate k' ['.', '.'] ∧
        parts.foldl Path.cleanStep body.reverse = body'.reverse := by
  induction parts generalizing body k with
  | nil => exact ⟨body, k, rfl, rfl⟩
  | cons part parts ih =>
    obtain ⟨body₁, k₁, hstep, hbody₁, hclean⟩ := cleanStep_eq rooted hbody k part
    rw [foldl_cons, foldl_cons, hstep, hclean]
    exact ih body₁ hbody₁ k₁

theorem tarEntryName_eq {name : Text} (h : (Ops.cleanParts name).getLast? ≠ some ['.', '.']) :
    tarEntryName name = (Ops.cleanParts name).reverse := by
  obtain ⟨body, k, hparts, hclean⟩ :=
    foldl_cleanStep_eq (Ops.isRooted name) (Path.split name) [] (by simp) 0
  rw [replicate_zero, append_nil] at hparts
  unfold Ops.cleanParts at h ⊢
  rw [hparts] at h ⊢
  cases k with
  | zero =>
    rw [replicate_zero, append_nil]
    exact hclean
  | succ =>
    rw [replicate_succ', ← append_assoc, getLast?_concat] at h
    exact absurd rfl h

variable {ι : Type} {δ : Type} (w : World ι δ)

/-! ## Entries -/

/-- A place of the directory of the files, or the directory. -/
def Inside (p : List Text) : Prop := filesDir :: w.root <:+ p

theorem inside_of_onWay {above p : List Text} (h : OnWay w.root (above ++ [filesDir]) p) :
    Inside w p := by
  obtain ⟨q, hne, hq, rfl⟩ := h
  obtain ⟨before, hbefore⟩ := hq
  rcases eq_nil_or_concat' q with rfl | ⟨q, last, rfl⟩
  · exact absurd rfl hne
  · rw [← append_assoc] at hbefore
    obtain ⟨-, hlast⟩ := append_inj' hbefore rfl
    cases hlast
    rw [Inside, append_assoc, singleton_append]
    exact suffix_append q _

/-- The directory of the files is a directory, or is not there. -/
def Plain (t : Tree Text (Stamp ι)) : Prop :=
  t.node (filesDir :: w.root) = none ∨ t.node (filesDir :: w.root) = some .dir

variable {w}

theorem unpackStep_grows_any (u : Unpacking ι) (e : TarEntry) :
    Tree.Grows (fun _ => True) u.tree (unpackStep w u e).tree := by
  unfold unpackStep
  split_ifs
  · exact .refl _ _
  · exact .refl _ _
  · exact .refl _ _
  · split
    · exact .refl _ _
    · exact mkdirAll_grows_any _ _ _ _
    · unfold unpackReg
      dsimp only
      split
      · exact mkdirAll_grows_any _ _ _ _
      · exact (mkdirAll_grows_any _ _ _ _).trans (write_grows_any _ _ _ _ _)

variable {u : Unpacking ι}

theorem unpackStep_of_failed (h : u.failed = true) (e : TarEntry) :
    unpackStep w u e = u := by
  rw [unpackStep, if_pos (.inl h)]

variable {t : Tree Text (Stamp ι)}

theorem noLink_target (hplain : Plain w t) {above : List Text}
    (h : Ops.traversesSymlink w.hops w.root t [filesDir] above.reverse = false) :
    Tree.NoLink t w.root (above ++ [filesDir]) := by
  have hdir : Tree.NoLink t w.root [filesDir] := by
    refine (noLink_nil t w.root).cons fun a text => ?_
    rcases hplain with hnone | hsome
    · rw [nil_append, hnone]
      simp
    · rw [nil_append, hsome]
      simp
  rcases hplain with hnone | hsome
  · exact hdir.append (isDir_false_of_none hnone) above
  · have hway := Ops.noLink_of_traversesSymlink (isDir_cons.mpr hsome) hdir h
    rwa [reverse_reverse] at hway

theorem unpackReg_spec {target : List Text} (hroot : u.tree.isDir w.root = true)
    (hlink : Tree.NoLink u.tree w.root target) (htarget : target ≠ []) {bytes : List UInt8}
    {exec broken : Bool} (hok : (unpackReg w u target bytes exec broken).failed = false) :
    Tree.Grows (OnWay w.root target) u.tree (unpackReg w u target bytes exec broken).tree ∧
      (unpackReg w u target bytes exec broken).tree.isFile (target ++ w.root) = true := by
  obtain ⟨hmade, hdir⟩ := mkdirAll_spec u.tree w.hops hlink.tail hroot
  have hmade := hmade.mono fun _ hp => hp.of_tail
  unfold unpackReg at hok ⊢
  dsimp only at hok ⊢
  split at hok
  · cases hok
  · next hsome =>
    rw [if_neg hsome]
    rw [Bool.not_eq_true, Bool.not_eq_false'] at hsome
    rw [Bool.or_eq_false_iff, Bool.or_eq_false_iff] at hok
    refine ⟨(hmade.trans (write_fills _ w.hops (hmade.noLink hlink) (hmade.isDir hroot) _)).toGrows,
      ?_⟩
    cases target with
    | nil => exact absurd rfl htarget
    | cons n above =>
      refine write_isFile w.hops (hdir hsome) ?_ (by simpa using hok.1.1)
      exact hmade.noLink hlink (n :: above) (suffix_refl _) (cons_ne_nil _ _)

theorem unpackStep_spec {e : TarEntry} (hroot : u.tree.isDir w.root = true)
    (hplain : Plain w u.tree) (hok : (unpackStep w u e).failed = false) :
    Tree.Grows (Inside w) u.tree (unpackStep w u e).tree ∧
      ∀ bytes exec broken, e.kind = .reg bytes exec broken → tarEntryName e.name ≠ [] →
        (unpackStep w u e).tree.isFile ((tarEntryName e.name).reverse ++ filesDir :: w.root) =
          true := by
  unfold unpackStep at hok ⊢
  split_ifs at hok ⊢ with hskip hname htraverses
  · refine ⟨.refl _ _, fun _ _ _ _ hnonempty => ?_⟩
    rcases hskip with hfailed | hdot
    · rw [hfailed] at hok
      cases hok
    · -- an entry that is skipped has the empty name
      have hparts : Ops.cleanParts e.name = [] := by
        simpa using (Bool.and_eq_true_iff.mp hdot).2
      have hname : tarEntryName e.name = (Ops.cleanParts e.name).reverse :=
        tarEntryName_eq (by rw [hparts]; simp)
      rw [hparts] at hname
      exact absurd hname hnonempty
  · have hlink := noLink_target hplain (Bool.eq_false_iff.mpr htraverses)
    rw [not_or] at hname
    have hsafe : tarEntryName e.name = (Ops.cleanParts e.name).reverse := by
      refine tarEntryName_eq fun hlast => hname.1 ?_
      rw [Ops.safePath, hlast]
      simp
    split at hok
    · cases hok
    · next hkind =>
      refine ⟨((mkdirAll_spec _ w.hops hlink hroot).1.toGrows).mono fun p hp =>
        inside_of_onWay w hp, ?_⟩
      intro bytes exec broken hreg
      rw [hkind] at hreg
      cases hreg
    · obtain ⟨hgrows, hfile⟩ := unpackReg_spec hroot hlink (by simp) hok
      refine ⟨hgrows.mono fun p hp => inside_of_onWay w hp, fun _ _ _ _ _ => ?_⟩
      rw [hsafe, reverse_reverse]
      rwa [append_assoc, singleton_append] at hfile

/-! ## The archive -/

variable {R : List Text → Prop}

theorem Plain.of_grows {t t' : Tree Text (Stamp ι)} (h : Tree.Grows R t t')
    (hdir : t'.node (filesDir :: w.root) = some .dir) : Plain w t := by
  unfold Plain
  cases hnode : t.node (filesDir :: w.root) with
  | none => exact .inl rfl
  | some x =>
    have hkind := h.kind _ _ hnode
    rw [hdir] at hkind
    cases x with
    | dir => exact .inr rfl
    | file => cases hkind
    | link => cases hkind

theorem unpack_grows_any (u : Unpacking ι) (es : List TarEntry) :
    Tree.Grows (fun _ => True) u.tree (run (unpackStep w) u es).tree :=
  run_invariant (I := fun u' => Tree.Grows (fun _ => True) u.tree u'.tree)
    (fun u' e h => h.trans (unpackStep_grows_any u' e)) (.refl _ _) es

theorem unpack_failed (h : u.failed = true) (es : List TarEntry) :
    (run (unpackStep w) u es).failed = true :=
  run_invariant (I := fun u' : Unpacking ι => u'.failed = true)
    (fun u' e h => by rw [unpackStep_of_failed h]; exact h) h es

theorem isFile_of_grows {t t' : Tree Text (Stamp ι)} (h : Tree.Grows R t t') {p : List Text}
    (hp : t.isFile p = true) : t'.isFile p = true := by
  obtain ⟨c, hc⟩ := isFile_iff.mp hp
  obtain ⟨y, hy, hkind⟩ := Option.map_eq_some_iff.mp (h.kind _ _ hc)
  cases y with
  | dir | link => cases hkind
  | file c' => exact isFile_iff.mpr ⟨c', hy⟩

theorem unpack_spec {es : List TarEntry} (hroot : u.tree.isDir w.root = true)
    (hdir : (run (unpackStep w) u es).tree.node (filesDir :: w.root) = some .dir)
    (hok : (run (unpackStep w) u es).failed = false) :
    Tree.Grows (Inside w) u.tree (run (unpackStep w) u es).tree ∧
      ∀ e ∈ es, ∀ bytes exec broken, e.kind = .reg bytes exec broken → tarEntryName e.name ≠ [] →
        (run (unpackStep w) u es).tree.isFile
          ((tarEntryName e.name).reverse ++ filesDir :: w.root) = true := by
  induction es generalizing u with
  | nil => exact ⟨.refl _ _, by simp⟩
  | cons e es ih =>
    have hplain : Plain w u.tree := .of_grows (unpack_grows_any u (e :: es)) hdir
    rw [run_cons] at hdir hok ⊢
    have hstep : (unpackStep w u e).failed = false := by
      by_contra hfailed
      rw [unpack_failed (Bool.of_not_eq_false hfailed) es] at hok
      cases hok
    obtain ⟨hgrows, hfile⟩ := unpackStep_spec hroot hplain hstep
    obtain ⟨hrest, hfiles⟩ := ih (hgrows.isDir hroot) hdir hok
    refine ⟨hgrows.trans hrest, forall_mem_cons.mpr
      ⟨fun bytes exec broken hkind hname => ?_, hfiles⟩⟩
    exact isFile_of_grows hrest (hfile bytes exec broken hkind hname)

theorem stamp_of_grows {t t' : Tree Text (Stamp ι)} (h : Tree.Grows R t t') {path p : List Text}
    (hstat : t.stat w.hops w.root path = .found p) (hp : ¬ R p) :
    stamp w t' path = stamp w t path := by
  have hstat' : t'.stat w.hops w.root path = .found p := h.walk hstat
  unfold stamp
  rw [hstat, hstat']
  dsimp only
  rw [h.outside p hp]

theorem stamp_eq_some {path : List Text} {st : Stamp ι} (h : stamp w t path = some st) :
    ∃ p, t.stat w.hops w.root path = .found p ∧ t.node p = some (.file st) := by
  unfold stamp at h
  split at h
  · next p hstat =>
    split at h
    · next st' hnode =>
      cases h
      exact ⟨p, hstat, hnode⟩
    · cases h
  · cases h

theorem isDir_root_of_stamp {name : Text} {st : Stamp ι} (h : stamp w t [name] = some st) :
    t.isDir w.root = true := by
  obtain ⟨p, hstat, -⟩ := stamp_eq_some h
  have hnode : t.node (name :: w.root) ≠ none := by
    intro hnone
    rw [stat, names, reverse_singleton, map_singleton] at hstat
    cases hhops : w.hops <;> rw [hhops] at hstat <;> simp [walk, walkWith, hnone] at hstat
  exact isDir_of_node hnode

theorem not_inside_of_not_isExtracted (hplain : Plain w t) (hnot : isExtracted w t = false)
    {p : List Text} (hp : t.isFile p = true) : ¬ Inside w p := by
  rintro ⟨below, rfl⟩
  obtain ⟨c, hc⟩ := isFile_iff.mp hp
  rcases eq_nil_or_concat' below with rfl | ⟨below, n, rfl⟩
  · rw [nil_append] at hc
    rcases hplain with hnone | hdir
    · rw [hnone] at hc
      cases hc
    · rw [hdir] at hc
      cases hc
  · rw [append_assoc, singleton_append] at hc
    have hentry : t.node (n :: filesDir :: w.root) ≠ none :=
      node_of_append (hc ▸ Option.some_ne_none _) (cons_ne_nil _ _)
    have hdir : t.isDir (filesDir :: w.root) = true := isDir_of_node hentry
    have hstat : t.stat w.hops w.root [filesDir] = .found (filesDir :: w.root) :=
      stat_dir w.hops hdir
    have hentries : t.entries (filesDir :: w.root) ≠ [] :=
      ne_nil_of_mem (mem_entries hentry)
    unfold isExtracted at hnot
    rw [hstat] at hnot
    simp [hdir, hentries] at hnot

theorem extract_cases (s : State ι δ) :
    (isExtracted w s.tree = true ∧ extract w s = (s, true)) ∨
      (isExtracted w s.tree = false ∧ ∃ u, u.failed = false ∧
        u = run (unpackStep w) { tree := s.tree, clock := s.clock } (archiveOf w s.tree).entries ∧
        extract w s = ({ s with tree := u.tree, clock := u.clock }, true)) ∨
      (isExtracted w s.tree = false ∧ ∃ tree clock, extract w s =
          ({ s with tree, clock }, false)) := by
  unfold extract
  split
  · next hextracted => exact .inl ⟨hextracted, rfl⟩
  · next hnot =>
    rw [Bool.not_eq_true] at hnot
    refine .inr ?_
    dsimp only
    cases hopens : (archiveOf w s.tree).opens with
    | false => exact .inr ⟨hnot, _, _, rfl⟩
    | true =>
      rw [if_pos rfl]
      split
      · exact .inr ⟨hnot, _, _, rfl⟩
      · next hgood =>
        simp only [Bool.or_eq_true, not_or, Bool.not_eq_true] at hgood
        exact .inl ⟨hnot, _, hgood.1.2, rfl, rfl⟩

theorem extract_kept (s : State ι δ) :
    (extract w s).1.cache = s.cache ∧ (extract w s).1.index = s.index ∧
      (isExtracted w s.tree = true → (extract w s).1.tree = s.tree) := by
  rcases extract_cases s with ⟨-, heq⟩ | ⟨hnot, u, -, -, heq⟩ | ⟨hnot, tree, clock, heq⟩
  · rw [heq]
    exact ⟨rfl, rfl, fun _ => rfl⟩
  · rw [heq, hnot]
    exact ⟨rfl, rfl, fun h => absurd h Bool.false_ne_true⟩
  · rw [heq, hnot]
    exact ⟨rfl, rfl, fun h => absurd h Bool.false_ne_true⟩

theorem extract_grows_any {s : State ι δ} (hok : (extract w s).2 = true) :
    Tree.Grows (fun _ => True) s.tree (extract w s).1.tree := by
  rcases extract_cases s with ⟨-, heq⟩ | ⟨-, u, -, rfl, heq⟩ | ⟨-, tree, clock, heq⟩
  · rw [heq]
    exact .refl _ _
  · rw [heq]
    exact unpack_grows_any { tree := s.tree, clock := s.clock } _
  · rw [heq] at hok
    cases hok

theorem extract_spec {s : State ι δ} {b : List UInt8} (harchive : archiveBytes w s.tree = some b)
    (hok : (extract w s).2 = true)
    (hdir : (extract w s).1.tree.node (filesDir :: w.root) = some .dir) :
    archiveBytes w (extract w s).1.tree = some b ∧
      (isExtracted w s.tree = false → ∀ e ∈ (w.untar b).entries, ∀ bytes exec broken,
        e.kind = .reg bytes exec broken → tarEntryName e.name ≠ [] →
          (extract w s).1.tree.isFile ((tarEntryName e.name).reverse ++ filesDir :: w.root) =
            true) := by
  rcases extract_cases s with ⟨hextracted, heq⟩ | ⟨hnot, u, hfailed, hrun, heq⟩ |
    ⟨-, tree, clock, heq⟩
  · rw [heq, hextracted]
    exact ⟨harchive, fun h => absurd h.symm Bool.false_ne_true⟩
  · rw [heq] at hdir ⊢
    subst hrun
    rw [archiveOf, harchive] at hdir hfailed ⊢
    obtain ⟨id, hid, hb⟩ := Option.map_eq_some_iff.mp harchive
    obtain ⟨st, hst, -⟩ := Option.map_eq_some_iff.mp hid
    obtain ⟨p, hstat, hnode⟩ := stamp_eq_some hst
    obtain ⟨hgrows, hfiles⟩ := unpack_spec (u := { tree := s.tree, clock := s.clock })
      (isDir_root_of_stamp hst) hdir hfailed
    have hplain : Plain w s.tree := .of_grows hgrows hdir
    have hp := not_inside_of_not_isExtracted hplain hnot (isFile_iff.mpr ⟨st, hnode⟩)
    refine ⟨?_, fun _ => hfiles⟩
    rw [archiveBytes, statID, stamp_of_grows hgrows hstat hp]
    exact harchive
  · rw [heq] at hok
    cases hok

theorem mem_walkFiles_of_isFile {depth : Nat} {rel path : List Text} (hne : rel ≠ [])
    (hdepth : rel.length ≤ depth) (hfile : t.isFile (rel ++ (path ++ w.root)) = true) :
    rel ++ path ∈ walkFiles w t depth path := by
  induction depth generalizing rel path with
  | zero => exact absurd (length_eq_zero_iff.mp (Nat.le_zero.mp hdepth)) hne
  | succ depth ih =>
    obtain ⟨c, hc⟩ := isFile_iff.mp hfile
    rcases eq_nil_or_concat' rel with rfl | ⟨below, n, rfl⟩
    · exact absurd rfl hne
    · rw [append_assoc, singleton_append] at hc hfile ⊢
      have hentry : t.node (n :: (path ++ w.root)) ≠ none :=
        node_of_append (hc ▸ Option.some_ne_none _) (cons_ne_nil _ _)
      rw [walkFiles]
      refine mem_flatMap.mpr ⟨n, (mem_insertionSort _).mpr (mem_entries hentry), ?_⟩
      cases below with
      | nil =>
        rw [nil_append] at hfile
        rw [if_neg (by rw [isDir_false_of_file hfile]; simp)]
        exact mem_singleton.mpr rfl
      | cons =>
        have hdir : t.isDir (n :: (path ++ w.root)) = true :=
          isDir_of_append (isDir_of_node (hc ▸ Option.some_ne_none _))
        rw [if_pos hdir]
        refine ih (cons_ne_nil _ _) ?_ hfile
        rw [length_append, length_singleton] at hdepth
        omega

theorem exists_of_mem_walkFiles {depth : Nat} {path f : List Text}
    (h : f ∈ walkFiles w t depth path) : ∃ rel, rel ≠ [] ∧ f = rel ++ path := by
  induction depth generalizing path with
  | zero => cases h
  | succ depth ih =>
    rw [walkFiles] at h
    obtain ⟨n, -, hn⟩ := mem_flatMap.mp h
    split at hn
    · obtain ⟨rel, hne, rfl⟩ := ih hn
      refine ⟨rel ++ [n], by simp, ?_⟩
      rw [append_assoc, singleton_append]
    · exact ⟨[n], by simp, mem_singleton.mp hn⟩

theorem extractedFileList_eq {files : List (List Text)} (hroot : t.isDir w.root = true)
    (h : extractedFileList w t = some files) :
    files = [[filesDir]] ∨ t.node (filesDir :: w.root) = some .dir ∧
      files = walkFiles w t t.nodes.length [filesDir] := by
  have hlstat : t.lstat w.hops w.root [filesDir] = _ := lstat_cons w.hops hroot filesDir
  unfold extractedFileList at h
  rw [hlstat, nil_append] at h
  cases hnode : t.node (filesDir :: w.root) with
  | none =>
    rw [hnode] at h
    cases h
  | some x =>
    rw [hnode] at h
    cases x with
    | dir =>
      cases h
      exact .inr ⟨rfl, rfl⟩
    | file =>
      cases h
      exact .inl rfl
    | link =>
      cases h
      exact .inl rfl

theorem mem_walkFiles_of_name {name : List Text} (hname : name ≠ [])
    (hfile : t.isFile (name.reverse ++ filesDir :: w.root) = true) :
    ∃ f ∈ walkFiles w t t.nodes.length [filesDir], entryName f = name := by
  obtain ⟨c, hc⟩ := isFile_iff.mp hfile
  refine ⟨name.reverse ++ [filesDir], mem_walkFiles_of_isFile (by simpa using hname) ?_ hfile, ?_⟩
  · exact length_le_nodes (hc ▸ Option.some_ne_none _)
  · rw [entryName, dropLast_concat, reverse_reverse]

end Jerboa.Package
