import Jerboa.Ops.Extract

/-!
# An extraction stays in its directory

Whatever an archive holds, `Extract` changes nothing outside the package's
directory, and what `ExtractedFiles` lists are files in it.  The bytes of the
entries are bounded.  The copies that stand for links are not counted: each of
them is bounded only by the size of the files there are.
-/

namespace Jerboa.Ops

open List Lib Lib.Run Net.Address Tree

variable {env : Env}

theorem noLink_of_traversesSymlink {β : Type} {t : Tree Text β} {hops : Nat}
    {root parts cur : List Text} (hdir : t.isDir (cur ++ root) = true)
    (hcur : Tree.NoLink t root cur) (h : traversesSymlink hops root t cur parts = false) :
    Tree.NoLink t root (parts.reverse ++ cur) := by
  induction parts generalizing cur with
  | nil => exact hcur
  | cons part parts ih =>
    rw [traversesSymlink, lstat_cons hops hdir] at h
    rw [reverse_cons, append_assoc, singleton_append]
    cases hnode : t.node (part :: (cur ++ root)) with
    | none =>
      refine (hcur.cons fun a text => by rw [hnode]; simp).append ?_ parts.reverse
      exact isDir_false_of_none hnode
    | some x =>
      rw [hnode] at h
      cases x with
      | dir =>
        refine ih (isDir_cons.mpr hnode) (hcur.cons fun a text => by rw [hnode]; simp) h
      | file c =>
        refine (hcur.cons fun a text => by rw [hnode]; simp).append ?_ parts.reverse
        exact isDir_false_of_file (isFile_iff.mpr ⟨c, hnode⟩)
      | link => cases h

theorem entryStep_cases (s : Extraction) (e : Entry) (hroot : s.tree.isDir env.root = true) :
    (∃ stripPrefix, entryStep env s e = { s with stripPrefix }) ∨
      s.err = none ∧ ∃ target, e.target (e.strip s.stripPrefix) = some target ∧
        Tree.NoLink s.tree env.root target ∧
        entryStep env s e =
          writeEntry env { s with stripPrefix := e.strip s.stripPrefix } target e.kind := by
  unfold entryStep
  split
  · exact .inl ⟨s.stripPrefix, rfl⟩
  · next hgo =>
    rw [not_or, Bool.not_eq_true, Option.isSome_eq_false_iff, Option.isNone_iff_eq_none] at hgo
    dsimp only
    split
    · exact .inl ⟨_, rfl⟩
    · next target htarget =>
      split
      · exact .inl ⟨_, rfl⟩
      · next htraverses =>
        refine .inr ⟨hgo.1, target, htarget, ?_, rfl⟩
        have h := noLink_of_traversesSymlink hroot (noLink_nil s.tree env.root)
          (Bool.of_not_eq_true htraverses)
        rwa [reverse_reverse, append_nil] at h

theorem writeSymlink_cases (env : Env) (s : Extraction) (target : List Text) (linkname : Text) :
    writeSymlink env s target linkname = s ∨
      (env.linux = true ∧
        (∃ linkTarget, resolveLinkname env s.tree target.tail linkname = some linkTarget) ∧
        writeSymlink env s target linkname = { s with
          tree := (s.tree.create env.hops env.root (.link false (comps linkname)) target).1 }) ∨
      (env.linux = false ∧ ∃ linkTarget, writeSymlink env s target linkname =
        { s with pendingLinks := s.pendingLinks ++ [⟨target, linkTarget⟩] }) := by
  unfold writeSymlink
  split
  · exact .inl rfl
  · split
    · exact .inl rfl
    · next linkTarget hlink =>
      split
      · exact .inl rfl
      · split
        · next hlinux => exact .inr (.inl ⟨hlinux, ⟨linkTarget, hlink⟩, rfl⟩)
        · next hlinux => exact .inr (.inr ⟨Bool.of_not_eq_true hlinux, linkTarget, rfl⟩)

variable {target : List Text}

theorem writeReg_cases (s : Extraction) (size : Nat) (broken : Bool)
    (h : Tree.NoLink s.tree env.root target) (hroot : s.tree.isDir env.root = true) :
    ∃ t, Tree.Fills (Below env.root) s.tree t ∧
      ((∃ err, writeReg env s target size broken = { s with tree := t, err := some err }) ∨
        ∃ n, n = min size (s.budget + 1).toNat ∧ ∃ err, (err = none → 0 ≤ s.budget - n) ∧
          writeReg env s target size broken =
            { s with tree := t, budget := s.budget - n, written := s.written + n, err }) := by
  unfold writeReg
  dsimp only
  split
  · exact ⟨_, (mkdirAll_spec s.tree env.hops h.tail hroot).1.below, .inl ⟨_, rfl⟩⟩
  · split
    · exact ⟨_, (mkdirAll_write_fills s.tree env.hops h hroot _).below, .inl ⟨_, rfl⟩⟩
    · refine ⟨_, (mkdirAll_write_fills s.tree env.hops h hroot _).below,
        .inr ⟨_, rfl, _, fun herr => ?_, rfl⟩⟩
      split_ifs at herr with hbroken hlow
      exact Int.not_lt.mp hlow

/-- What holds between two entries.  Elsewhere than on Linux no links are made, so
that the places of the remembered ones stay as they were checked. -/
structure Loop (env : Env) (t : Tree Text Nat) (s : Extraction) : Prop where
  grows : Tree.Grows (Below env.root) t s.tree
  fills : env.linux = false → Tree.Fills (Below env.root) t s.tree
  pending : ∀ l ∈ s.pendingLinks, env.linux = false ∧ Tree.NoLink s.tree env.root l.path
  budget : (s.written : Int) + s.budget = maxExtractedBytes
  low : -1 ≤ s.budget
  err : s.err = none → 0 ≤ s.budget

theorem loop_start (t : Tree Text Nat) : Loop env t { tree := t } :=
  ⟨.refl _ t, fun _ => .refl _ t, by simp, by simp, by simp [maxExtractedBytes],
    fun _ => Int.natCast_nonneg maxExtractedBytes⟩

variable {s : Extraction}

theorem Loop.fill {t t' : Tree Text Nat} (h : Loop env t s)
    (hfills : Tree.Fills (Below env.root) s.tree t') (err : Option ExtractErr)
    (herr : err = none → s.err = none) : Loop env t { s with tree := t', err } where
  grows := h.grows.trans hfills.toGrows
  fills hlinux := (h.fills hlinux).trans hfills
  pending l hl := ⟨(h.pending l hl).1, hfills.noLink (h.pending l hl).2⟩
  budget := h.budget
  low := h.low
  err hnone := h.err (herr hnone)

variable {t : Tree Text Nat}

theorem Loop.writeReg (h : Loop env t s) (hs : s.err = none) (hroot : t.isDir env.root = true)
    (htarget : Tree.NoLink s.tree env.root target) (size : Nat) (broken : Bool) :
    Loop env t (writeReg env s target size broken) := by
  obtain ⟨t', hfills, hcases⟩ := writeReg_cases s size broken htarget (h.grows.isDir hroot)
  rcases hcases with ⟨err, heq⟩ | ⟨n, hn, err, herr, heq⟩
  · rw [heq]
    exact h.fill hfills (some err) (fun hnone => absurd hnone (Option.some_ne_none err))
  · rw [heq]
    have hfill := h.fill hfills err fun _ => hs
    have hbudget := h.budget
    have hlow := h.err hs
    refine ⟨hfill.grows, hfill.fills, hfill.pending, ?_, ?_, herr⟩
    · dsimp only
      omega
    · dsimp only
      omega

theorem Loop.writeSymlink (h : Loop env t s) (hroot : t.isDir env.root = true)
    (htarget : Tree.NoLink s.tree env.root target) (linkname : Text) :
    Loop env t (writeSymlink env s target linkname) := by
  rcases writeSymlink_cases env s target linkname with heq | ⟨hlinux, -, heq⟩ | ⟨hlinux, l, heq⟩
  · rw [heq]
    exact h
  · rw [heq]
    have hnot : env.linux ≠ false := by simp [hlinux]
    refine ⟨h.grows.trans ?_, fun hfalse => absurd hfalse hnot, fun l hl => ?_, h.budget,
      h.low, h.err⟩
    · exact (create_grows s.tree env.hops htarget (h.grows.isDir hroot) _).below
    · exact absurd (h.pending l hl).1 hnot
  · rw [heq]
    refine { h with pending := fun l' hl' => ?_ }
    rcases mem_append.mp hl' with hl' | hl'
    · exact h.pending l' hl'
    · cases mem_singleton.mp hl'
      exact ⟨hlinux, htarget⟩

theorem Loop.step (hroot : t.isDir env.root = true) (h : Loop env t s) (e : Entry) :
    Loop env t (entryStep env s e) := by
  rcases entryStep_cases s e (h.grows.isDir hroot) with ⟨p, heq⟩ | ⟨hs, target, -, htarget, heq⟩
  · rw [heq]
    exact { h with }
  · have hp : Loop env t { s with stripPrefix := e.strip s.stripPrefix } :=
      { h with }
    rw [heq]
    cases e.kind with
    | dir =>
      have hmade := (mkdirAll_spec s.tree env.hops htarget (h.grows.isDir hroot)).1
      exact hp.fill hmade.below _ fun _ => hs
    | reg size broken => exact hp.writeReg hs hroot htarget size broken
    | symlink linkname => exact hp.writeSymlink hroot htarget linkname
    | other => exact hp

theorem copyFileContents_fills (src : List Text) {dst : List Text} (h : Tree.NoLink t env.root dst)
    (hroot : t.isDir env.root = true) :
    Tree.Fills (Below env.root) t (copyFileContents env t src dst).1 := by
  have hout := (mkdirAll_write_fills t env.hops h hroot 0).below
  unfold copyFileContents
  dsimp only
  split
  · exact (mkdirAll_spec t env.hops h.tail hroot).1.below
  · split
    · exact hout
    · exact hout.trans (write_fills _ env.hops (hout.noLink h) (hout.isDir hroot) _).below

theorem copyStep_cases (env : Env) (c : Copying) (l : PendingLink) :
    (∃ p, copyStep env c l =
      { c with
        tree := (copyFileContents env c.tree p l.path).1
        written := c.written + (copyFileContents env c.tree p l.path).2
        progressed := true }) ∨
      copyStep env c l = { c with next := c.next ++ [l] } := by
  unfold copyStep
  split
  · next p hstat =>
    split
    · exact .inl ⟨p, rfl⟩
    · exact .inr rfl
  · exact .inr rfl

theorem copyStep_fills {c : Copying} {l : PendingLink} (h : Tree.NoLink c.tree env.root l.path)
    (hroot : c.tree.isDir env.root = true) :
    Tree.Fills (Below env.root) c.tree (copyStep env c l).tree := by
  rcases copyStep_cases env c l with ⟨p, heq⟩ | heq
  · rw [heq]
    exact copyFileContents_fills p h hroot
  · rw [heq]
    exact .refl _ _

theorem copyStep_next (c : Copying) (l : PendingLink) :
    ∀ l' ∈ (copyStep env c l).next, l' ∈ c.next ∨ l' = l := by
  intro l' hl'
  rcases copyStep_cases env c l with ⟨p, heq⟩ | heq
  · rw [heq] at hl'
    exact .inl hl'
  · rw [heq] at hl'
    exact (mem_append.mp hl').imp_right mem_singleton.mp

variable {links : List PendingLink}

theorem run_copyStep_fills {c : Copying} (h : ∀ l ∈ links, Tree.NoLink c.tree env.root l.path)
    (hroot : c.tree.isDir env.root = true) :
    Tree.Fills (Below env.root) c.tree (run (copyStep env) c links).tree ∧
      ∀ l ∈ (run (copyStep env) c links).next, l ∈ c.next ∨ l ∈ links := by
  induction links generalizing c with
  | nil => exact ⟨.refl _ _, fun l hl => .inl hl⟩
  | cons l links ih =>
    have hstep := copyStep_fills (h l mem_cons_self) hroot
    obtain ⟨hrest, hnext⟩ := ih
      (fun l' hl' => hstep.noLink (h l' (mem_cons_of_mem l hl'))) (hstep.isDir hroot)
    refine ⟨hstep.trans hrest, fun l' hl' => ?_⟩
    rcases hnext l' hl' with hl' | hl'
    · rcases copyStep_next c l l' hl' with hl' | rfl
      · exact .inl hl'
      · exact .inr mem_cons_self
    · exact .inr (mem_cons_of_mem l hl')

theorem materializeLinks_fills (passes : Nat) (written : Nat)
    (h : ∀ l ∈ links, Tree.NoLink t env.root l.path) (hroot : t.isDir env.root = true) :
    Tree.Fills (Below env.root) t (materializeLinks env passes t written links).1 := by
  induction passes generalizing t written links with
  | zero => exact .refl _ _
  | succ passes ih =>
    obtain ⟨hpass, hnext⟩ := run_copyStep_fills (c := { tree := t, written }) h hroot
    unfold materializeLinks
    dsimp only
    split
    · refine hpass.trans (ih _ (fun l hl => hpass.noLink ?_) (hpass.isDir hroot))
      exact (hnext l hl).elim nofun (h l)
    · exact hpass

theorem length_next_run_copyStep (env : Env) (c : Copying) (links : List PendingLink) :
    (run (copyStep env) c links).next.length ≤ c.next.length + links.length ∧
      ((run (copyStep env) c links).progressed = true → c.progressed = false →
        (run (copyStep env) c links).next.length < c.next.length + links.length) := by
  induction links generalizing c with
  | nil => exact ⟨Nat.le_refl _, fun h h' => absurd (h.symm.trans h') Bool.true_eq_false.mp⟩
  | cons l links ih =>
    obtain ⟨hle, hlt⟩ := ih (copyStep env c l)
    rw [run_cons, length_cons]
    rcases copyStep_cases env c l with ⟨p, heq⟩ | heq
    · rw [heq] at hle ⊢
      dsimp only at hle ⊢
      exact ⟨by omega, fun _ _ => by omega⟩
    · rw [heq] at hle hlt ⊢
      simp only [length_append, length_singleton] at hle hlt ⊢
      exact ⟨by omega, fun h h' => by have := hlt h h'; omega⟩

theorem materializeLinks_passes {passes : Nat} (t : Tree Text Nat) (written : Nat)
    (h : links.length ≤ passes) :
    materializeLinks env (passes + 1) t written links =
      materializeLinks env passes t written links := by
  induction passes generalizing t written links with
  | zero =>
    rw [length_eq_zero_iff.mp (Nat.le_zero.mp h)]
    rfl
  | succ passes ih =>
    conv_lhs => rw [materializeLinks]
    conv_rhs => rw [materializeLinks]
    split_ifs with hprogressed
    · have hlt := (length_next_run_copyStep env { tree := t, written } links).2 hprogressed rfl
      simp only [length_nil] at hlt
      exact ih _ _ (by omega)
    · rfl

/-- The loop of `materializeLinks` ends: more passes than links change nothing. -/
theorem materializeLinks_ends (env : Env) (t : Tree Text Nat) (written : Nat)
    (links : List PendingLink) (n : Nat) :
    materializeLinks env (links.length + n) t written links =
      materializeLinks env links.length t written links := by
  induction n with
  | zero => rfl
  | succ n ih => exact (materializeLinks_passes t written (Nat.le_add_right _ n)).trans ih

def Entry.bytes (e : Entry) : Nat :=
  match e.kind with
  | .reg size _ => size
  | _ => 0

def Archive.bytes (a : Archive) : Nat := (a.entries.map Entry.bytes).sum

section Small

variable {size : Nat}

end Small

/-- A host without links, with an empty package directory. -/
def mac : Env := { linux := false, root := ["p".toList], hops := 32, evalHops := 255 }

def fresh : Tree Text Nat := Tree.empty.put "p".toList [] .dir

/-- A file of ten bytes, a link to it and one to that link. -/
def linked : Archive :=
  { opens := true
    entries := [⟨"a".toList, .reg 10 false⟩, ⟨"c".toList, .symlink "b".toList⟩,
      ⟨"b".toList, .symlink "a".toList⟩]
    eof := true }

/-- A file as large as is allowed, and a link to it. -/
def copied : Archive :=
  { opens := true
    entries := [⟨"a".toList, .reg maxExtractedBytes false⟩, ⟨"b".toList, .symlink "a".toList⟩]
    eof := true }

end Jerboa.Ops
