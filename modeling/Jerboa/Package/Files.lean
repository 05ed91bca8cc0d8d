import Jerboa.Lib.Assoc
import Jerboa.Lib.Except
import Jerboa.Lib.Path
import Jerboa.Net.Address

/-!
# The files of an image

`ValidateFiles` of package `pkg`, with the guest paths it looks at.  A cleaned
guest path is represented by its parts.  Paths are those of Linux, where
`filepath.ToSlash` does nothing.
-/

namespace Jerboa.Package

open Lib Net.Address

structure File where
  hostPath : Text
  guestPath : Text
  isDir : Bool

def base (p : Text) : Text :=
  if p = [] then ['.'] else (Path.fields p).getLastD ['/']

def guestPathOf (f : File) : Text := if f.guestPath ≠ [] then f.guestPath else base f.hostPath

def tarEntryName (guest : Text) : List Text := Path.clean guest

/-- The errors of `ValidateFiles`. -/
inductive FilesErr where
  | unsupportedPlatform (p : Text)
  | unsupportedCharacter (p : Text) (r : Char)
  | invalidGuestPath (p : Text)
  | emptyGuestPath
  | unreadable (hostPath : Text)
  | contentCollision (name : List Text)
  | elf (name : List Text)
  | fileDirCollision (name : List Text)

def validatePlatform (p : Text) : Except FilesErr Unit :=
  throwIf (p ≠ "linux/arm64".toList ∧ p ≠ "linux/amd64".toList) (.unsupportedPlatform p)

def refusedCharacter (r : Char) : Bool :=
  r = '"' || r = '\\' || r.toNat < 0x20 || r.toNat = 0x7f

def checkGuestPath (p : Text) : Except FilesErr Unit :=
  match p.find? refusedCharacter with
  | some r => .error (.unsupportedCharacter p r)
  | none => throwIf (['.', '.'] ∈ Path.split p) (.invalidGuestPath p)

/-- What the checks find on the host: the digest of a file that can be read, and
whether `checkELFPlatform` accepts it. -/
structure Host (δ : Type) where
  fileDigest : Text → Option δ
  elfAccepted : Text → Text → Bool

variable {δ : Type} [DecidableEq δ] (host : Host δ)

structure Guests (δ : Type) where
  seen : List (List Text × δ)
  dirs : List (List Text)

def validateFile (platform : Text) (g : Guests δ) (f : File) : Except FilesErr (Guests δ) := do
  checkGuestPath (guestPathOf f)
  let name := tarEntryName (guestPathOf f)
  throwIf (name = []) .emptyGuestPath
  if f.isDir then
    return { g with dirs := name :: g.dirs }
  else
    match host.fileDigest f.hostPath with
    | none => throw (.unreadable f.hostPath)
    | some sum => do
      throwIf (∃ old, Assoc.find g.seen name = some old ∧ old ≠ sum) (.contentCollision name)
      throwIf (host.elfAccepted f.hostPath platform = false) (.elf name)
      return { g with seen := Assoc.set g.seen name sum }

/-- The directories above a name: `path.Dir` again and again, to the root. -/
def parents (name : List Text) : List (List Text) :=
  (List.range' 1 (name.length - 1)).map fun n => name.take n

def checkCollisions (g : Guests δ) (name : List Text) : Except FilesErr Unit := do
  throwIf (name ∈ g.dirs) (.fileDirCollision name)
  throwIf (∃ parent ∈ parents name, (Assoc.find g.seen parent).isSome) (.fileDirCollision name)

def validateFiles (files : List File) (platform : Text) : Except FilesErr Unit := do
  validatePlatform platform
  let g ← files.foldlM (validateFile host platform) ⟨[], []⟩
  g.seen.forM fun e => checkCollisions g e.1

/-! ## What passes -/

def nameOf (f : File) : List Text := tarEntryName (guestPathOf f)

theorem validateFile_eq_ok {platform : Text} {g g' : Guests δ} {f : File}
    (h : validateFile host platform g f = .ok g') :
    checkGuestPath (guestPathOf f) = .ok () ∧ nameOf f ≠ [] ∧
      ((f.isDir = true ∧ g' = { g with dirs := nameOf f :: g.dirs }) ∨
        (f.isDir = false ∧ ∃ sum, g' = { g with seen := Assoc.set g.seen (nameOf f) sum })) := by
  unfold validateFile at h
  obtain ⟨⟨⟩, hpath, h⟩ := bind_eq_ok.mp h
  obtain ⟨⟨⟩, hname, h⟩ := bind_eq_ok.mp h
  refine ⟨hpath, (throwIf_eq_ok _ _ _).mp hname, ?_⟩
  split at h
  · next hdir =>
    cases h
    exact .inl ⟨hdir, rfl⟩
  · next hdir =>
    refine .inr ⟨Bool.eq_false_iff.mpr hdir, ?_⟩
    split at h
    · cases h
    · next sum hsum =>
      obtain ⟨-, -, h⟩ := bind_eq_ok.mp h
      obtain ⟨-, -, h⟩ := bind_eq_ok.mp h
      cases h
      exact ⟨sum, rfl⟩

theorem foldlM_validateFile {platform : Text} {files : List File} {g g' : Guests δ}
    (h : files.foldlM (validateFile host platform) g = .ok g') :
    (∀ f ∈ files, checkGuestPath (guestPathOf f) = .ok () ∧ nameOf f ≠ []) ∧
      (∀ name, (Assoc.find g'.seen name).isSome ↔
        (Assoc.find g.seen name).isSome ∨ ∃ f ∈ files, f.isDir = false ∧ nameOf f = name) ∧
      ∀ name, name ∈ g'.dirs ↔ name ∈ g.dirs ∨ ∃ f ∈ files, f.isDir = true ∧ nameOf f = name := by
  induction files generalizing g with
  | nil =>
    cases h
    simp
  | cons f files ih =>
    rw [List.foldlM_cons] at h
    obtain ⟨g₁, hfile, hrest⟩ := bind_eq_ok.mp h
    obtain ⟨hpath, hname, hstep⟩ := validateFile_eq_ok host hfile
    obtain ⟨hok, hseen, hdirs⟩ := ih hrest
    refine ⟨List.forall_mem_cons.mpr ⟨⟨hpath, hname⟩, hok⟩, fun name => ?_, fun name => ?_⟩
    · rw [hseen name]
      rcases hstep with ⟨hdir, rfl⟩ | ⟨hdir, sum, rfl⟩
      · simp [hdir]
      · rw [Assoc.find_set]
        by_cases heq : nameOf f = name
        · simp [heq, hdir]
        · simp [heq]
    · rw [hdirs name]
      rcases hstep with ⟨hdir, rfl⟩ | ⟨hdir, sum, rfl⟩
      · simp only [List.mem_cons, exists_eq_or_imp, hdir, true_and, or_assoc]
        rw [or_left_comm, eq_comm]
      · simp [hdir]

theorem mem_parents {name parent : List Text} (hparent : parent ≠ []) (h : parent <+: name)
    (hne : parent ≠ name) : parent ∈ parents name := by
  have hlt : parent.length < name.length :=
    Nat.lt_of_le_of_ne h.length_le fun heq => hne (h.eq_of_length heq)
  have hpos : 0 < parent.length := List.length_pos_iff.mpr hparent
  refine List.mem_map.mpr ⟨parent.length, ?_, ?_⟩
  · rw [List.mem_range'_1]
    omega
  · exact (List.prefix_iff_eq_take.mp h).symm

/-- Files that pass have a guest path each; no two of them stand in each other's
way, and no directory stands at the place of a file. -/
theorem validateFiles_eq_ok {files : List File} {platform : Text}
    (h : validateFiles host files platform = .ok ()) :
    (∀ f ∈ files, checkGuestPath (guestPathOf f) = .ok () ∧ nameOf f ≠ []) ∧
      (∀ f ∈ files, f.isDir = false → ∀ g ∈ files, g.isDir = true → nameOf f ≠ nameOf g) ∧
      ∀ f ∈ files, f.isDir = false → ∀ g ∈ files, g.isDir = false → nameOf f <+: nameOf g →
        nameOf f = nameOf g := by
  unfold validateFiles at h
  obtain ⟨-, -, h⟩ := bind_eq_ok.mp h
  obtain ⟨g, hfold, hcheck⟩ := bind_eq_ok.mp h
  obtain ⟨hok, hseen, hdirs⟩ := foldlM_validateFile host hfold
  have hcollision : ∀ f ∈ files, f.isDir = false → checkCollisions g (nameOf f) = .ok () := by
    intro f hf hfile
    obtain ⟨sum, hsum⟩ :=
      Option.isSome_iff_exists.mp ((hseen (nameOf f)).mpr (.inr ⟨f, hf, hfile, rfl⟩))
    exact forM_eq_ok hcheck _ (Assoc.mem_of_find hsum)
  refine ⟨hok, ?_, ?_⟩
  · intro f hf hfile d hd hdir heq
    obtain ⟨⟨⟩, hfree, -⟩ := bind_eq_ok.mp (hcollision f hf hfile)
    exact (throwIf_eq_ok _ _ _).mp hfree ((hdirs _).mpr (.inr ⟨d, hd, hdir, heq.symm⟩))
  · intro f hf hfile f' hf' hfile' hle
    by_contra hne
    obtain ⟨-, -, hparent⟩ := bind_eq_ok.mp (hcollision f' hf' hfile')
    exact (throwIf_eq_ok _ _ _).mp hparent ⟨nameOf f, mem_parents (hok f hf).2 hle hne,
      (hseen _).mpr (.inr ⟨f, hf, hfile, rfl⟩)⟩

end Jerboa.Package
