import Jerboa.Lib.Path
import Jerboa.Net.Address

/-!
# Paths in a container

`containerFS.resolve` follows a path through the files of a container, and begins again at the
root behind every link.  A POSIX system goes on from where it is.  The index also has devices
and other special files, and only the code goes on through these; and a relative link that is
found under a second name, a hard link, is read by the code from the directory of the first.
-/

namespace Jerboa.Package.Container

open List Lib Net.Address

inductive Entry where
  | symlink (linkname : Text)
  | hardlink (linkname : Text)
  | reg
  | dir
  | special

/-- What `entry` finds under the parts of a path, and which paths are local mappings. -/
structure ContainerFS where
  entry : List Text → Option Entry
  mapped : List Text → Bool := fun _ => false
  root : entry [] ≠ some .reg

def splitAbs (p : Text) : List Text :=
  let cleaned := if p.head? = some '/' then p.tail else p
  if cleaned = [] then [] else Path.split cleaned

inductive ResolveErr where
  | notFound (cur : List Text)
  | tooManyHops
  | notDirectory (cur : List Text)
  | notRegular (final : List Text)

/-- The loop up to a link.  `next` begins it again with what is then to be walked. -/
def walkWith (c : ContainerFS) (next : List Text → Except ResolveErr (List Text)) :
    List Text → List Text → Except ResolveErr (List Text)
  | out, [] => .ok out
  | out, part :: rest =>
    if part = [] ∨ part = ['.'] then walkWith c next out rest
    else if part = ['.', '.'] then walkWith c next out.dropLast rest
    else
      match c.entry (out ++ [part]) with
      | none =>
        if rest = [] then .error (.notFound (out ++ [part]))
        else walkWith c next (out ++ [part]) rest
      | some (.symlink linkname) =>
        next ((if linkname.head? = some '/' then [] else out) ++ (splitAbs linkname ++ rest))
      | some (.hardlink linkname) => next (splitAbs linkname ++ rest)
      | some .reg =>
        if rest = [] then .ok (out ++ [part]) else .error (.notDirectory (out ++ [part]))
      | some _ => walkWith c next (out ++ [part]) rest

def walk (c : ContainerFS) : Nat → List Text → Except ResolveErr (List Text)
  | 0 => walkWith c (fun _ => .error .tooManyHops) []
  | hops + 1 => walkWith c (walk c hops) []

def final (c : ContainerFS) : Except ResolveErr (List Text) → Except ResolveErr (List Text)
  | .error err => .error err
  | .ok out =>
    match c.entry out with
    | none => .error (.notFound out)
    | some .reg => .ok out
    | some _ => .error (.notRegular out)

def maxSymlinkHops : Nat := 40

def resolve (c : ContainerFS) (p : Text) : Except ResolveErr (List Text) :=
  if c.mapped (Path.clean p) then .ok (Path.clean p)
    else final c (walk c maxSymlinkHops (splitAbs p))

/-- What resolution by POSIX comes to: a regular file, a special file where a directory has to
be, or anything else; `relinked` is the file, if any, behind a relative link that was found
under a hard link. -/
inductive Outcome where
  | file (path : List Text)
  | special
  | relinked (path : Option (List Text))
  | other
deriving DecidableEq

/-- The regular file at which resolution ends. -/
def Outcome.path : Outcome → Option (List Text)
  | .file path => some path
  | .relinked path => path
  | _ => none

/-- No special file stood in place of a directory, and no relative link was found under a hard
link. -/
def Outcome.ordinary : Outcome → Bool
  | .special => false
  | .relinked _ => false
  | _ => true

/-- The parts of a path.  One that a hard link stands for has the directory of the hard link,
from which a relative link found there is read. -/
abbrev Parts := List (Text × Option (List Text))

def plain (parts : List Text) : Parts := parts.map (·, none)

def linked (d : List Text) : List Text → Parts
  | [] => []
  | [part] => [(part, some d)]
  | part :: rest => (part, none) :: linked d rest

/-- From a directory up to a link, behind which `next` goes on from a directory. -/
def posixWith (c : ContainerFS) (next : List Text → Parts → Outcome) : List Text → Parts → Outcome
  | _, [] => .other
  | d, (part, origin) :: rest =>
    if part = [] ∨ part = ['.'] then posixWith c next d rest
    else if part = ['.', '.'] then posixWith c next d.dropLast rest
    else
      match c.entry (d ++ [part]) with
      | none | some .dir => posixWith c next (d ++ [part]) rest
      | some (.symlink linkname) =>
        let work := plain (splitAbs linkname) ++ rest
        if linkname.head? = some '/' then next [] work
        else
          match origin with
          | none => next d work
          | some d => .relinked (next d work).path
      | some (.hardlink linkname) => next [] (linked (origin.getD d) (splitAbs linkname) ++ rest)
      | some .reg => if rest = [] then .file (d ++ [part]) else .other
      | some .special => if rest = [] then .other else .special

def posix (c : ContainerFS) : Nat → List Text → Parts → Outcome
  | 0 => posixWith c fun _ _ => .other
  | links + 1 => posixWith c (posix c links)

/-- A name, and not a way back or to where one is. -/
def IsName (part : Text) : Prop := part ≠ [] ∧ part ≠ ['.'] ∧ part ≠ ['.', '.']

/-- The parts lead from the root through directories only. -/
def Dirs (c : ContainerFS) (d : List Text) : Prop :=
  ∀ pre part, pre ++ [part] <+: d →
    IsName part ∧ (c.entry (pre ++ [part]) = none ∨ c.entry (pre ++ [part]) = some .dir)

def IsFile (c : ContainerFS) (q : List Text) : Prop :=
  ∃ d part, q = d ++ [part] ∧ Dirs c d ∧ IsName part ∧ c.entry q = some .reg

/-- The code and POSIX come to the same, unless a special file is in the way or a relative link
has a second name. -/
def Agrees (c : ContainerFS) (r : Except ResolveErr (List Text)) : Outcome → Prop
  | .file q => final c r = .ok q ∧ IsFile c q
  | .special => True
  | .relinked _ => True
  | .other => ∀ q, final c r ≠ .ok q

variable {c : ContainerFS} {d out work : List Text} {part : Text}

theorem map_plain (parts : List Text) : (plain parts).map Prod.fst = parts := by
  simp [plain, Function.comp_def]

theorem map_linked (parts : List Text) : (linked d parts).map Prod.fst = parts := by
  fun_induction linked d parts with
  | case1 => rfl
  | case2 => rfl
  | case3 part rest _ ih => rw [map_cons, ih]

theorem dirs_nil : Dirs c [] := fun pre part h => by simp at h

theorem Dirs.mono (h : Dirs c d) (hout : out <+: d) : Dirs c out :=
  fun pre part hpre => h pre part (hpre.trans hout)

theorem Dirs.concat (h : Dirs c d) (hpart : IsName part)
    (hentry : c.entry (d ++ [part]) = none ∨ c.entry (d ++ [part]) = some .dir) :
    Dirs c (d ++ [part]) := by
  intro pre x hpre
  rcases prefix_concat_iff.mp hpre with heq | hpre
  · obtain ⟨rfl, hx⟩ := append_inj' heq rfl
    cases hx
    exact ⟨hpart, hentry⟩
  · exact h pre x hpre

theorem Dirs.final_ne (h : Dirs c d) (q : List Text) : final c (.ok d) ≠ .ok q := by
  rcases eq_nil_or_concat' d with rfl | ⟨pre, part, rfl⟩
  · have hroot := c.root
    rw [final]
    split <;> simp_all
  · rcases (h pre part prefix_rfl).2 with hentry | hentry <;> simp [final, hentry]

theorem walkWith_name {next : List Text → Except ResolveErr (List Text)} (hpart : IsName part)
    (hentry : c.entry (out ++ [part]) = none ∨ c.entry (out ++ [part]) = some .dir)
    (hwork : work ≠ []) :
    walkWith c next out (part :: work) = walkWith c next (out ++ [part]) work := by
  rw [walkWith, if_neg (not_or.mpr ⟨hpart.1, hpart.2.1⟩), if_neg hpart.2.2]
  rcases hentry with hentry | hentry <;> simp [hentry, hwork]

/-- Walking again through directories comes to where the walk was. -/
theorem agrees_rewalk {next : List Text → Except ResolveErr (List Text)} {o : Outcome}
    (h : Dirs c (out ++ d)) (hagrees : Agrees c (walkWith c next (out ++ d) work) o) :
    Agrees c (walkWith c next out (d ++ work)) o := by
  induction d generalizing out with
  | nil => rwa [append_nil] at hagrees
  | cons part d ih =>
    rw [append_cons] at h hagrees
    obtain ⟨hpart, hentry⟩ := h out part (prefix_append _ _)
    by_cases hwork : d ++ work = []
    · obtain ⟨rfl, rfl⟩ := append_eq_nil_iff.mp hwork
      rw [append_nil] at h hagrees
      have hfails := h.final_ne
      cases o with
      | file q => exact absurd hagrees.1 (hfails q)
      | special | relinked => trivial
      | other =>
        rw [append_nil, walkWith, if_neg (not_or.mpr ⟨hpart.1, hpart.2.1⟩), if_neg hpart.2.2]
        rcases hentry with hentry | hentry
        · simp [hentry, Agrees, final]
        · simp only [hentry]
          exact hfails
    · rw [cons_append, walkWith_name hpart hentry hwork]
      exact ih h hagrees

theorem agrees_walkWith {next : List Text → Except ResolveErr (List Text)} {parts : Parts}
    {go : List Text → Parts → Outcome}
    (hnext : ∀ d parts, Dirs c d → Agrees c (next (d ++ parts.map Prod.fst)) (go d parts))
    (h : Dirs c d) :
    Agrees c (walkWith c next d (parts.map Prod.fst)) (posixWith c go d parts) := by
  induction parts generalizing d with
  | nil => exact h.final_ne
  | cons head rest ih =>
    obtain ⟨part, origin⟩ := head
    rw [map_cons, walkWith, posixWith]
    by_cases hhere : part = [] ∨ part = ['.']
    · rw [if_pos hhere, if_pos hhere]
      exact ih h
    rw [if_neg hhere, if_neg hhere]
    by_cases hup : part = ['.', '.']
    · have hprefix : d.dropLast <+: d := dropLast_prefix d
      rw [if_pos hup, if_pos hup]
      exact ih (h.mono hprefix)
    rw [if_neg hup, if_neg hup]
    have hpart : IsName part := ⟨(not_or.mp hhere).1, (not_or.mp hhere).2, hup⟩
    have hlink := fun d linkname => hnext d (plain (splitAbs linkname) ++ rest)
    simp only [map_append, map_plain] at hlink
    cases hentry : c.entry (d ++ [part]) with
    | none =>
      by_cases hrest : rest = []
      · subst hrest
        exact fun q => by simp [final]
      · simp only [map_eq_nil_iff, if_neg hrest]
        exact ih (h.concat hpart (.inl hentry))
    | some e =>
      cases e with
      | symlink linkname =>
        by_cases habs : linkname.head? = some '/'
        · simp only [if_pos habs]
          exact hlink [] linkname dirs_nil
        · simp only [if_neg habs]
          cases origin with
          | none => exact hlink d linkname h
          | some => trivial
      | hardlink linkname =>
        have hhard := hnext [] (linked (origin.getD d) (splitAbs linkname) ++ rest) dirs_nil
        rwa [map_append, map_linked] at hhard
      | reg =>
        by_cases hrest : rest = []
        · subst hrest
          exact ⟨by simp [final, hentry], d, part, rfl, h, hpart, hentry⟩
        · simp only [map_eq_nil_iff, if_neg hrest]
          exact fun q => by simp [final]
      | dir => exact ih (h.concat hpart (.inr hentry))
      | special =>
        by_cases hrest : rest = []
        · subst hrest
          exact fun q => by simp [walkWith, final, hentry]
        · simp only [if_neg hrest]
          trivial

theorem agrees_walk {parts : Parts} (hops : Nat) (h : Dirs c d) :
    Agrees c (walk c hops (d ++ parts.map Prod.fst)) (posix c hops d parts) := by
  induction hops generalizing d parts with
  | zero => exact agrees_rewalk h (agrees_walkWith (fun _ _ _ q => by simp [final]) h)
  | succ hops ih => exact agrees_rewalk h (agrees_walkWith (fun _ _ => ih) h)

/-- A path that is no local mapping resolves as by POSIX, to a path through directories, unless
POSIX finds a special file in place of a directory, or a relative link under a hard link. -/
theorem resolve_posix (c : ContainerFS) (p : Text) (hp : c.mapped (Path.clean p) = false)
    (hordinary : (posix c maxSymlinkHops [] (plain (splitAbs p))).ordinary = true) :
    ∀ q, (resolve c p = .ok q ↔
        (posix c maxSymlinkHops [] (plain (splitAbs p))).path = some q) ∧
      (resolve c p = .ok q → IsFile c q) := by
  have hagrees : Agrees c (walk c maxSymlinkHops ([] ++ (plain (splitAbs p)).map Prod.fst))
      (posix c maxSymlinkHops [] (plain (splitAbs p))) := agrees_walk maxSymlinkHops dirs_nil
  rw [nil_append, map_plain] at hagrees
  rw [resolve, hp, if_neg Bool.false_ne_true]
  intro q
  cases hposix : posix c maxSymlinkHops [] (plain (splitAbs p)) with
  | file =>
    rw [hposix] at hagrees
    rw [hagrees.1, Except.ok.injEq]
    refine ⟨by simp [Outcome.path], ?_⟩
    rintro rfl
    exact hagrees.2
  | special | relinked =>
    rw [hposix] at hordinary
    cases hordinary
  | other =>
    rw [hposix] at hagrees
    exact ⟨by simpa [Outcome.path] using hagrees q, fun hq => absurd hq (hagrees q)⟩

/-- A device, a file, a link to its directory, and a relative link with a second name elsewhere. -/
def sample : ContainerFS where
  entry
    | [['d']] => some .special
    | [['b']] => some .reg
    | [['l']] => some (.symlink "/x/..".toList)
    | [['a'], ['l']] => some (.symlink "f".toList)
    | [['a'], ['f']] => some .reg
    | [['c'], ['h']] => some (.hardlink "a/l".toList)
    | [['c'], ['f']] => some .reg
    | _ => none
  root := by simp

theorem resolve_posix_link : resolve sample "l/a/l".toList = .ok [['a'], ['f']] :=
  (resolve_posix sample "l/a/l".toList rfl (by decide +kernel) [['a'], ['f']]).1.mpr
    (by decide +kernel)

/-- Through the device POSIX comes to no file, and through the hard link to the one beside it. -/
theorem device_entered :
    (resolve sample "/d/../b".toList = .ok [['b']] ∧
      posix sample maxSymlinkHops [] (plain (splitAbs "/d/../b".toList)) = .special) ∧
      resolve sample "/c/h".toList = .ok [['a'], ['f']] ∧
      posix sample maxSymlinkHops [] (plain (splitAbs "/c/h".toList)) =
        .relinked (some [['c'], ['f']]) :=
  ⟨⟨rfl, rfl⟩, rfl, rfl⟩

end Jerboa.Package.Container
