import Jerboa.Lib.Links
import Jerboa.Ops.Contained

/-!
# The links of an extraction stay in its directory

A link is checked against the tree as it is when its entry is read.  Where its text
leads up from something that is there, later entries do not change what that means.
Where it leads up from something that is not there yet, they can: the check takes
what is missing for a directory, and a later entry can make it a link.
-/

namespace Jerboa.Ops

open Lib Lib.Run Net.Address

variable {env : Env}

/-! ## What the check relies on -/

/-- Wherever the path leads up, it leads up from something that is there. -/
def climbsFromFound (env : Env) (t : Tree Text Nat) : List Text → List (Comp Text) → Bool
  | _, [] => true
  | cur, .here :: rest => climbsFromFound env t cur rest
  | cur, .name n :: rest => climbsFromFound env t (n :: cur) rest
  | cur, .up :: rest =>
    match t.lstat env.hops env.root cur with
    | .node _ => climbsFromFound env t cur.tail rest
    | _ => false

/-- The entry is not a link that leads up from something that is not there yet. -/
def settled (env : Env) (s : Extraction) (e : Entry) : Bool :=
  match e.kind, e.target (e.strip s.stripPrefix) with
  | .symlink linkname, some target => climbsFromFound env s.tree target.tail (comps linkname)
  | _, _ => true

variable {t : Tree Text Nat}

theorem lstat_eq_node {hops : Nat} {root : List Text} {n : Text} {rel : List Text}
    {x : Node Text Nat} (h : t.lstat hops root (n :: rel) = .node x) :
    ∃ p, Tree.Passes t root (names rel) p ∧ t.node (n :: p) = some x := by
  rw [Tree.lstat] at h
  split at h
  · next p hwalk =>
    split at h
    · cases h
    · next y hnode =>
      cases h
      obtain ⟨m, hm, hhere⟩ := (Tree.passes_of_walk hwalk).split
      have hp := hhere.det (Tree.Passes.head (.here m []) .refl)
      subst hp
      exact ⟨_, hm, hnode⟩
  · cases h
  · cases h

/-- The check follows the text below the package's directory, where the operating
system comes the same way: `pre` was followed from `base` and is at `cur`. -/
theorem grounded_from (hlinks : Tree.LinksGrounded env.root t) {base : List Text}
    {rest : List (Comp Text)} (pre : List (Comp Text)) {cur : List Text}
    (htrack : ∀ q, Tree.Passes t env.root (names cur) q → Tree.Passes t base pre q)
    (hwithin : physicallyWithin env t cur rest = true)
    (hfound : climbsFromFound env t cur rest = true) :
    ∀ mid post, rest = mid ++ .up :: post →
      ∃ q, Tree.Passes t base (pre ++ mid) q ∧ Below env.root q := by
  induction rest generalizing cur pre with
  | nil =>
    intro mid post heq
    cases mid <;> cases heq
  | cons c rest ih =>
    -- A step of the check is a step of the way.
    have hnext : ∀ {cur' : List Text}, physicallyWithin env t cur' rest = true →
        climbsFromFound env t cur' rest = true →
        (∀ q, Tree.Passes t env.root (names cur') q → Tree.Passes t base (pre ++ [c]) q) →
        ∀ mid post, rest = mid ++ .up :: post →
          ∃ q, Tree.Passes t base (pre ++ c :: mid) q ∧ Below env.root q := by
      intro cur' hw hf ht mid post heq
      obtain ⟨q, hq, hbelow⟩ := ih (pre ++ [c]) ht hw hf mid post heq
      rw [List.append_assoc, List.singleton_append] at hq
      exact ⟨q, hq, hbelow⟩
    cases c with
    | here =>
      intro mid post heq
      cases mid with
      | nil => cases heq
      | cons k mid =>
        cases heq
        refine hnext hwithin hfound (fun q hq => ?_) mid post rfl
        exact (htrack q hq).trans (.head (.here q []) .refl)
    | name =>
      intro mid post heq
      cases mid with
      | nil => cases heq
      | cons k mid =>
        cases heq
        refine hnext hwithin hfound (fun q hq => ?_) mid post rfl
        rw [names_cons] at hq
        obtain ⟨m, hm, hlast⟩ := hq.split
        exact (htrack m hm).trans hlast
    | up =>
      rw [climbsFromFound] at hfound
      cases cur with
      | nil => cases hwithin
      | cons n above =>
        rw [physicallyWithin] at hwithin
        cases hlstat : t.lstat env.hops env.root (n :: above) with
        | notExist => rw [hlstat] at hfound; cases hfound
        | failed => rw [hlstat] at hfound; cases hfound
        | node x =>
          rw [hlstat] at hfound hwithin
          have hx : ∀ a text, x ≠ .link a text := by
            rintro a text rfl
            cases hwithin
          obtain ⟨m, hm, hnode⟩ := lstat_eq_node hlstat
          have henter : Tree.Passes t env.root (names (n :: above)) (n :: m) := by
            rw [names_cons]
            exact hm.trans (.head (.enter [] hnode hx) .refl)
          have hbelow : Below env.root (n :: m) := by
            have hin := Tree.moves_inside hlinks (List.suffix_refl _)
              (Tree.good_of_no_up (Tree.up_notMem_names above)) hm
            exact below_cons.mpr hin
          have hrest : physicallyWithin env t above rest = true := by
            cases x with
            | dir => exact hwithin
            | file => exact hwithin
            | link a text => exact absurd rfl (hx a text)
          intro mid post heq
          cases mid with
          | nil =>
            rw [List.append_nil]
            exact ⟨n :: m, htrack _ henter, hbelow⟩
          | cons k mid =>
            cases heq
            refine hnext hrest hfound (fun q hq => ?_) mid post rfl
            rw [hq.det hm]
            exact (htrack _ henter).trans (.head (.up (n :: m) []) .refl)

theorem grounded_of_resolveLinkname (hlinks : Tree.LinksGrounded env.root t)
    {base linkTarget : List Text} {linkname : Text} (hbase : t.isDir (base ++ env.root) = true)
    (h : resolveLinkname env t base linkname = some linkTarget)
    (hfound : climbsFromFound env t base (comps linkname) = true) :
    Tree.Grounded t env.root (base ++ env.root) (comps linkname) := by
  unfold resolveLinkname at h
  split_ifs at h with hname hwithin
  rw [Bool.not_eq_true, Bool.not_eq_false'] at hwithin
  intro mid post heq
  have hdown : Tree.Passes t env.root (names base) (base ++ env.root) :=
    Tree.passes_of_walk (Tree.stat_dir 0 hbase)
  refine grounded_from hlinks [] (fun q hq => ?_) hwithin hfound mid post heq
  rw [hq.det hdown]
  exact .refl

theorem linksGrounded_step (hroot : t.isDir env.root = true) {s : Extraction} {e : Entry}
    (hs : Loop env t s ∧ Tree.LinksGrounded env.root s.tree) (he : settled env s e = true) :
    Loop env t (entryStep env s e) ∧ Tree.LinksGrounded env.root (entryStep env s e).tree := by
  refine ⟨hs.1.step hroot e, ?_⟩
  have hroot' := hs.1.grows.isDir hroot
  rcases entryStep_cases s e hroot' with ⟨p, heq⟩ | ⟨-, target, htarget, hnolink, heq⟩
  · rw [heq]
    exact hs.2
  · rw [heq]
    cases hkind : e.kind with
    | dir => exact hs.2.fills (Tree.mkdirAll_spec s.tree env.hops hnolink hroot').1
    | reg size broken =>
      obtain ⟨t', hfills, hcases⟩ := writeReg_cases
        { s with stripPrefix := e.strip s.stripPrefix } size broken hnolink hroot'
      rcases hcases with ⟨err, heq⟩ | ⟨n, -, err, -, heq⟩
      · rw [writeEntry, heq]
        exact hs.2.fills hfills
      · rw [writeEntry, heq]
        exact hs.2.fills hfills
    | symlink linkname =>
      rcases writeSymlink_cases env { s with stripPrefix := e.strip s.stripPrefix } target linkname
        with heq | ⟨-, ⟨linkTarget, hlink⟩, heq⟩ | ⟨-, linkTarget, heq⟩
      · rw [writeEntry, heq]
        exact hs.2
      · rw [writeEntry, heq]
        refine hs.2.create env.hops hnolink hroot' fun n above hpath hdir => ?_
        rw [settled, hkind, htarget] at he
        subst hpath
        exact grounded_of_resolveLinkname hs.2 hdir hlink he
      · rw [writeEntry, heq]
        exact hs.2
    | other => exact hs.2

/-- After an extraction each of whose links leads up only from what is there, no way
through a link of the package's directory leaves it. -/
theorem links_stay_inside (env : Env) (t : Tree Text Nat) (hroot : t.isDir env.root = true)
    (hlinks : Tree.LinksGrounded env.root t) (a : Archive)
    (hsettled : AllSteps (entryStep env) (fun s e => settled env s e = true) { tree := t }
      a.entries)
    (hok : (extract env t a).err = none) : Tree.StaysInside env.root (extract env t a).tree := by
  refine Tree.staysInside_of_linksGrounded ?_
  obtain ⟨hloop, hgrounded⟩ :=
    run_invariant_of_allSteps (I := fun s => Loop env t s ∧ Tree.LinksGrounded env.root s.tree)
      (fun _ _ hs he => linksGrounded_step hroot hs he) ⟨loop_start t, hlinks⟩ hsettled
  unfold extract at hok ⊢
  split at hok
  · cases hok
  · next hopens =>
    rw [if_neg hopens]
    cases herr : loopErr env t a with
    | some =>
      rw [herr] at hok
      cases hok
    | none =>
      exact hgrounded.fills (materializeLinks_fills _ _ (fun l hl => (hloop.pending l hl).2)
        (hloop.grows.isDir hroot))

/-- A host with links. -/
def linux : Env := { linux := true, root := ["p".toList], hops := 40, evalHops := 255 }

theorem fresh_linksGrounded : Tree.LinksGrounded linux.root fresh := by
  intro n p absolute text _ hnode
  rw [fresh, Tree.node_put rfl rfl] at hnode
  split at hnode <;> cases hnode

def soname : Archive :=
  { opens := true
    entries := [⟨"lib".toList, .dir⟩, ⟨"bin".toList, .dir⟩, ⟨"lib/c.so.1".toList, .reg 3 false⟩,
      ⟨"bin/c.so".toList, .symlink "../lib/c.so.1".toList⟩]
    eof := true }

theorem links_stay_inside_soname :
    (extract linux fresh soname).tree.node ["c.so".toList, "bin".toList, "p".toList] =
      some (.link false [.up, .name "lib".toList, .name "c.so.1".toList]) ∧
    Tree.StaysInside linux.root (extract linux fresh soname).tree :=
  ⟨by decide +kernel, links_stay_inside linux fresh rfl fresh_linksGrounded soname
    (by decide +kernel) (by decide +kernel)⟩

/-- A link that leads up from what the next entry makes a link. -/
def escaping : Archive :=
  { opens := true
    entries := [⟨"l".toList, .symlink "d/../x".toList⟩, ⟨"d".toList, .symlink ".".toList⟩]
    eof := true }

/-- The way through the first link leaves the package's directory. -/
theorem escaping_leaves : (extract linux fresh escaping).err = none ∧
    ¬ Tree.StaysInside linux.root (extract linux fresh escaping).tree := by
  refine ⟨by decide +kernel, fun h => ?_⟩
  have hlink : (extract linux fresh escaping).tree.node ["l".toList, "p".toList] =
      some (.link false [.name "d".toList, .up, .name "x".toList]) := by decide +kernel
  have hfollow : (extract linux fresh escaping).tree.step (["p".toList], [.name "l".toList]) =
      some (["p".toList], [.name "d".toList, .up, .name "x".toList]) := by decide +kernel
  have hdot : (extract linux fresh escaping).tree.step
      (["p".toList], [.name "d".toList, .up, .name "x".toList]) =
      some (["p".toList], [.here, .up, .name "x".toList]) := by decide +kernel
  have hout : (extract linux fresh escaping).tree.Reaches (["p".toList], [.name "l".toList])
      ([], [.name "x".toList]) :=
    .head hfollow (.head hdot (.head rfl (.head rfl .refl)))
  have hin := h "l".toList ["p".toList] false _ (List.suffix_refl _) hlink _ _ hout
  cases List.suffix_nil.mp hin

end Jerboa.Ops
