import Jerboa.Lib.Assoc
import Mathlib.Data.List.Infix
import Mathlib.Data.List.Nodup
import Mathlib.Data.List.Perm.Subperm

/-!
# File trees

Directories, files and symbolic links, and how an operating system finds its way
among them.  A place is the list of the names that lead to it, the last one first,
so that the directory a place is in is its tail.  What a tree holds lies in a
directory of the tree.
-/

namespace Jerboa.Lib

open List

inductive Comp (ν : Type) where
  | here
  | up
  | name (n : ν)
deriving DecidableEq

/-- A link holds the path it leads to, which starts at the top of the tree or at the
directory the link is in. -/
inductive Node (ν β : Type) where
  | dir
  | file (content : β)
  | link (absolute : Bool) (text : List (Comp ν))
deriving DecidableEq

def isDirNode {ν β : Type} : Option (Node ν β) → Bool
  | some .dir => true
  | _ => false

theorem isDirNode_iff {ν β : Type} {x : Option (Node ν β)} :
    isDirNode x = true ↔ x = some .dir := by
  unfold isDirNode
  split <;> simp_all

structure Tree (ν β : Type) [DecidableEq ν] where
  nodes : List (List ν × Node ν β)
  closed : ∀ n p, Assoc.find nodes (n :: p) ≠ none →
    p = [] ∨ isDirNode (Assoc.find nodes p) = true

def names {ν : Type} (rel : List ν) : List (Comp ν) := rel.reverse.map .name

variable {ν β : Type} {root rel p : List ν} {n : ν}

theorem names_cons (n : ν) (rel : List ν) : names (n :: rel) = names rel ++ [.name n] := by
  simp [names]

namespace Tree

variable [DecidableEq ν] {t : Tree ν β}

def node (t : Tree ν β) (p : List ν) : Option (Node ν β) := Assoc.find t.nodes p

def isDir (t : Tree ν β) (p : List ν) : Bool := p.isEmpty || isDirNode (t.node p)

def isFile (t : Tree ν β) (p : List ν) : Bool :=
  match t.node p with
  | some (.file _) => true
  | _ => false

theorem isDir_cons :
    t.isDir (n :: p) = true ↔ t.node (n :: p) = some .dir :=
  isDirNode_iff

theorem isFile_iff :
    t.isFile p = true ↔ ∃ c, t.node p = some (.file c) := by
  unfold isFile
  split
  · next c h => simp [h]
  · next h => simpa using h

theorem isDir_of_node (h : t.node (n :: p) ≠ none) :
    t.isDir p = true := by
  rcases t.closed n p h with rfl | hdir
  · rfl
  · exact Bool.or_eq_true_iff.mpr (.inr hdir)

theorem isDir_of_cons (h : t.isDir (n :: p) = true) :
    t.isDir p = true :=
  isDir_of_node (by rw [isDir_cons.mp h]; exact Option.some_ne_none _)

/-- The tree with nothing in it. -/
def empty : Tree ν β := ⟨[], fun _ _ h => absurd rfl h⟩

/-- Puts a node into a directory, also in place of one that is no directory. -/
def put (t : Tree ν β) (n : ν) (p : List ν) (x : Node ν β) : Tree ν β :=
  if h : t.isDir p = true ∧ t.isDir (n :: p) = false then
    { nodes := Assoc.set t.nodes (n :: p) x
      closed := by
        intro m q hfound
        rw [Assoc.find_set] at hfound ⊢
        split at hfound
        · next heq =>
          cases heq
          rw [if_neg (cons_ne_self n p)]
          cases p with
          | nil => exact .inl rfl
          | cons => exact .inr h.1
        · rcases t.closed m q hfound with rfl | hdir
          · exact .inl rfl
          · refine .inr ?_
            rw [if_neg]
            · exact hdir
            · rintro rfl
              exact Bool.false_ne_true (h.2.symm.trans hdir) }
  else t

theorem node_put (hp : t.isDir p = true) (hn : t.isDir (n :: p) = false) (x : Node ν β)
    (q : List ν) :
    (t.put n p x).node q = if n :: p = q then some x else t.node q := by
  rw [put, dif_pos ⟨hp, hn⟩]
  exact Assoc.find_set t.nodes (n :: p) q x

def removeAll (t : Tree ν β) (p : List ν) : Tree ν β where
  nodes := t.nodes.filter fun e => ¬ p <:+ e.1
  closed := by
    intro n q hfound
    rw [Assoc.find_filter t.nodes fun q => ¬ p <:+ q] at hfound ⊢
    split at hfound
    · next hkeep =>
      rw [decide_eq_true_iff] at hkeep
      have hq : decide (¬ p <:+ q) = true := by
        rw [decide_eq_true_iff]
        exact fun hq => hkeep (hq.trans (suffix_cons n q))
      rw [if_pos hq]
      exact t.closed n q hfound
    · exact absurd rfl hfound

/-- The names in a directory. -/
def entries (t : Tree ν β) (p : List ν) : List ν :=
  t.nodes.filterMap fun e =>
    match e.1 with
    | [] => none
    | n :: q => if q = p then some n else none

/-- Where a path leads.  If something on it is absent, the rest of the path is told
as well. -/
inductive Outcome (ν : Type) where
  | found (p : List ν)
  | absent (p : List ν) (rest : List (Comp ν))
  | notDir
  | loop
deriving DecidableEq

def walkWith (t : Tree ν β) (next : List ν → List (Comp ν) → Outcome ν) :
    List ν → List (Comp ν) → Outcome ν
  | p, [] => .found p
  | p, .here :: rest => walkWith t next p rest
  | p, .up :: rest => walkWith t next p.tail rest
  | p, .name n :: rest =>
    match t.node (n :: p) with
    | none => .absent (n :: p) rest
    | some .dir => walkWith t next (n :: p) rest
    | some (.file _) => if rest = [] then .found (n :: p) else .notDir
    | some (.link absolute text) => next (if absolute then [] else p) (text ++ rest)

def walk (t : Tree ν β) : Nat → List ν → List (Comp ν) → Outcome ν
  | 0 => walkWith t fun _ _ => .loop
  | hops + 1 => walkWith t (walk t hops)

/-- One move of the operating system on its way: from a directory, by the first part
of the path that is left. -/
def step (t : Tree ν β) : List ν × List (Comp ν) → Option (List ν × List (Comp ν))
  | (_, []) => none
  | (p, .here :: rest) => some (p, rest)
  | (p, .up :: rest) => some (p.tail, rest)
  | (p, .name n :: rest) =>
    match t.node (n :: p) with
    | none => none
    | some .dir => some (n :: p, rest)
    | some (.file _) => if rest = [] then some (n :: p, []) else none
    | some (.link absolute text) => some (if absolute then [] else p, text ++ rest)

def Reaches (t : Tree ν β) : List ν × List (Comp ν) → List ν × List (Comp ν) → Prop :=
  Relation.ReflTransGen fun s s' => t.step s = some s'

inductive Lstat (ν β : Type) where
  | node (x : Node ν β)
  | notExist
  | failed

def lstat (t : Tree ν β) (hops : Nat) (root : List ν) : List ν → Lstat ν β
  | [] => .node .dir
  | n :: rel =>
    match t.walk hops root (names rel ++ [.here]) with
    | .found p =>
      match t.node (n :: p) with
      | none => .notExist
      | some x => .node x
    | .absent _ _ => .notExist
    | _ => .failed

def stat (t : Tree ν β) (hops : Nat) (root rel : List ν) : Outcome ν := t.walk hops root (names rel)

/-- A new node in a directory below `root`, where there is none. -/
def create (t : Tree ν β) (hops : Nat) (root : List ν) (x : Node ν β) : List ν → Tree ν β × Bool
  | [] => (t, false)
  | n :: rel =>
    match t.walk hops root (names rel ++ [.here]) with
    | .found p => if (t.node (n :: p)).isNone then (t.put n p x, true) else (t, false)
    | _ => (t, false)

def mkdir (t : Tree ν β) (hops : Nat) (root rel : List ν) : Tree ν β × Bool :=
  let made := t.create hops root .dir rel
  if made.2 then made
  else
    match made.1.lstat hops root rel with
    | .node .dir => (made.1, true)
    | _ => (made.1, false)

/-- `os.MkdirAll`.  A call that fails may have made some of the directories. -/
def mkdirAll (t : Tree ν β) (hops : Nat) (root : List ν) : List ν → Tree ν β × Bool
  | [] => (t, true)
  | n :: rel =>
    match t.stat hops root (n :: rel) with
    | .found p => (t, !t.isFile p)
    | _ =>
      let above := mkdirAll t hops root rel
      if above.2 then above.1.mkdir hops root (n :: rel) else above

/-- Opens a file, makes it if there is none, and writes it.  A link is followed. -/
def write (t : Tree ν β) (hops : Nat) (root rel : List ν) (c : β) : Tree ν β × Bool :=
  match t.stat hops root rel with
  | .found (n :: p) => if t.isFile (n :: p) then (t.put n p (.file c), true) else (t, false)
  | .absent (n :: p) [] => (t.put n p (.file c), true)
  | _ => (t, false)

/-! ## Ways down directories -/

theorem isDir_of_append {a p : List ν} (h : t.isDir (a ++ p) = true) :
    t.isDir p = true := by
  induction a with
  | nil => exact h
  | cons m a ih => exact ih (isDir_of_cons h)

theorem walkWith_names (next : List ν → List (Comp ν) → Outcome ν)
    (h : t.isDir (rel ++ root) = true) (rest : List (Comp ν)) :
    t.walkWith next root (names rel ++ rest) = t.walkWith next (rel ++ root) rest := by
  induction rel generalizing rest with
  | nil => rfl
  | cons n rel ih =>
    rw [names_cons, append_assoc, ih (isDir_of_cons h), singleton_append, walkWith]
    rw [cons_append, isDir_cons] at h
    rw [h]
    rfl

theorem walk_names (hops : Nat) (h : t.isDir (rel ++ root) = true) (rest : List (Comp ν)) :
    t.walk hops root (names rel ++ rest) = t.walk hops (rel ++ root) rest := by
  cases hops with
  | zero | succ => exact walkWith_names _ h rest

theorem walk_names_here (hops : Nat) (h : t.isDir (rel ++ root) = true) :
    t.walk hops root (names rel ++ [.here]) = .found (rel ++ root) := by
  rw [walk_names hops h]
  cases hops <;> rfl

theorem lstat_cons (hops : Nat) (h : t.isDir (rel ++ root) = true) (n : ν) :
    t.lstat hops root (n :: rel) =
      match t.node (n :: (rel ++ root)) with
      | none => .notExist
      | some x => .node x := by
  rw [lstat, walk_names_here hops h]

theorem stat_cons (hops : Nat) (h : t.isDir (rel ++ root) = true) (n : ν) (rest : List (Comp ν)) :
    (t.node (n :: (rel ++ root)) = none →
      t.walk hops root (names (n :: rel) ++ rest) = .absent (n :: (rel ++ root)) rest) ∧
    (∀ c, t.node (n :: (rel ++ root)) = some (.file c) →
      t.stat hops root (n :: rel) = .found (n :: (rel ++ root))) := by
  refine ⟨fun hnone => ?_, fun c hfile => ?_⟩
  · rw [names_cons, append_assoc, walk_names hops h]
    cases hops <;> simp [walk, walkWith, hnone]
  · rw [stat, names_cons, walk_names hops h]
    cases hops <;> simp [walk, walkWith, hfile]

theorem stat_dir (hops : Nat) (h : t.isDir (rel ++ root) = true) :
    t.stat hops root rel = .found (rel ++ root) := by
  have hwalk := walk_names hops h []
  rw [append_nil] at hwalk
  rw [stat, hwalk]
  cases hops <;> rfl

/-- No link is on the way to `rel` below `root`, and none is there. -/
def NoLink (t : Tree ν β) (root rel : List ν) : Prop :=
  ∀ p, p <:+ rel → p ≠ [] → ∀ absolute text, t.node (p ++ root) ≠ some (.link absolute text)

theorem noLink_nil (t : Tree ν β) (root : List ν) : NoLink t root [] := by
  intro p hp hne
  exact absurd (suffix_nil.mp hp) hne

theorem NoLink.tail (h : NoLink t root rel) :
    NoLink t root rel.tail :=
  fun p hp => h p (hp.trans (tail_suffix rel))

theorem NoLink.cons (h : NoLink t root rel)
    (hn : ∀ absolute text, t.node (n :: (rel ++ root)) ≠ some (.link absolute text)) :
    NoLink t root (n :: rel) := by
  intro p hp hne
  rcases suffix_cons_iff.mp hp with rfl | hp
  · exact hn
  · exact h p hp hne

theorem NoLink.append (h : NoLink t root (n :: rel)) (hn : t.isDir (n :: (rel ++ root)) = false)
    (below : List ν) :
    NoLink t root (below ++ n :: rel) := by
  induction below with
  | nil => exact h
  | cons m below ih =>
    refine ih.cons fun absolute text hlink => ?_
    have habove := isDir_of_node (hlink ▸ Option.some_ne_none _)
    rw [append_assoc] at habove
    exact Bool.false_ne_true (hn.symm.trans (isDir_of_append habove))

/-- A path that leads nowhere: on into a file, or to nothing in a directory on the
way to `rel` below `root`. -/
def Nowhere (t : Tree ν β) (root rel : List ν) (x : Outcome ν) : Prop :=
  x = .notDir ∨ ∃ n above rest, n :: above <:+ rel ∧ t.isDir (above ++ root) = true ∧
    t.node (n :: (above ++ root)) = none ∧ x = .absent (n :: (above ++ root)) rest

theorem not_nowhere_found (t : Tree ν β) (root rel p : List ν) :
    ¬ Nowhere t root rel (.found p) := by
  rintro (h | ⟨_, _, _, -, -, -, h⟩) <;> cases h

theorem Nowhere.cons {x : Outcome ν} (h : Nowhere t root rel x) (n : ν) :
    Nowhere t root (n :: rel) x := by
  rcases h with h | ⟨m, above, rest, hway, h⟩
  · exact .inl h
  · exact .inr ⟨m, above, rest, hway.trans (suffix_cons n rel), h⟩

theorem NoLink.cases (h : NoLink t root rel) (hroot : t.isDir root = true) :
    t.isDir (rel ++ root) = true ∨
      (t.isFile (rel ++ root) = true ∧ ∀ hops, t.stat hops root rel = .found (rel ++ root) ∧
        ∀ c rest, t.walk hops root (names rel ++ c :: rest) = .notDir) ∨
      ∀ hops rest, Nowhere t root rel (t.walk hops root (names rel ++ rest)) := by
  induction rel with
  | nil => exact .inl hroot
  | cons n rel ih =>
    rcases ih h.tail with hdir | ⟨-, hfile⟩ | hnot
    · cases hnode : t.node (n :: (rel ++ root)) with
      | none =>
        refine .inr (.inr fun hops rest => .inr ⟨n, rel, rest, suffix_refl _, hdir, hnode, ?_⟩)
        exact (stat_cons hops hdir n rest).1 hnode
      | some x =>
        cases x with
        | dir => exact .inl (isDir_cons.mpr hnode)
        | file c =>
          refine .inr (.inl ⟨isFile_iff.mpr ⟨c, hnode⟩, fun hops => ?_⟩)
          refine ⟨(stat_cons hops hdir n []).2 c hnode, fun k rest => ?_⟩
          rw [names_cons, append_assoc, walk_names hops hdir]
          cases hops <;> simp [walk, walkWith, hnode]
        | link =>
          exact absurd hnode (h (n :: rel) (suffix_refl _) (cons_ne_nil n rel) _ _)
    · refine .inr (.inr fun hops rest => .inl ?_)
      rw [names_cons, append_assoc, singleton_append, (hfile hops).2]
    · refine .inr (.inr fun hops rest => ?_)
      rw [names_cons, append_assoc]
      exact (hnot hops _).cons n

theorem isFile_false_of_isDir (h : t.isDir (n :: p) = true) :
    t.isFile (n :: p) = false := by
  rw [← Bool.not_eq_true, isFile_iff, isDir_cons.mp h]
  simp

/-! ## What calls change -/

end Tree

def Node.kind {ν β : Type} : Node ν β → Node ν Unit
  | .dir => .dir
  | .file _ => .file ()
  | .link absolute text => .link absolute text

/-- `p` is below `root`. -/
def Below {ν : Type} (root p : List ν) : Prop := p ≠ [] ∧ root <:+ p.tail

/-- `p` is on the way from `root` to `rel` below it, or is that place. -/
def OnWay {ν : Type} (root rel p : List ν) : Prop := ∃ q, q ≠ [] ∧ q <:+ rel ∧ p = q ++ root

theorem below_cons : Below root (n :: p) ↔ root <:+ p :=
  ⟨fun h => h.2, fun h => ⟨cons_ne_nil n p, h⟩⟩

theorem OnWay.below (h : OnWay root rel p) : Below root p := by
  obtain ⟨q, hne, -, rfl⟩ := h
  cases q with
  | nil => exact absurd rfl hne
  | cons n q => exact below_cons.mpr (suffix_append q root)

theorem OnWay.cons (h : OnWay root rel p) (n : ν) : OnWay root (n :: rel) p := by
  obtain ⟨q, hne, hq, rfl⟩ := h
  exact ⟨q, hne, hq.trans (suffix_cons n rel), rfl⟩

theorem OnWay.of_tail (h : OnWay root rel.tail p) : OnWay root rel p := by
  obtain ⟨q, hne, hq, rfl⟩ := h
  exact ⟨q, hne, hq.trans (tail_suffix rel), rfl⟩

theorem onWay_self (root : List ν) (n : ν) (rel : List ν) :
    OnWay root (n :: rel) (n :: (rel ++ root)) :=
  ⟨n :: rel, cons_ne_nil n rel, suffix_refl _, rfl⟩

namespace Tree

variable [DecidableEq ν] {t : Tree ν β}

/-- Nothing changes but in the region `R`, and there nothing vanishes or turns into
something of another kind. -/
structure Grows (R : List ν → Prop) (t t' : Tree ν β) : Prop where
  outside : ∀ p, ¬ R p → t'.node p = t.node p
  kind : ∀ p x, t.node p = some x → (t'.node p).map Node.kind = some x.kind

structure Fills (R : List ν → Prop) (t t' : Tree ν β) : Prop extends Grows R t t' where
  links : ∀ p absolute text, t'.node p = some (.link absolute text) →
    t.node p = some (.link absolute text)

variable {R R' : List ν → Prop}

theorem Grows.refl (R : List ν → Prop) (t : Tree ν β) : Grows R t t :=
  ⟨fun _ _ => rfl, fun p x h => by rw [h]; rfl⟩

theorem Grows.trans {t t' t'' : Tree ν β} (h : Grows R t t') (h' : Grows R t' t'') :
    Grows R t t'' := by
  refine ⟨fun p hp => (h'.outside p hp).trans (h.outside p hp), fun p x hx => ?_⟩
  obtain ⟨y, hy, hkind⟩ := Option.map_eq_some_iff.mp (h.kind p x hx)
  rw [h'.kind p y hy, hkind]

theorem Grows.mono (hR : ∀ p, R p → R' p) {t t' : Tree ν β} (h : Grows R t t') : Grows R' t t' :=
  ⟨fun p hp => h.outside p fun hin => hp (hR p hin), h.kind⟩

theorem Fills.refl (R : List ν → Prop) (t : Tree ν β) : Fills R t t :=
  ⟨.refl R t, fun _ _ _ h => h⟩

theorem Fills.mono (hR : ∀ p, R p → R' p) {t t' : Tree ν β} (h : Fills R t t') : Fills R' t t' :=
  ⟨h.toGrows.mono hR, h.links⟩

theorem Fills.trans {t t' t'' : Tree ν β} (h : Fills R t t') (h' : Fills R t' t'') :
    Fills R t t'' :=
  ⟨h.toGrows.trans h'.toGrows, fun p a text hl => h.links p a text (h'.links p a text hl)⟩

theorem Grows.below {t t' : Tree ν β} (h : Grows (OnWay root rel) t t') :
    Grows (Below root) t t' :=
  h.mono fun _ hp => hp.below

theorem Fills.below {t t' : Tree ν β} (h : Fills (OnWay root rel) t t') :
    Fills (Below root) t t' :=
  h.mono fun _ hp => hp.below

theorem Grows.isDir {t t' : Tree ν β} (h : Grows R t t') (hp : t.isDir p = true) :
    t'.isDir p = true := by
  cases p with
  | nil => rfl
  | cons =>
    obtain ⟨y, hy, hkind⟩ := Option.map_eq_some_iff.mp (h.kind _ _ (isDir_cons.mp hp))
    cases y with
    | dir => exact isDir_cons.mpr hy
    | file => cases hkind
    | link => cases hkind

theorem Fills.noLink {t t' : Tree ν β} (h : Fills R t t') (hrel : NoLink t root rel) :
    NoLink t' root rel :=
  fun p hp hne a text hlink => hrel p hp hne a text (h.links _ a text hlink)

variable {x : Node ν β}

theorem grows_put (hR : R (n :: p)) (hp : t.isDir p = true) (hn : t.isDir (n :: p) = false)
    (hold : ∀ y, t.node (n :: p) = some y → y.kind = x.kind) : Grows R t (t.put n p x) := by
  refine ⟨fun q hq => ?_, fun q y hy => ?_⟩
  · rw [node_put hp hn, if_neg]
    rintro rfl
    exact hq hR
  · rw [node_put hp hn]
    split
    · next heq =>
      subst heq
      rw [Option.map_some, hold y hy]
    · rw [hy, Option.map_some]

theorem fills_put (hR : R (n :: p)) (hp : t.isDir p = true) (hn : t.isDir (n :: p) = false)
    (hold : ∀ y, t.node (n :: p) = some y → y.kind = x.kind)
    (hx : ∀ absolute text, x ≠ .link absolute text) : Fills R t (t.put n p x) := by
  refine ⟨grows_put hR hp hn hold, fun q a text hq => ?_⟩
  rw [node_put hp hn] at hq
  split at hq
  · exact absurd (Option.some.inj hq) (hx a text)
  · exact hq

theorem isDir_false_of_none (h : t.node (n :: p) = none) :
    t.isDir (n :: p) = false := by
  rw [← Bool.not_eq_true, isDir_cons, h]
  simp

theorem isDir_false_of_file (h : t.isFile (n :: p) = true) :
    t.isDir (n :: p) = false := by
  obtain ⟨c, hc⟩ := isFile_iff.mp h
  rw [← Bool.not_eq_true, isDir_cons, hc]
  simp

theorem fills_put_dir (hR : R (n :: p)) (h : t.isDir p = true) (hnone : t.node (n :: p) = none) :
    Fills R t (t.put n p .dir) ∧ (t.put n p .dir).isDir (n :: p) = true := by
  have hn := isDir_false_of_none hnone
  refine ⟨fills_put hR h hn (fun y hy => ?_) (fun _ _ => by simp), ?_⟩
  · rw [hnone] at hy
    cases hy
  · rw [isDir_cons, node_put h hn, if_pos rfl]

theorem fills_put_file (hR : R (n :: p)) (h : t.isDir p = true)
    (hold : t.node (n :: p) = none ∨ t.isFile (n :: p) = true) (c : β) :
    Fills R t (t.put n p (.file c)) := by
  have hn : t.isDir (n :: p) = false :=
    hold.elim isDir_false_of_none isDir_false_of_file
  refine fills_put hR h hn (fun y hy => ?_) (fun _ _ => by simp)
  rcases hold with hnone | hfile
  · rw [hnone] at hy
    cases hy
  · obtain ⟨c', hc'⟩ := isFile_iff.mp hfile
    rw [hc'] at hy
    cases hy
    rfl

theorem create_cons (hops : Nat) (h : t.isDir (rel ++ root) = true) (n : ν) (x : Node ν β) :
    t.create hops root x (n :: rel) =
      if (t.node (n :: (rel ++ root))).isNone then (t.put n (rel ++ root) x, true)
        else (t, false) := by
  rw [create, walk_names_here hops h]

theorem mkdir_spec (hops : Nat) (h : t.isDir (rel ++ root) = true) (n : ν) :
    Fills (OnWay root (n :: rel)) t (t.mkdir hops root (n :: rel)).1 ∧
      ((t.mkdir hops root (n :: rel)).2 = true →
        (t.mkdir hops root (n :: rel)).1.isDir (n :: (rel ++ root)) = true) := by
  have hcreate := create_cons hops h n (.dir : Node ν β)
  have hlstat := lstat_cons hops h n
  cases hnode : t.node (n :: (rel ++ root)) with
  | none =>
    rw [hnode, Option.isNone_none, if_pos rfl] at hcreate
    obtain ⟨hput, hnew⟩ := fills_put_dir (onWay_self root n rel) h hnode
    simp only [mkdir, hcreate]
    exact ⟨hput, fun _ => hnew⟩
  | some x =>
    rw [hnode, Option.isNone_some, if_neg Bool.false_ne_true] at hcreate
    rw [hnode] at hlstat
    simp only [mkdir, hcreate, hlstat]
    cases x with
    | dir => exact ⟨.refl _ t, fun _ => isDir_cons.mpr hnode⟩
    | file => exact ⟨.refl _ t, fun hok => absurd hok Bool.false_ne_true⟩
    | link => exact ⟨.refl _ t, fun hok => absurd hok Bool.false_ne_true⟩

theorem mkdirAll_spec (t : Tree ν β) (hops : Nat) (h : NoLink t root rel)
    (hroot : t.isDir root = true) :
    Fills (OnWay root rel) t (t.mkdirAll hops root rel).1 ∧
      ((t.mkdirAll hops root rel).2 = true → (t.mkdirAll hops root rel).1.isDir (rel ++ root) =
        true) := by
  induction rel with
  | nil => exact ⟨.refl _ t, fun _ => hroot⟩
  | cons n rel ih =>
    obtain ⟨hfills, hdir⟩ := ih h.tail
    have hfills := hfills.mono fun p hp => hp.cons n
    unfold mkdirAll
    split
    · next p hstat =>
      refine ⟨.refl _ t, fun hok => ?_⟩
      rcases h.cases hroot with hdir | ⟨hfile, hfound⟩ | hnot
      · exact hdir
      · cases (hfound hops).1.symm.trans hstat
        rw [hfile] at hok
        cases hok
      · have hwalk := hnot hops []
        rw [append_nil, ← stat, hstat] at hwalk
        exact absurd hwalk (not_nowhere_found t root _ p)
    · dsimp only
      split
      · next habove =>
        obtain ⟨hmade, hnew⟩ := mkdir_spec hops (hdir habove) n
        exact ⟨hfills.trans hmade, hnew⟩
      · next habove => exact ⟨hfills, fun hok => absurd hok habove⟩

theorem write_fills (t : Tree ν β) (hops : Nat) (h : NoLink t root rel)
    (hroot : t.isDir root = true) (c : β) :
    Fills (OnWay root rel) t (t.write hops root rel c).1 := by
  rcases h.cases hroot with hdir | ⟨hfile, hfound⟩ | hnot
  · rw [write, stat_dir hops hdir]
    cases hplace : rel ++ root with
    | nil => exact .refl _ t
    | cons =>
      rw [hplace] at hdir
      simp only [isFile_false_of_isDir hdir]
      exact .refl _ t
  · rw [write, (hfound hops).1]
    cases rel with
    | nil =>
      cases root with
      | nil => exact .refl _ t
      | cons =>
        rw [nil_append, isFile_false_of_isDir hroot] at hfile
        cases hfile
    | cons n rel =>
      obtain ⟨c', hc'⟩ := isFile_iff.mp hfile
      simp only [cons_append] at hfile hc' ⊢
      simp only [hfile]
      exact fills_put_file (onWay_self root n rel) (isDir_of_node (hc' ▸ Option.some_ne_none _))
        (.inr hfile) c
  · have hwalk := hnot hops []
    rw [append_nil, ← stat] at hwalk
    rcases hwalk with hnotDir | ⟨n, above, rest, hway, hdir, hnone, habsent⟩
    · rw [write, hnotDir]
      exact .refl _ t
    · rw [write, habsent]
      cases rest with
      | nil =>
        exact fills_put_file ⟨n :: above, cons_ne_nil n above, hway, rfl⟩ hdir (.inl hnone) c
      | cons => exact .refl _ t

theorem write_isFile (hops : Nat) (hdir : t.isDir (rel ++ root) = true)
    (hlink : ∀ a text, t.node (n :: (rel ++ root)) ≠ some (.link a text)) {c : β}
    (hok : (t.write hops root (n :: rel) c).2 = true) :
    (t.write hops root (n :: rel) c).1.isFile (n :: (rel ++ root)) = true := by
  have hput : t.isDir (n :: (rel ++ root)) = false →
      (t.put n (rel ++ root) (.file c)).isFile (n :: (rel ++ root)) = true := by
    intro hn
    rw [isFile_iff, node_put hdir hn, if_pos rfl]
    exact ⟨c, rfl⟩
  obtain ⟨habsent, hfound⟩ := stat_cons hops hdir n []
  cases hnode : t.node (n :: (rel ++ root)) with
  | none =>
    have hstat := habsent hnode
    rw [append_nil, ← stat] at hstat
    rw [write, hstat]
    exact hput (isDir_false_of_none hnode)
  | some x =>
    cases x with
    | dir =>
      have hself : t.isDir (n :: (rel ++ root)) = true := isDir_cons.mpr hnode
      have hstat : t.stat hops root (n :: rel) = .found (n :: rel ++ root) := stat_dir hops hself
      rw [write, hstat, cons_append] at hok
      simp only [isFile_false_of_isDir hself] at hok
      cases hok
    | file c' =>
      have hfile : t.isFile (n :: (rel ++ root)) = true := isFile_iff.mpr ⟨c', hnode⟩
      rw [write, hfound c' hnode]
      simp only [hfile, if_true]
      exact hput (isDir_false_of_file hfile)
    | link a text => exact absurd hnode (hlink a text)

theorem mkdirAll_write_fills (t : Tree ν β) (hops : Nat) (h : NoLink t root rel)
    (hroot : t.isDir root = true) (c : β) :
    Fills (OnWay root rel) t ((t.mkdirAll hops root rel.tail).1.write hops root rel c).1 := by
  have hmade := (mkdirAll_spec t hops h.tail hroot).1.mono fun _ hp => hp.of_tail
  exact hmade.trans (write_fills _ hops (hmade.noLink h) (hmade.isDir hroot) c)

theorem create_cases (t : Tree ν β) (hops : Nat) (h : NoLink t root rel)
    (hroot : t.isDir root = true) (x : Node ν β) :
    (t.create hops root x rel).1 = t ∨
      ∃ n above, rel = n :: above ∧ t.isDir (above ++ root) = true ∧
        t.node (n :: (above ++ root)) = none ∧
        (t.create hops root x rel).1 = t.put n (above ++ root) x := by
  cases rel with
  | nil => exact .inl rfl
  | cons n above =>
    have habove : NoLink t root above := h.tail
    rcases habove.cases hroot with hdir | ⟨-, hfile⟩ | hnot
    · rw [create_cons hops hdir]
      cases hnode : t.node (n :: (above ++ root)) with
      | none => exact .inr ⟨n, above, rfl, hdir, hnode, rfl⟩
      | some => exact .inl rfl
    · rw [create, (hfile hops).2]
      exact .inl rfl
    · rw [create]
      split
      · next p hfound => exact absurd (hfound ▸ hnot hops [.here]) (not_nowhere_found t root _ p)
      · exact .inl rfl

theorem create_grows (t : Tree ν β) (hops : Nat) (h : NoLink t root rel)
    (hroot : t.isDir root = true) (x : Node ν β) :
    Grows (OnWay root rel) t (t.create hops root x rel).1 := by
  rcases create_cases t hops h hroot x with heq | ⟨n, above, rfl, hdir, hnone, heq⟩
  · rw [heq]
    exact .refl _ t
  · rw [heq]
    refine grows_put (onWay_self root n above) hdir (isDir_false_of_none hnone) fun y hy => ?_
    rw [hnone] at hy
    cases hy

/-! ## Calls anywhere

Wherever links lead, the calls do not change the kind of anything. -/

theorem node_of_walk_absent {hops : Nat} {p q : List ν} {path rest : List (Comp ν)}
    (h : t.walk hops p path = .absent q rest) : t.node q = none := by
  have hwith : ∀ next : List ν → List (Comp ν) → Outcome ν,
      (∀ p path, next p path = .absent q rest → t.node q = none) →
        ∀ path p, t.walkWith next p path = .absent q rest → t.node q = none := by
    intro next hnext path
    induction path with
    | nil => exact nofun
    | cons c path ih =>
      intro p hp
      cases c with
      | here => exact ih p hp
      | up => exact ih p.tail hp
      | name =>
        rw [walkWith] at hp
        split at hp
        · next hnode =>
          cases hp
          exact hnode
        · exact ih _ hp
        · split at hp <;> cases hp
        · exact hnext _ _ hp
  induction hops generalizing p path with
  | zero => exact hwith _ (fun _ _ h => by cases h) path p h
  | succ hops ih => exact hwith _ (fun _ _ h => ih h) path p h

theorem grows_put_any (hold : ∀ y, t.node (n :: p) = some y → y.kind = x.kind) :
    Grows (fun _ => True) t (t.put n p x) := by
  by_cases h : t.isDir p = true ∧ t.isDir (n :: p) = false
  · exact grows_put trivial h.1 h.2 hold
  · rw [put, dif_neg h]
    exact .refl _ t

theorem create_grows_any (t : Tree ν β) (hops : Nat) (root rel : List ν) (x : Node ν β) :
    Grows (fun _ => True) t (t.create hops root x rel).1 := by
  cases rel with
  | nil => exact .refl _ t
  | cons =>
    rw [create]
    split
    · next p hwalk =>
      split
      · next hnone =>
        refine grows_put_any fun y hy => ?_
        rw [Option.isNone_iff_eq_none.mp hnone] at hy
        cases hy
      · exact .refl _ t
    · exact .refl _ t

theorem mkdirAll_grows_any (t : Tree ν β) (hops : Nat) (root rel : List ν) :
    Grows (fun _ => True) t (t.mkdirAll hops root rel).1 := by
  induction rel with
  | nil => exact .refl _ t
  | cons n rel ih =>
    have hcreate := create_grows_any (t.mkdirAll hops root rel).1 hops root (n :: rel) .dir
    unfold mkdirAll
    split
    · exact .refl _ t
    · dsimp only
      split
      · unfold mkdir
        dsimp only
        split
        · exact ih.trans hcreate
        · split <;> exact ih.trans hcreate
      · exact ih

theorem write_grows_any (t : Tree ν β) (hops : Nat) (root rel : List ν) (c : β) :
    Grows (fun _ => True) t (t.write hops root rel c).1 := by
  unfold write
  split
  · split
    · next hfile =>
      refine grows_put_any fun y hy => ?_
      obtain ⟨c', hc'⟩ := isFile_iff.mp hfile
      rw [hc'] at hy
      cases hy
      rfl
    · exact .refl _ t
  · next n p habsent =>
    refine grows_put_any fun y hy => ?_
    rw [node_of_walk_absent habsent] at hy
    cases hy
  · exact .refl _ t

/-- Everything at or below `root` meets `Q`. -/
def AllBelow (Q : Node ν β → Prop) (root : List ν) (t : Tree ν β) : Prop :=
  ∀ rel x, t.node (rel ++ root) = some x → Q x

section AllBelow

variable {Q : Node ν β → Prop}

theorem AllBelow.put (h : AllBelow Q root t) (hx : Q x) (n : ν) (p : List ν) :
    AllBelow Q root (t.put n p x) := by
  by_cases hput : t.isDir p = true ∧ t.isDir (n :: p) = false
  · intro rel y hy
    rw [node_put hput.1 hput.2] at hy
    split at hy
    · cases hy
      exact hx
    · exact h rel y hy
  · rwa [Tree.put, dif_neg hput]

theorem AllBelow.mkdir (h : AllBelow Q root t) (hdir : Q .dir) (hops : Nat) (rel : List ν) :
    AllBelow Q root (t.mkdir hops root rel).1 := by
  have hcreate : AllBelow Q root (t.create hops root .dir rel).1 := by
    unfold create
    split
    · exact h
    · split
      · split
        · exact h.put hdir _ _
        · exact h
      · exact h
  unfold Tree.mkdir
  dsimp only
  split
  · exact hcreate
  · split <;> exact hcreate

theorem AllBelow.mkdirAll (h : AllBelow Q root t) (hdir : Q .dir) (hops : Nat) (rel : List ν) :
    AllBelow Q root (t.mkdirAll hops root rel).1 := by
  induction rel with
  | nil => exact h
  | cons n rel ih =>
    unfold Tree.mkdirAll
    split
    · exact h
    · dsimp only
      split
      · exact ih.mkdir hdir hops (n :: rel)
      · exact ih

theorem AllBelow.write {c : β} (h : AllBelow Q root t) (hc : Q (.file c)) (hops : Nat)
    (rel : List ν) : AllBelow Q root (t.write hops root rel c).1 := by
  unfold Tree.write
  split
  · split
    · exact h.put hc _ _
    · exact h
  · exact h.put hc _ _
  · exact h

end AllBelow

theorem Grows.walk {t t' : Tree ν β} (h : Grows R t t') {hops : Nat} {p q : List ν}
    {path : List (Comp ν)} (hwalk : t.walk hops p path = .found q) :
    t'.walk hops p path = .found q := by
  have hwith : ∀ next next' : List ν → List (Comp ν) → Outcome ν,
      (∀ p path, next p path = .found q → next' p path = .found q) →
        ∀ path p, t.walkWith next p path = .found q → t'.walkWith next' p path = .found q := by
    intro next next' hnext path
    induction path with
    | nil => exact fun p hp => hp
    | cons c path ih =>
      intro p hp
      cases c with
      | here => exact ih p hp
      | up => exact ih p.tail hp
      | name n =>
        rw [walkWith] at hp ⊢
        cases hnode : t.node (n :: p) with
        | none =>
          rw [hnode] at hp
          cases hp
        | some x =>
          rw [hnode] at hp
          obtain ⟨y, hy, hkind⟩ := Option.map_eq_some_iff.mp (h.kind _ _ hnode)
          rw [hy]
          cases x with
          | dir =>
            cases y with
            | dir => exact ih _ hp
            | file => cases hkind
            | link => cases hkind
          | file =>
            cases y with
            | dir => cases hkind
            | file => exact hp
            | link => cases hkind
          | link =>
            cases y with
            | dir => cases hkind
            | file => cases hkind
            | link =>
              cases hkind
              exact hnext _ _ hp
  induction hops generalizing p path with
  | zero => exact hwith _ _ (fun _ _ h => by cases h) path p hwalk
  | succ hops ih => exact hwith _ _ (fun _ _ h => ih h) path p hwalk

theorem node_of_append {a p : List ν} (h : t.node (a ++ p) ≠ none) (hp : p ≠ []) :
    t.node p ≠ none := by
  cases a with
  | nil => exact h
  | cons =>
    have hdir := isDir_of_append (isDir_of_node h)
    cases p with
    | nil => exact absurd rfl hp
    | cons => exact isDir_cons.mp hdir ▸ Option.some_ne_none _

theorem length_le_nodes {rel root : List ν} (h : t.node (rel ++ root) ≠ none) :
    rel.length ≤ t.nodes.length := by
  have hnodup : ((List.range rel.length).map fun i => rel.drop i ++ root).Nodup := by
    refine List.Nodup.map_on (fun i hi j hj heq => ?_) nodup_range
    have hlength := congrArg List.length heq
    rw [mem_range] at hi hj
    simp only [length_append, length_drop] at hlength
    omega
  have hsub : ((List.range rel.length).map fun i => rel.drop i ++ root) ⊆ t.nodes.map Prod.fst := by
    intro q hq
    obtain ⟨i, hi, rfl⟩ := mem_map.mp hq
    rw [mem_range] at hi
    have hwhole : rel.take i ++ (rel.drop i ++ root) = rel ++ root := by
      rw [← append_assoc, take_append_drop]
    have hne : rel.drop i ++ root ≠ [] := by
      intro hnil
      have hzero := congrArg List.length hnil
      simp only [length_append, length_drop, length_nil] at hzero
      omega
    obtain ⟨x, hx⟩ := Option.ne_none_iff_exists'.mp (node_of_append (hwhole ▸ h) hne)
    exact mem_map.mpr ⟨_, Assoc.mem_of_find hx, rfl⟩
  have hle := (subperm_of_subset hnodup hsub).length_le
  rwa [length_map, length_range, length_map] at hle

theorem mem_entries (h : t.node (n :: p) ≠ none) :
    n ∈ t.entries p := by
  obtain ⟨x, hx⟩ := Option.ne_none_iff_exists'.mp h
  exact mem_filterMap.mpr ⟨_, Assoc.mem_of_find hx, by simp⟩

end Tree

end Jerboa.Lib
