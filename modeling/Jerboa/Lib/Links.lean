import Jerboa.Lib.Tree

/-!
# Links that stay inside

When does the way through a link stay below a directory?  Only a part that leads up
can leave it.  If every such part is reached below the directory, no way leaves it,
and that lasts while the tree grows.  A way is followed here through files as well
as through directories, which an operating system does not do.
-/

namespace Jerboa.Lib.Tree

variable {ν β : Type} [DecidableEq ν] {t t' : Tree ν β} {root p q : List ν} {path : List (Comp ν)}
  {R : List ν → Prop}

inductive Move (t : Tree ν β) : List ν × List (Comp ν) → List ν × List (Comp ν) → Prop where
  | here (p : List ν) (rest : List (Comp ν)) : Move t (p, .here :: rest) (p, rest)
  | up (p : List ν) (rest : List (Comp ν)) : Move t (p, .up :: rest) (p.tail, rest)
  | enter {p : List ν} {n : ν} (rest : List (Comp ν)) {x : Node ν β} (h : t.node (n :: p) = some x)
      (hx : ∀ absolute text, x ≠ .link absolute text) : Move t (p, .name n :: rest) (n :: p, rest)
  | follow {p : List ν} {n : ν} (rest : List (Comp ν)) {absolute : Bool} {text : List (Comp ν)}
      (h : t.node (n :: p) = some (.link absolute text)) :
      Move t (p, .name n :: rest) (if absolute then [] else p, text ++ rest)

def Moves (t : Tree ν β) : List ν × List (Comp ν) → List ν × List (Comp ν) → Prop :=
  Relation.ReflTransGen (Move t)

def Passes (t : Tree ν β) (p : List ν) (path : List (Comp ν)) (q : List ν) : Prop :=
  Moves t (p, path) (q, [])

/-! ## Moves -/

theorem move_of_step {s s' : List ν × List (Comp ν)} (h : t.step s = some s') : Move t s s' := by
  obtain ⟨p, path⟩ := s
  cases path with
  | nil => cases h
  | cons c rest =>
    cases c with
    | here =>
      cases h
      exact .here p rest
    | up =>
      cases h
      exact .up p rest
    | name =>
      rw [step] at h
      split at h
      · cases h
      · next hnode =>
        cases h
        exact .enter rest hnode fun _ _ => by simp
      · next hnode =>
        split at h
        · next hrest =>
          cases h
          rw [hrest]
          exact .enter [] hnode fun _ _ => by simp
        · cases h
      · next hnode =>
        cases h
        exact .follow rest hnode

theorem moves_of_reaches {s s' : List ν × List (Comp ν)} (h : t.Reaches s s') : Moves t s s' :=
  Relation.ReflTransGen.mono (fun _ _ hs => move_of_step hs) _ _ h

theorem Move.det {s s' s'' : List ν × List (Comp ν)} (h : Move t s s') (h' : Move t s s'') :
    s' = s'' := by
  cases h with
  | here | up => cases h'; rfl
  | enter rest h hx =>
    cases h' with
    | enter => rfl
    | follow _ hlink => exact absurd (Option.some.inj (h.symm.trans hlink)) (hx _ _)
  | follow rest h =>
    cases h' with
    | enter _ hnode hx => exact absurd (Option.some.inj (hnode.symm.trans h)) (hx _ _)
    | follow _ hlink =>
      cases h.symm.trans hlink
      rfl

variable {a b : List (Comp ν)}

theorem Move.append {p q : List ν} (h : Move t (p, a) (q, b)) (c : List (Comp ν)) :
    Move t (p, a ++ c) (q, b ++ c) := by
  cases h with
  | here => exact .here p _
  | up => exact .up p _
  | enter _ h hx => exact .enter _ h hx
  | follow rest h =>
    rw [List.append_assoc]
    exact .follow _ h

variable {s : List ν × List (Comp ν)}

theorem Move.split {p : List ν} {k : Comp ν} (h : Move t (p, k :: (a ++ b)) s) :
    ∃ q c, s = (q, c ++ b) ∧ Move t (p, k :: a) (q, c) := by
  cases h with
  | here => exact ⟨p, a, rfl, .here p a⟩
  | up => exact ⟨p.tail, a, rfl, .up p a⟩
  | enter _ h hx => exact ⟨_, a, rfl, .enter a h hx⟩
  | @follow _ _ _ _ text h => exact ⟨_, text ++ a, by rw [List.append_assoc], .follow a h⟩

theorem Passes.of_move (h : Passes t p path q) (hm : Move t (p, path) s) :
    Moves t s (q, []) := by
  rcases Relation.ReflTransGen.cases_head h with heq | ⟨s', hs', hrest⟩
  · cases heq
    cases hm
  · rw [hm.det hs']
    exact hrest

theorem Passes.head (hm : Move t (p, path) s) (h : Moves t s (q, [])) :
    Passes t p path q :=
  Relation.ReflTransGen.head hm h

theorem Passes.trans {m : List ν} (h : Passes t p a m) (h' : Passes t m b q) :
    Passes t p (a ++ b) q := by
  have happend : ∀ s : List ν × List (Comp ν), Moves t s (m, []) →
      Moves t (s.1, s.2 ++ b) (m, b) := by
    intro s hs
    induction hs using Relation.ReflTransGen.head_induction_on with
    | refl => exact .refl
    | head hm _ ih => exact .head (hm.append b) ih
  exact (happend _ h).trans h'

theorem Passes.split (h : Passes t p (a ++ b) q) :
    ∃ m, Passes t p a m ∧ Passes t m b q := by
  have hsplit : ∀ s : List ν × List (Comp ν), Moves t s (q, []) → ∀ p a, s = (p, a ++ b) →
      ∃ m, Passes t p a m ∧ Passes t m b q := by
    intro s hs
    induction hs using Relation.ReflTransGen.head_induction_on with
    | refl =>
      intro p a heq
      have hab := List.append_eq_nil_iff.mp (congrArg Prod.snd heq).symm
      have hp := congrArg Prod.fst heq
      dsimp only at hp hab
      rw [hab.1, hab.2, hp]
      exact ⟨p, .refl, .refl⟩
    | head hm hrest ih =>
      intro p a heq
      subst heq
      cases a with
      | nil => exact ⟨p, .refl, .head hm hrest⟩
      | cons =>
        obtain ⟨p', c, rfl, hfirst⟩ := hm.split
        obtain ⟨m, hm, hb⟩ := ih p' c rfl
        exact ⟨m, .head hfirst hm, hb⟩
  exact hsplit _ h p a rfl

theorem Passes.det {q' : List ν} (h : Passes t p path q) (h' : Passes t p path q') : q = q' := by
  have hdet : ∀ s : List ν × List (Comp ν), Moves t s (q, []) → Moves t s (q', []) → q = q' := by
    intro s hs
    induction hs using Relation.ReflTransGen.head_induction_on with
    | refl =>
      intro hs'
      rcases Relation.ReflTransGen.cases_head hs' with heq | ⟨s', hm, -⟩
      · exact congrArg Prod.fst heq
      · cases hm
    | head hm _ ih => exact fun hs' => ih (Passes.of_move hs' hm)
  exact hdet _ h h'

theorem passes_of_walk {hops : Nat} (h : t.walk hops p path = .found q) : Passes t p path q := by
  have hwith : ∀ next : List ν → List (Comp ν) → Outcome ν,
      (∀ p path, next p path = .found q → Passes t p path q) →
        ∀ path p, t.walkWith next p path = .found q → Passes t p path q := by
    intro next hnext path
    induction path with
    | nil =>
      intro p hp
      cases hp
      exact .refl
    | cons c rest ih =>
      intro p hp
      cases c with
      | here => exact .head (.here p rest) (ih p hp)
      | up => exact .head (.up p rest) (ih p.tail hp)
      | name =>
        rw [walkWith] at hp
        split at hp
        · cases hp
        · next hnode => exact .head (.enter rest hnode fun _ _ => by simp) (ih _ hp)
        · next hnode =>
          split at hp
          · next hrest =>
            cases hp
            rw [hrest]
            exact .head (.enter [] hnode fun _ _ => by simp) .refl
          · cases hp
        · next hnode => exact .head (.follow rest hnode) (hnext _ _ hp)
  induction hops generalizing p path with
  | zero => exact hwith _ (fun _ _ h => by cases h) path p h
  | succ hops ih => exact hwith _ (fun _ _ h => ih h) path p h

def Good (t : Tree ν β) (root p : List ν) (path : List (Comp ν)) : Prop :=
  ∀ pre post, path = pre ++ .up :: post → ∀ q, Passes t p pre q → Below root q

def Grounded (t : Tree ν β) (root p : List ν) (path : List (Comp ν)) : Prop :=
  ∀ pre post, path = pre ++ .up :: post → ∃ q, Passes t p pre q ∧ Below root q

/-- Every link below `root` is relative and grounded. -/
def LinksGrounded (root : List ν) (t : Tree ν β) : Prop :=
  ∀ n p absolute text, root <:+ p → t.node (n :: p) = some (.link absolute text) →
    absolute = false ∧ Grounded t root p text

/-- No way through a link below `root` leaves `root`. -/
def StaysInside (root : List ν) (t : Tree ν β) : Prop :=
  ∀ n p absolute text, root <:+ p → t.node (n :: p) = some (.link absolute text) →
    ∀ q path, t.Reaches (p, [.name n]) (q, path) → root <:+ q

theorem Grounded.good (h : Grounded t root p path) : Good t root p path := by
  intro pre post heq q hq
  obtain ⟨q', hq', hbelow⟩ := h pre post heq
  rw [hq.det hq']
  exact hbelow

theorem good_of_no_up (h : .up ∉ path) : Good t root p path := by
  intro pre post heq
  exact absurd (heq ▸ List.mem_append_right pre List.mem_cons_self) h

theorem up_notMem_names {ν : Type} (rel : List ν) : .up ∉ names rel := by
  simp [names]

theorem Good.rest {c : Comp ν} {rest : List (Comp ν)} (h : Good t root p (c :: rest))
    (hpre : ∀ pre, Move t (p, c :: pre) (q, pre)) :
    Good t root q rest := by
  intro pre post heq q' hq'
  exact h (c :: pre) post (by rw [heq]; rfl) q' (.head (hpre pre) hq')

theorem move_inside (hlinks : LinksGrounded root t) (hp : root <:+ p) (hgood : Good t root p path)
    (hm : Move t (p, path) s) : root <:+ s.1 ∧ Good t root s.1 s.2 := by
  cases hm with
  | here p => exact ⟨hp, hgood.rest fun pre => .here p pre⟩
  | up p rest =>
    exact ⟨(hgood [] rest rfl p .refl).2, hgood.rest fun pre => .up p pre⟩
  | enter rest h hx =>
    exact ⟨hp.trans (List.suffix_cons _ p), hgood.rest fun pre => .enter pre h hx⟩
  | @follow _ n rest absolute text h =>
    obtain ⟨rfl, hground⟩ := hlinks n p absolute text hp h
    refine ⟨hp, fun pre post heq q hq => ?_⟩
    rcases List.append_eq_append_iff.mp heq with ⟨mid, hpre, hrest⟩ | ⟨mid, htext, hpost⟩
    · -- The part is behind the link, where the path was good before.
      rw [hpre] at hq
      exact hgood (.name n :: mid) post (by rw [hrest]; rfl) q (.head (.follow mid h) hq)
    · cases mid with
      | nil =>
        rw [List.append_nil] at htext
        rw [← htext] at hq
        have hq' : Passes t p [.name n] q := by
          refine .head (.follow [] h) ?_
          rw [List.append_nil]
          exact hq
        rw [List.nil_append] at hpost
        exact hgood [.name n] post (by rw [← hpost]; rfl) q hq'
      | cons k mid =>
        cases hpost
        exact hground.good pre mid htext q hq

theorem moves_inside (hlinks : LinksGrounded root t) (hp : root <:+ p) (hgood : Good t root p path)
    (hm : Moves t (p, path) s) : root <:+ s.1 := by
  have hboth : root <:+ s.1 ∧ Good t root s.1 s.2 := by
    induction hm with
    | refl => exact ⟨hp, hgood⟩
    | tail _ hlast ih => exact move_inside hlinks ih.1 ih.2 hlast
  exact hboth.1

theorem staysInside_of_linksGrounded (h : LinksGrounded root t) : StaysInside root t := by
  intro n p absolute text hp _ q path hreach
  exact moves_inside h hp (good_of_no_up (by simp)) (moves_of_reaches hreach)

theorem Grows.move (h : Grows R t t') {s s' : List ν × List (Comp ν)} (hm : Move t s s') :
    Move t' s s' := by
  cases hm with
  | here p rest => exact .here p rest
  | up p rest => exact .up p rest
  | enter rest hnode hx =>
    obtain ⟨y, hy, hkind⟩ := Option.map_eq_some_iff.mp (h.kind _ _ hnode)
    refine .enter rest hy fun a text hlink => ?_
    subst hlink
    rename_i x
    cases x with
    | dir => cases hkind
    | file => cases hkind
    | link a' text' => exact hx a' text' rfl
  | follow rest hnode =>
    obtain ⟨y, hy, hkind⟩ := Option.map_eq_some_iff.mp (h.kind _ _ hnode)
    cases y with
    | dir => cases hkind
    | file => cases hkind
    | link =>
      cases hkind
      exact .follow rest hy

theorem Grows.grounded (h : Grows R t t') (hg : Grounded t root p path) :
    Grounded t' root p path := by
  intro pre post heq
  obtain ⟨q, hq, hbelow⟩ := hg pre post heq
  exact ⟨q, Relation.ReflTransGen.mono (fun _ _ hs => h.move hs) _ _ hq, hbelow⟩

theorem LinksGrounded.fills (h : LinksGrounded root t) (hfills : Fills R t t') :
    LinksGrounded root t' := by
  intro n p absolute text hp hnode
  obtain ⟨habs, hg⟩ := h n p absolute text hp (hfills.links _ _ _ hnode)
  exact ⟨habs, hfills.grounded hg⟩

theorem LinksGrounded.create (h : LinksGrounded root t) (hops : Nat) {rel : List ν}
    (hrel : NoLink t root rel) (hroot : t.isDir root = true) {text : List (Comp ν)}
    (hg : ∀ n above, rel = n :: above → t.isDir (above ++ root) = true →
      Grounded t root (above ++ root) text) :
    LinksGrounded root (t.create hops root (.link false text) rel).1 := by
  have hgrows := create_grows t hops hrel hroot (.link false text)
  intro n p absolute text' hp hnode
  rcases create_cases t hops hrel hroot (.link false text) with
    heq | ⟨m, above, rfl, hdir, hnone, heq⟩
  · rw [heq] at hnode ⊢
    exact h n p absolute text' hp hnode
  · rw [heq, node_put hdir (isDir_false_of_none hnone)] at hnode
    split at hnode
    · next hplace =>
      cases hplace
      cases hnode
      exact ⟨rfl, hgrows.grounded (hg n above rfl hdir)⟩
    · obtain ⟨habs, hold⟩ := h n p absolute text' hp hnode
      exact ⟨habs, hgrows.grounded hold⟩

end Jerboa.Lib.Tree
