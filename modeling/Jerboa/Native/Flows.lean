import Jerboa.Native.Egress

/-!
# What the egress pool guarantees

Every flow is counted once from its reservation to its removal, however the calls of
`close` for it meet, and `closeSource` leaves no flow of the source behind.
-/

namespace Jerboa.Native.Egress

open Net.Address Lib.Run Lib.Tally

/-! ## Counters -/

def Flow.egress (f : Flow) : Bool := f.tag = []

def Flow.published (f : Flow) : Bool := f.tag ≠ []

/-- The counters are the numbers of flows in the pool. -/
structure Accounted (p : Pool) : Prop where
  counts : Counts Flow.egress Flow.source p.flows p.counts
  publishedCounts : Counts Flow.published Flow.source p.flows p.publishedCounts
  egressTotal : p.egressTotal = p.flows.countP Flow.egress
  publishedTotal : p.publishedTotal = p.flows.countP Flow.published

/-- The counters are within the limits. -/
structure Within (p : Pool) : Prop where
  counts : ∀ source, count p.counts source ≤ maxEgressFlowsPerVM
  publishedCounts : ∀ source, count p.publishedCounts source ≤ maxPublishedFlowsPerVM
  egressTotal : p.egressTotal ≤ maxEgressFlows
  publishedTotal : p.publishedTotal ≤ maxPublishedFlows

theorem count_incr_le {c : Text → Option Int} {k : Text} {n : Int} (h : ∀ k, count c k ≤ n)
    (hk : count c k < n) (k' : Text) : count (incr c k) k' ≤ n := by
  by_cases heq : k' = k
  · subst heq
    rw [count, incr, Function.update_self, Option.getD_some]
    omega
  · rw [count, incr, Function.update_of_ne heq]
    exact h k'

theorem count_decr_le (c : Text → Option Int) (k k' : Text) :
    count (decr c k) k' ≤ max 0 (count c k') := by
  rw [count, decr]
  split <;> rcases eq_or_ne k' k with rfl | hne
  · rw [Function.update_self, Option.getD_none]
    omega
  · rw [Function.update_of_ne hne, count]
    omega
  · rw [Function.update_self, Option.getD_some, count]
    omega
  · rw [Function.update_of_ne hne, count]
    omega

variable {f : Flow} {p q : Pool}

theorem Pool.reserveTagged_eq_some (h : p.reserveTagged f = some q) :
    p.closed = false ∧ p.sources f.source = true ∧ q.flows = f :: p.flows ∧ q.closed = p.closed ∧
      q.sources = p.sources := by
  unfold reserveTagged at h
  split_ifs at h with h₁ h₂ h₃ h₄ <;> cases h <;> simp_all

theorem Accounted.reserveTagged (h : Accounted p) (hq : p.reserveTagged f = some q) :
    Accounted q := by
  unfold Pool.reserveTagged at hq
  split_ifs at hq with h₁ h₂ h₃ h₄ <;> cases hq
  · have hegress : f.egress = true := decide_eq_true h₄
    have hpublished : f.published = false := decide_eq_false (not_not.mpr h₄)
    exact ⟨h.counts.incr hegress, h.publishedCounts.cons_of_not hpublished,
      by simp [hegress, h.egressTotal], by simp [hpublished, h.publishedTotal]⟩
  · have hegress : f.egress = false := decide_eq_false h₄
    have hpublished : f.published = true := decide_eq_true h₄
    exact ⟨h.counts.cons_of_not hegress, h.publishedCounts.incr hpublished,
      by simp [hegress, h.egressTotal], by simp [hpublished, h.publishedTotal]⟩

theorem Within.reserveTagged (h : Within p) (hq : p.reserveTagged f = some q) :
    Within q := by
  unfold Pool.reserveTagged at hq
  split_ifs at hq with h₁ h₂ h₃ h₄ <;> cases hq
  · rw [not_and, not_or] at h₂
    obtain ⟨htotal, hcount⟩ := h₂ h₄
    exact ⟨count_incr_le h.counts (by omega), h.publishedCounts,
      by dsimp only; omega, h.publishedTotal⟩
  · rw [not_and, not_or] at h₃
    obtain ⟨htotal, hcount⟩ := h₃ h₄
    exact ⟨h.counts, count_incr_le h.publishedCounts (by omega), h.egressTotal,
      by dsimp only; omega⟩

theorem Accounted.remove {p : Pool} (h : Accounted p) (hf : f ∈ p.flows) :
    Accounted (p.remove f) := by
  unfold Pool.remove
  split_ifs with htag
  · have hegress : f.egress = true := decide_eq_true htag
    have hpublished : f.published = false := decide_eq_false (not_not.mpr htag)
    have hpos : 0 < p.flows.countP Flow.egress := List.countP_pos_iff.mpr ⟨f, hf, hegress⟩
    refine ⟨h.counts.decr hf hegress, h.publishedCounts.erase_of_not hpublished, ?_, ?_⟩
    · rw [List.countP_erase, if_pos ⟨hf, hegress⟩, h.egressTotal]
      dsimp only
      omega
    · rw [List.countP_erase, if_neg (by simp [hpublished]), h.publishedTotal, Nat.sub_zero]
  · have hegress : f.egress = false := decide_eq_false htag
    have hpublished : f.published = true := decide_eq_true htag
    have hpos : 0 < p.flows.countP Flow.published := List.countP_pos_iff.mpr ⟨f, hf, hpublished⟩
    refine ⟨h.counts.erase_of_not hegress, h.publishedCounts.decr hf hpublished, ?_, ?_⟩
    · rw [List.countP_erase, if_neg (by simp [hegress]), h.egressTotal, Nat.sub_zero]
    · rw [List.countP_erase, if_pos ⟨hf, hpublished⟩, h.publishedTotal]
      dsimp only
      omega

theorem Within.remove {p : Pool} (h : Within p) (f : Flow) : Within (p.remove f) := by
  have hcounts := h.egressTotal
  have hpublished := h.publishedTotal
  unfold Pool.remove
  split_ifs
  · refine ⟨fun source => ?_, h.publishedCounts, by dsimp only; omega, h.publishedTotal⟩
    have hle := count_decr_le p.counts f.source source
    have hlimit := h.counts source
    have hpos : (0 : Int) ≤ maxEgressFlowsPerVM := by decide
    dsimp only
    omega
  · refine ⟨h.counts, fun source => ?_, h.egressTotal, by dsimp only; omega⟩
    have hle := count_decr_le p.publishedCounts f.source source
    have hlimit := h.publishedCounts source
    have hpos : (0 : Int) ≤ maxPublishedFlowsPerVM := by decide
    dsimp only
    omega

theorem Pool.flows_remove (p : Pool) (f : Flow) : (p.remove f).flows = p.flows.erase f := by
  unfold remove
  split_ifs <;> rfl

theorem Pool.sources_remove (p : Pool) (f : Flow) : (p.remove f).sources = p.sources := by
  unfold remove
  split_ifs <;> rfl

theorem Pool.closed_remove (p : Pool) (f : Flow) : (p.remove f).closed = p.closed := by
  unfold remove
  split_ifs <;> rfl

namespace State

variable (s : State)

theorem flow_setFlow_self (f : Flow) (x : FlowState) : (s.setFlow f x).flow f = x :=
  Function.update_self (β := fun _ => FlowState) f x s.flow

theorem flow_setFlow_of_ne {f g : Flow} (h : g ≠ f) (x : FlowState) :
    (s.setFlow f x).flow g = s.flow g :=
  Function.update_of_ne (β := fun _ => FlowState) h x s.flow

theorem todo_setTodo_self (thread : Nat) (todo : Option (List Flow)) :
    (s.setTodo thread todo).todo thread = todo :=
  Function.update_self (β := fun _ => Option (List Flow)) thread todo s.todo

theorem todo_setTodo_of_ne {thread thread' : Nat} (h : thread' ≠ thread)
    (todo : Option (List Flow)) :
    (s.setTodo thread todo).todo thread' = s.todo thread' :=
  Function.update_of_ne (β := fun _ => Option (List Flow)) h todo s.todo

end State

/-! ## The invariant -/

def Once.Shut : Once → Prop
  | .fresh => False
  | .body _ .conns => False
  | .body _ .pool => True
  | .body _ .finish => True
  | .done => True

def Once.Removed : Once → Prop
  | .fresh => False
  | .body _ .conns => False
  | .body _ .pool => False
  | .body _ .finish => True
  | .done => True

structure Inv (s : State) : Prop where
  accounted : Accounted s.pool
  within : Within s.pool
  nodup : s.pool.flows.Nodup
  id_lt : ∀ f ∈ s.made, f.id < s.made.length
  mem_flows : ∀ f, f ∈ s.pool.flows ↔ f ∈ s.made ∧ ¬ (s.flow f).once.Removed
  shut : ∀ f, (s.flow f).once.Shut → (s.flow f).closed = true ∧ ∀ c ∈ (s.flow f).conns, c = false
  fresh : ∀ f, f ∉ s.made → (s.flow f).once = .fresh
  todo : ∀ thread flows, s.todo thread = some flows → ∀ f ∈ flows, f ∈ s.made

theorem inv_init : Inv init where
  accounted := ⟨fun _ => rfl, fun _ => rfl, rfl, rfl⟩
  within := ⟨fun _ => (by decide : (0 : Int) ≤ 64), fun _ => (by decide : (0 : Int) ≤ 512),
    by decide, by decide⟩
  nodup := List.nodup_nil
  id_lt := nofun
  mem_flows f := ⟨nofun, fun hf => absurd hf.1 List.not_mem_nil⟩
  shut f hf := hf.elim
  fresh _ _ := rfl
  todo := nofun

variable {flows : List Flow} {thread : Nat}

namespace Inv

variable {s : State} {f : Flow}

section

variable (h : Inv s)
include h

theorem nextFlow_notMem (source tag : Text) : s.nextFlow source tag ∉ s.made := by
  intro hmem
  have hlt : s.made.length < s.made.length := h.id_lt _ hmem
  omega

theorem mem_made_of_perm {p : Flow → Bool} (hperm : flows.Perm (s.pool.flows.filter p))
    (hf : f ∈ flows) : f ∈ s.made :=
  ((h.mem_flows f).mp (List.mem_filter.mp (hperm.mem_iff.mp hf)).1).1

theorem activateSource (source : Text) :
    Inv { s with pool := s.pool.activateSource source } :=
  { h with
    accounted := { h.accounted with }
    within := { h.within with } }

theorem closeSource (source : Text) :
    Inv { s with pool := s.pool.closeSource source } :=
  { h with
    accounted := { h.accounted with }
    within := { h.within with } }

theorem setTodo (thread : Nat) {todo : Option (List Flow)}
    (htodo : ∀ flows, todo = some flows → ∀ f ∈ flows, f ∈ s.made) : Inv (s.setTodo thread todo) :=
  { h with
    todo := by
      intro thread' flows hflows
      rcases eq_or_ne thread' thread with rfl | hne
      · rw [State.todo_setTodo_self] at hflows
        exact htodo flows hflows
      · rw [State.todo_setTodo_of_ne s hne] at hflows
        exact h.todo thread' flows hflows }

theorem setFlow (hf : f ∈ s.made) {x : FlowState}
    (hremoved : x.once.Removed ↔ (s.flow f).once.Removed)
    (hshut : x.once.Shut → x.closed = true ∧ ∀ c ∈ x.conns, c = false) : Inv (s.setFlow f x) :=
  { h with
    mem_flows := by
      intro g
      rcases eq_or_ne g f with rfl | hne
      · rw [State.flow_setFlow_self, hremoved]
        exact h.mem_flows g
      · rw [State.flow_setFlow_of_ne s hne]
        exact h.mem_flows g
    shut := by
      intro g
      rcases eq_or_ne g f with rfl | hne
      · rw [State.flow_setFlow_self]
        exact hshut
      · rw [State.flow_setFlow_of_ne s hne]
        exact h.shut g
    fresh := by
      intro g hg
      have hne : g ≠ f := fun heq => hg (heq ▸ hf)
      rw [State.flow_setFlow_of_ne s hne]
      exact h.fresh g hg }

theorem remove (hf : f ∈ s.made) (honce : (s.flow f).once = .body thread .pool) :
    Inv (s.onceBody thread f .pool) := by
  have hmem : f ∈ s.pool.flows := (h.mem_flows f).mpr ⟨hf, by rw [honce]; exact id⟩
  have hshut := h.shut f (by rw [honce]; trivial)
  have hflows : (s.onceBody thread f .pool).pool.flows = s.pool.flows.erase f :=
    s.pool.flows_remove f
  refine ⟨h.accounted.remove hmem, h.within.remove f, ?_, h.id_lt, fun g => ?_, fun g => ?_,
    fun g hg => ?_, h.todo⟩
  · rw [hflows]
    exact h.nodup.erase f
  · rw [hflows, h.nodup.mem_erase_iff, State.onceBody]
    rcases eq_or_ne g f with rfl | hne
    · rw [State.flow_setFlow_self]
      exact ⟨fun hg => absurd rfl hg.1, fun hg => absurd trivial hg.2⟩
    · rw [State.flow_setFlow_of_ne _ hne, h.mem_flows g]
      exact ⟨And.right, fun hg => ⟨hne, hg⟩⟩
  · rw [State.onceBody]
    rcases eq_or_ne g f with rfl | hne
    · rw [State.flow_setFlow_self]
      exact fun _ => hshut
    · rw [State.flow_setFlow_of_ne _ hne]
      exact h.shut g
  · have hne : g ≠ f := fun heq => hg (heq ▸ hf)
    rw [State.onceBody, State.flow_setFlow_of_ne _ hne]
    exact h.fresh g hg

theorem reserveTagged (source tag : Text) : Inv (s.reserveTagged source tag) := by
  unfold State.reserveTagged
  have hnew := h.nextFlow_notMem source tag
  cases hq : s.pool.reserveTagged (s.nextFlow source tag) with
  | none => exact h
  | some =>
    obtain ⟨-, -, hflows, -, -⟩ := Pool.reserveTagged_eq_some hq
    have hnotMem : s.nextFlow source tag ∉ s.pool.flows :=
      fun hmem => hnew ((h.mem_flows _).mp hmem).1
    refine { h with
      accounted := h.accounted.reserveTagged hq
      within := h.within.reserveTagged hq
      nodup := ?_
      id_lt := fun f hf => ?_
      mem_flows := fun f => ?_
      fresh := fun f hf => h.fresh f fun hmem => hf (List.mem_cons_of_mem _ hmem)
      todo := fun thread flows hflows f hf =>
        List.mem_cons_of_mem _ (h.todo thread flows hflows f hf) }
    · rw [hflows]
      exact List.nodup_cons.mpr ⟨hnotMem, h.nodup⟩
    · rw [List.length_cons]
      rcases List.mem_cons.mp hf with rfl | hf
      · exact Nat.lt_succ_self _
      · exact Nat.lt_succ_of_lt (h.id_lt f hf)
    · rw [hflows, List.mem_cons, List.mem_cons, h.mem_flows f]
      constructor
      · rintro (rfl | hf)
        · refine ⟨.inl rfl, ?_⟩
          rw [h.fresh _ hnew]
          exact id
        · exact ⟨.inr hf.1, hf.2⟩
      · rintro ⟨rfl | hf, hnot⟩
        · exact .inl rfl
        · exact .inr ⟨hf, hnot⟩

theorem add (f : Flow) : Inv (s.add f) := by
  unfold State.add
  split_ifs with hf
  · refine h.setFlow hf.1 Iff.rfl fun hshut => ?_
    have hclosed := (h.shut f hshut).1
    rw [hf.2] at hclosed
    cases hclosed
  · exact h

theorem onceBody (hf : f ∈ s.made) {stage : Stage}
    (honce : (s.flow f).once = .body thread stage) : Inv (s.onceBody thread f stage) := by
  cases stage with
  | conns =>
    refine h.setFlow hf (by rw [honce]; exact Iff.rfl) fun _ => ⟨rfl, fun c hc => ?_⟩
    obtain ⟨-, -, rfl⟩ := List.mem_map.mp hc
    rfl
  | pool => exact h.remove hf honce
  | finish =>
    exact h.setFlow hf (by rw [honce]; exact Iff.rfl) fun _ => h.shut f (by rw [honce]; trivial)

theorem goOn (thread : Nat) : Inv (s.goOn thread) := by
  unfold State.goOn
  cases htodo : s.todo thread with
  | none => exact h
  | some flows =>
    cases flows with
    | nil => exact h.setTodo thread nofun
    | cons f =>
      have hf : f ∈ s.made := h.todo thread _ htodo f List.mem_cons_self
      dsimp only
      cases honce : (s.flow f).once with
      | fresh => exact h.setFlow hf (by rw [honce]; exact Iff.rfl) fun hshut => hshut.elim
      | body =>
        dsimp only
        split_ifs with heq
        · subst heq
          exact h.onceBody hf honce
        · exact h
      | done =>
        refine h.setTodo thread fun flows' hflows g hg => ?_
        cases hflows
        exact h.todo thread _ htodo g (List.mem_cons_of_mem f hg)

theorem step (a : Action) : Inv (s.step a) := by
  cases a with
  | activateSource source => exact h.activateSource source
  | reserveTagged source tag => exact h.reserveTagged source tag
  | add f => exact h.add f
  | close thread f =>
    change Inv (s.close thread f)
    unfold State.close
    split_ifs with hf
    · refine h.setTodo thread fun flows hflows g hg => ?_
      cases hflows
      rw [List.mem_singleton.mp hg]
      exact hf.2
    · exact h
  | closeSource thread source flows =>
    change Inv (s.closeSource thread source flows)
    unfold State.closeSource
    split_ifs with hflows
    · refine (h.closeSource source).setTodo thread fun flows' heq g hg => ?_
      cases heq
      exact h.mem_made_of_perm hflows.2 hg
    · exact h
  | closeTag thread tag flows =>
    change Inv (s.closeTag thread tag flows)
    unfold State.closeTag
    split_ifs with hflows
    · refine h.setTodo thread fun flows' heq g hg => ?_
      cases heq
      exact h.mem_made_of_perm hflows.2 hg
    · exact h
  | goOn thread => exact h.goOn thread

end

end Inv

/-! ## closeSource -/

variable {s : State}

namespace State

theorem pool_step (s : State) (a : Action) :
    (s.step a).pool = s.pool ∨
      (∃ source, a = .activateSource source ∧ (s.step a).pool = s.pool.activateSource source) ∨
      (∃ source, (s.step a).pool = s.pool.closeSource source) ∨
      (∃ f, s.pool.reserveTagged f = some (s.step a).pool) ∨
      ∃ f, (s.step a).pool = s.pool.remove f := by
  cases a with
  | activateSource source => exact .inr (.inl ⟨source, rfl, rfl⟩)
  | reserveTagged source tag =>
    rw [step, reserveTagged]
    cases hq : s.pool.reserveTagged (s.nextFlow source tag) with
    | none => exact .inl rfl
    | some => exact .inr (.inr (.inr (.inl ⟨_, hq⟩)))
  | add =>
    rw [step, add]
    split_ifs <;> exact .inl rfl
  | close =>
    rw [step, close]
    split_ifs <;> exact .inl rfl
  | closeSource thread source =>
    rw [step, closeSource]
    split_ifs
    · exact .inr (.inr (.inl ⟨source, rfl⟩))
    · exact .inl rfl
  | closeTag =>
    rw [step, closeTag]
    split_ifs <;> exact .inl rfl
  | goOn thread =>
    rw [step, goOn]
    cases s.todo thread with
    | none => exact .inl rfl
    | some flows =>
      cases flows with
      | nil => exact .inl rfl
      | cons f =>
        dsimp only
        cases (s.flow f).once with
        | fresh => exact .inl rfl
        | body thread' stage =>
          dsimp only
          split_ifs
          · cases stage with
            | conns => exact .inl rfl
            | pool => exact .inr (.inr (.inr (.inr ⟨f, rfl⟩)))
            | finish => exact .inl rfl
          · exact .inl rfl
        | done => exact .inl rfl

theorem todo_step (h : s.todo thread = some flows) (a : Action) :
    (s.step a).todo thread = some flows ∨ flows = [] ∨
      ∃ f rest, flows = f :: rest ∧ (s.flow f).once = .done ∧
        (s.step a).todo thread = some rest := by
  have hother : ∀ {thread' : Nat} (todo : Option (List Flow)), s.todo thread' = none →
      (s.setTodo thread' todo).todo thread = some flows := by
    intro thread' todo hnone
    have hne : thread ≠ thread' := by
      rintro rfl
      rw [h] at hnone
      cases hnone
    rw [todo_setTodo_of_ne s hne, h]
  cases a with
  | activateSource => exact .inl h
  | reserveTagged source tag =>
    rw [step, reserveTagged]
    cases s.pool.reserveTagged (s.nextFlow source tag) <;> exact .inl h
  | add =>
    rw [step, add]
    split_ifs <;> exact .inl h
  | close =>
    rw [step, close]
    split_ifs with hf
    · exact .inl (hother _ hf.1)
    · exact .inl h
  | closeSource =>
    rw [step, closeSource]
    split_ifs with hf
    · exact .inl (hother _ hf.1)
    · exact .inl h
  | closeTag =>
    rw [step, closeTag]
    split_ifs with hf
    · exact .inl (hother _ hf.1)
    · exact .inl h
  | goOn thread' =>
    rw [step, goOn]
    cases htodo : s.todo thread' with
    | none => exact .inl h
    | some flows' =>
      cases flows' with
      | nil =>
        rcases eq_or_ne thread thread' with rfl | hne
        · rw [h] at htodo
          exact .inr (.inl (Option.some.inj htodo))
        · exact .inl ((todo_setTodo_of_ne s hne _).trans h)
      | cons f rest =>
        dsimp only
        cases honce : (s.flow f).once with
        | fresh => exact .inl h
        | body thread'' stage =>
          dsimp only
          split_ifs
          · cases stage <;> exact .inl h
          · exact .inl h
        | done =>
          rcases eq_or_ne thread thread' with rfl | hne
          · rw [h] at htodo
            exact .inr (.inr ⟨f, rest, Option.some.inj htodo, honce, todo_setTodo_self s _ _⟩)
          · exact .inl ((todo_setTodo_of_ne s hne _).trans h)

end State

structure Barred (source : Text) (p : Pool) : Prop where
  inactive : p.sources source = false
  closed : source = [] → p.closed = true

variable {source : Text}

theorem Barred.not_covers (h : Barred source p) (hq : p.reserveTagged f = some q) :
    ¬ Covers source f := by
  obtain ⟨hclosed, hsource, -⟩ := Pool.reserveTagged_eq_some hq
  rintro (rfl | rfl)
  · rw [h.closed rfl] at hclosed
    cases hclosed
  · rw [h.inactive] at hsource
    cases hsource

variable {a : Action}

theorem Barred.step (h : Barred source s.pool) (ha : a ≠ .activateSource source) :
    Barred source (s.step a).pool := by
  rcases s.pool_step a with heq | ⟨source', rfl, heq⟩ | ⟨source', heq⟩ | ⟨f, heq⟩ | ⟨f, heq⟩
  · rw [heq]
    exact h
  · have hne : source ≠ source' := fun hsame => ha (hsame ▸ rfl)
    rw [heq]
    exact ⟨(Function.update_of_ne hne _ _).trans h.inactive, h.closed⟩
  · rw [heq]
    refine ⟨?_, fun hnil => ?_⟩
    · rcases eq_or_ne source source' with rfl | hne
      · exact Function.update_self ..
      · exact (Function.update_of_ne hne _ _).trans h.inactive
    · rw [Pool.closeSource, h.closed hnil, Bool.true_or]
  · obtain ⟨-, -, -, hclosed, hsources⟩ := Pool.reserveTagged_eq_some heq
    exact ⟨hsources ▸ h.inactive, fun hnil => hclosed.trans (h.closed hnil)⟩
  · rw [heq]
    exact ⟨by rw [Pool.sources_remove, h.inactive],
      fun hnil => by rw [Pool.closed_remove, h.closed hnil]⟩

theorem Barred.mem_flows (h : Barred source s.pool) (hf : f ∈ (s.step a).pool.flows)
    (hcovers : Covers source f) : f ∈ s.pool.flows := by
  rcases s.pool_step a with heq | ⟨source', rfl, heq⟩ | ⟨source', heq⟩ | ⟨g, heq⟩ | ⟨g, heq⟩
  · rwa [heq] at hf
  · rwa [heq] at hf
  · rwa [heq] at hf
  · obtain ⟨-, -, hflows, -⟩ := Pool.reserveTagged_eq_some heq
    rw [hflows] at hf
    rcases List.mem_cons.mp hf with rfl | hf
    · exact absurd hcovers (h.not_covers heq)
    · exact hf
  · rw [heq, Pool.flows_remove] at hf
    exact List.mem_of_mem_erase hf

structure Cleared (source : Text) (s : State) : Prop where
  inv : Inv s
  barred : Barred source s.pool
  flows : ∀ f ∈ s.pool.flows, ¬ Covers source f

theorem Cleared.step (h : Cleared source s) (ha : a ≠ .activateSource source) :
    Cleared source (s.step a) :=
  ⟨h.inv.step a, h.barred.step ha, fun f hf hcovers =>
    h.flows f (h.barred.mem_flows hf hcovers) hcovers⟩

structure Closing (thread : Nat) (source : Text) (s : State) : Prop where
  inv : Inv s
  barred : Barred source s.pool
  flows : ∃ flows, s.todo thread = some flows ∧ ∀ f ∈ s.pool.flows, Covers source f → f ∈ flows

namespace Closing

variable {thread : Nat} {source : Text} {s : State}

theorem step (h : Closing thread source s) (ha : a ≠ .activateSource source) :
    Closing thread source (s.step a) ∨ Cleared source (s.step a) := by
  have hinv := h.inv.step a
  have hbarred := h.barred.step ha
  obtain ⟨flows, htodo, hall⟩ := h.flows
  have hkept : ∀ f ∈ (s.step a).pool.flows, Covers source f → f ∈ s.pool.flows ∧ f ∈ flows := by
    intro f hf hcovers
    have hmem := h.barred.mem_flows hf hcovers
    exact ⟨hmem, hall f hmem hcovers⟩
  rcases State.todo_step htodo a with hsame | rfl | ⟨f, rest, rfl, honce, hrest⟩
  · exact .inl ⟨hinv, hbarred, flows, hsame, fun f hf hcovers => (hkept f hf hcovers).2⟩
  · exact .inr ⟨hinv, hbarred, fun f hf hcovers => absurd (hkept f hf hcovers).2 List.not_mem_nil⟩
  · refine .inl ⟨hinv, hbarred, rest, hrest, fun g hg hcovers => ?_⟩
    obtain ⟨hmem, hflows⟩ := hkept g hg hcovers
    rcases List.mem_cons.mp hflows with rfl | hflows
    · exact absurd (by rw [honce]; trivial) ((h.inv.mem_flows g).mp hmem).2
    · exact hflows

theorem of_closeSource (h : Inv s) (htodo : s.todo thread = none)
    (hperm : flows.Perm (s.pool.flows.filter (Covers source))) :
    Closing thread source (s.step (.closeSource thread source flows)) := by
  refine ⟨h.step _, ?_, ?_⟩ <;> rw [State.step, State.closeSource, if_pos ⟨htodo, hperm⟩]
  · refine ⟨Function.update_self .., fun hnil => ?_⟩
    change (s.pool.closed || decide (source = [])) = true
    rw [decide_eq_true hnil, Bool.or_true]
  · refine ⟨flows, State.todo_setTodo_self _ _ _, fun f hf hcovers => hperm.mem_iff.mpr ?_⟩
    exact List.mem_filter.mpr ⟨hf, decide_eq_true hcovers⟩

theorem run (h : Closing thread source s) {as : List Action} (has : .activateSource source ∉ as) :
    Closing thread source (run State.step s as) ∨ Cleared source (run State.step s as) := by
  refine run_invariant_of_allSteps (I := fun s => Closing thread source s ∨ Cleared source s)
    (fun s a hs ha => ?_) (.inl h) (allSteps_of_forall
      (Q := (· ≠ .activateSource source)) fun a ha heq => has (heq ▸ ha))
  rcases hs with hs | hs
  · exact hs.step ha
  · exact .inr (hs.step ha)

end Closing

theorem Cleared.run (h : Cleared source s) {as : List Action} (has : .activateSource source ∉ as) :
    Cleared source (run State.step s as) :=
  run_invariant_of_allSteps (fun _ _ hs ha => hs.step ha) h
    (allSteps_of_forall (Q := fun a : Action => a ≠ .activateSource source) fun _ ha heq =>
      has (heq ▸ ha))

/-- The flow is in the pool, or its connections can be used. -/
def State.Open (s : State) (f : Flow) : Prop :=
  f ∈ s.pool.flows ∨ (s.flow f).closed = false ∨ true ∈ (s.flow f).conns

theorem Inv.not_open (h : Inv s) (hmade : f ∈ s.made) (hf : f ∉ s.pool.flows) :
    ¬ s.Open f := by
  have hremoved : (s.flow f).once.Removed := by
    by_contra hnot
    exact hf ((h.mem_flows f).mpr ⟨hmade, hnot⟩)
  have hshut : (s.flow f).once.Shut := by
    rcases honce : (s.flow f).once with _ | ⟨thread, _ | _ | _⟩ | _ <;> rw [honce] at hremoved
    · exact hremoved.elim
    · exact hremoved.elim
    · exact hremoved.elim
    · trivial
    · trivial
  obtain ⟨hclosed, hconns⟩ := h.shut f hshut
  rintro (hmem | hopen | hopen)
  · exact hf hmem
  · rw [hclosed] at hopen
    cases hopen
  · cases hconns true hopen

/-- In every state the counters are the numbers of flows and are within the limits.  Once
`closeSource` has returned, no flow of the source is open and none is admitted until
`activateSource` is called for it again. -/
theorem pool_accounted_and_cleared (as : List Action) :
    Accounted (run State.step init as).pool ∧ Within (run State.step init as).pool ∧
      ∀ (thread : Nat) (source : Text) (flows : List Flow) (bs : List Action) (n : Nat),
        (run State.step init as).todo thread = none →
        flows.Perm ((run State.step init as).pool.flows.filter (Covers source)) →
        .activateSource source ∉ bs →
        (run State.step init (as ++ .closeSource thread source flows :: bs.take n)).todo thread =
          none →
        (∀ f ∈ (run State.step init (as ++ .closeSource thread source flows :: bs)).made,
          Covers source f →
            ¬ (run State.step init (as ++ .closeSource thread source flows :: bs)).Open f) ∧
        ∀ f, Covers source f →
          (run State.step init (as ++ .closeSource thread source flows :: bs)).pool.reserveTagged
            f = none := by
  have hinv : Inv (run State.step init as) := run_invariant (fun s a hs => hs.step a) inv_init as
  refine ⟨hinv.accounted, hinv.within, fun thread source flows bs n htodo hperm hbs hreturned => ?_⟩
  rw [run_append, run_cons] at hreturned ⊢
  have hclosing := Closing.of_closeSource hinv htodo hperm
  generalize (run State.step init as).step (.closeSource thread source flows) = s
    at hclosing hreturned
  have hbefore : .activateSource source ∉ bs.take n := fun hmem => hbs (List.mem_of_mem_take hmem)
  have hafter : .activateSource source ∉ bs.drop n := fun hmem => hbs (List.mem_of_mem_drop hmem)
  have hreached : Cleared source (run State.step s (bs.take n)) := by
    rcases hclosing.run hbefore with h | h
    · obtain ⟨flows', hflows, -⟩ := h.flows
      rw [hreturned] at hflows
      cases hflows
    · exact h
  have hcleared := hreached.run hafter
  rw [← run_append, List.take_append_drop] at hcleared
  refine ⟨fun f hf hcovers => hcleared.inv.not_open hf fun hmem => hcleared.flows f hmem hcovers,
    fun f hcovers => ?_⟩
  cases hq : (run State.step s bs).pool.reserveTagged f with
  | none => rfl
  | some => exact absurd hcovers (hcleared.barred.not_covers hq)

def twoFlows : List Action :=
  [.activateSource ['a'], .reserveTagged ['a'] [], .reserveTagged ['a'] ['8', '0']]

/-- A thread closes the source while another one is in `close` of one of its flows. -/
theorem pool_cleared_of_two :
    (run State.step init twoFlows).pool.egressTotal = 1 ∧
      ¬ (run State.step init
        (twoFlows ++ .closeSource 0 ['a'] [⟨0, ['a'], []⟩, ⟨1, ['a'], ['8', '0']⟩] ::
        ([.close 1 ⟨0, ['a'], []⟩] ++ List.replicate 3 (.goOn 1) ++ List.replicate 5 (.goOn 0) ++
          List.replicate 2 (.goOn 1) ++ List.replicate 7 (.goOn 0)))).Open ⟨0, ['a'], []⟩ := by
  refine ⟨by decide, ?_⟩
  have h := (pool_accounted_and_cleared twoFlows).2.2 0 ['a'] [⟨0, ['a'], []⟩,
    ⟨1, ['a'], ['8', '0']⟩]
    ([.close 1 ⟨0, ['a'], []⟩] ++ List.replicate 3 (.goOn 1) ++ List.replicate 5 (.goOn 0) ++
      List.replicate 2 (.goOn 1) ++ List.replicate 7 (.goOn 0)) 18 (by decide) (by decide)
        (by decide) (by decide)
  exact h.1 _ (by decide) (.inr rfl)

end Jerboa.Native.Egress
