import Mathlib.Data.List.AList

/-!
# Directories

A directory leads from names to files, as a file system has it: a file is
written through its number, also after its name has been removed or given to
another file, and a rename moves a number from one name to another.  No file
has two names here.
-/

namespace Jerboa.Lib

universe u v

structure File (β : Type v) where
  content : β
  mtime : Int
deriving DecidableEq

structure Dir (κ : Type u) (β : Type v) where
  names : AList fun _ : κ => Nat
  files : List (File β)

namespace Dir

variable {κ : Type u} {β : Type v} [DecidableEq κ]

def find (d : Dir κ β) (n : κ) : Option Nat := d.names.lookup n

/-- The file of a name. -/
def file (d : Dir κ β) (n : κ) : Option (File β) := (d.find n).bind fun i => d.files[i]?

/-- A new file. -/
def create (d : Dir κ β) (n : κ) (f : File β) : Dir κ β where
  names := d.names.insert n d.files.length
  files := d.files ++ [f]

def unlink (d : Dir κ β) (n : κ) : Dir κ β := { d with names := d.names.erase n }

def write (d : Dir κ β) (i : Nat) (f : File β) : Dir κ β := { d with files := d.files.set i f }

def modify (d : Dir κ β) (n : κ) (g : File β → File β) : Dir κ β :=
  match d.find n with
  | none => d
  | some i =>
    match d.files[i]? with
    | none => d
    | some f => d.write i (g f)

/-- The file of `n` gets the name `m`, in place of the file that had it. -/
def rename (d : Dir κ β) (n m : κ) : Dir κ β :=
  match d.find n with
  | none => d
  | some i => { d with names := (d.names.erase n).insert m i }

/-- Names lead to files, and to different ones. -/
structure Wf (d : Dir κ β) : Prop where
  lt : ∀ n i, d.find n = some i → i < d.files.length
  inj : ∀ n m i, d.find n = some i → d.find m = some i → n = m

variable {d : Dir κ β} {n m : κ} {i : Nat} {f : File β}

theorem file_eq_some (h : d.file n = some f) : ∃ i, d.find n = some i ∧ d.files[i]? = some f :=
  Option.bind_eq_some_iff.mp h

/-! ## Lookups -/

theorem find_create (d : Dir κ β) (n m : κ) (f : File β) :
    (d.create n f).find m = if m = n then some d.files.length else d.find m := by
  by_cases h : m = n
  · subst h
    rw [if_pos rfl]
    exact AList.lookup_insert _
  · rw [if_neg h]
    exact AList.lookup_insert_ne h

theorem find_unlink (d : Dir κ β) (n m : κ) :
    (d.unlink n).find m = if m = n then none else d.find m := by
  by_cases h : m = n
  · subst h
    rw [if_pos rfl]
    exact AList.lookup_erase _ _
  · rw [if_neg h]
    exact AList.lookup_erase_ne h

theorem find_modify (d : Dir κ β) (n m : κ) (g : File β → File β) :
    (d.modify n g).find m = d.find m := by
  unfold modify
  split
  · rfl
  · split
    · rfl
    · rfl

theorem find_rename (h : d.find n = some i) (m k : κ) :
    (d.rename n m).find k = if k = m then some i else if k = n then none else d.find k := by
  unfold rename
  rw [h]
  by_cases hm : k = m
  · subst hm
    rw [if_pos rfl]
    exact AList.lookup_insert _
  · rw [if_neg hm]
    refine (AList.lookup_insert_ne hm).trans ?_
    by_cases hn : k = n
    · subst hn
      rw [if_pos rfl]
      exact AList.lookup_erase _ _
    · rw [if_neg hn]
      exact AList.lookup_erase_ne hn

theorem files_create_of_lt (n : κ) (f : File β) (h : i < d.files.length) :
    (d.create n f).files[i]? = d.files[i]? :=
  List.getElem?_append_left h

omit [DecidableEq κ] in
theorem files_write_of_ne {j : Nat} (f : File β) (h : j ≠ i) :
    (d.write j f).files[i]? = d.files[i]? :=
  List.getElem?_set_ne h

theorem files_rename (d : Dir κ β) (n m : κ) : (d.rename n m).files = d.files := by
  unfold rename
  split
  · rfl
  · rfl

theorem length_files_modify (d : Dir κ β) (n : κ) (g : File β → File β) :
    (d.modify n g).files.length = d.files.length := by
  unfold modify
  split
  · rfl
  · split
    · rfl
    · exact List.length_set

theorem files_modify (d : Dir κ β) (n : κ) (g : File β → File β) (i : Nat) :
    (d.modify n g).files[i]? =
      if d.find n = some i then (d.files[i]?).map g else d.files[i]? := by
  unfold modify
  cases hn : d.find n with
  | none => simp
  | some j =>
    dsimp only
    cases hj : d.files[j]? with
    | none =>
      by_cases hij : j = i
      · subst hij
        simp [hj]
      · simp [hij]
    | some =>
      by_cases hij : j = i
      · subst hij
        obtain ⟨hlt, rfl⟩ := List.getElem?_eq_some_iff.mp hj
        simp [write, hlt]
      · simp [write, hij]

namespace Wf

theorem create (hd : d.Wf) (n : κ) (f : File β) : (d.create n f).Wf := by
  have hlen : (d.create n f).files.length = d.files.length + 1 := by
    rw [Dir.create, List.length_append, List.length_singleton]
  refine ⟨fun m i hm => ?_, fun m k i hm hk => ?_⟩
  · rw [find_create] at hm
    split_ifs at hm with h
    · cases hm
      omega
    · have := hd.lt m i hm
      omega
  · rw [find_create] at hm hk
    split_ifs at hm hk with h h'
    · rw [h, h']
    · cases hm
      exact absurd (hd.lt k _ hk) (Nat.lt_irrefl _)
    · cases hk
      exact absurd (hd.lt m _ hm) (Nat.lt_irrefl _)
    · exact hd.inj m k i hm hk

theorem unlink (hd : d.Wf) (n : κ) : (d.unlink n).Wf := by
  have hold : ∀ m i, (d.unlink n).find m = some i → d.find m = some i := by
    intro m i hm
    rw [find_unlink] at hm
    split_ifs at hm
    exact hm
  exact ⟨fun m i hm => hd.lt m i (hold m i hm),
    fun m k i hm hk => hd.inj m k i (hold m i hm) (hold k i hk)⟩

theorem write (hd : d.Wf) (i : Nat) (f : File β) : (d.write i f).Wf :=
  ⟨fun m j hm => by rw [Dir.write, List.length_set]; exact hd.lt m j hm, hd.inj⟩

theorem modify (hd : d.Wf) (n : κ) (g : File β → File β) : (d.modify n g).Wf := by
  refine ⟨fun m i hm => ?_, fun m k i hm hk => ?_⟩
  · rw [find_modify] at hm
    rw [length_files_modify]
    exact hd.lt m i hm
  · rw [find_modify] at hm hk
    exact hd.inj m k i hm hk

theorem rename (hd : d.Wf) (n m : κ) : (d.rename n m).Wf := by
  cases hn : d.find n with
  | none =>
    unfold Dir.rename
    rwa [hn]
  | some i =>
    refine ⟨fun k j hk => ?_, fun k l j hk hl => ?_⟩
    · rw [files_rename]
      rw [find_rename hn] at hk
      split_ifs at hk
      · cases hk
        exact hd.lt n i hn
      · exact hd.lt k j hk
    · rw [find_rename hn] at hk hl
      split_ifs at hk hl with h1 h2 h3 h4 h5
      · rw [h1, h2]
      · cases hk
        exact absurd (hd.inj l n i hl hn) h3
      · cases hl
        exact absurd (hd.inj k n i hk hn) ‹_›
      · exact hd.inj k l j hk hl

end Wf

theorem file_create_of_ne (hd : d.Wf) (f : File β) (hne : m ≠ n) :
    (d.create n f).file m = d.file m := by
  unfold file
  rw [find_create, if_neg hne]
  cases hm : d.find m with
  | none => rfl
  | some i => exact files_create_of_lt n f (hd.lt m i hm)

theorem file_unlink_of_ne (hne : m ≠ n) : (d.unlink n).file m = d.file m := by
  unfold file
  rw [find_unlink, if_neg hne]
  rfl

theorem file_write_of_ne (f : File β) (honly : ∀ k, d.find k = some i → k = n) (hne : m ≠ n) :
    (d.write i f).file m = d.file m := by
  unfold file
  cases hm : (d.write i f).find m with
  | none =>
    rw [show d.find m = none from hm]
    rfl
  | some j =>
    have hj : d.find m = some j := hm
    have hij : i ≠ j := fun heq => hne (honly m (heq ▸ hj))
    rw [hj]
    exact files_write_of_ne f hij

theorem file_modify_self (d : Dir κ β) (n : κ) (g : File β → File β) :
    (d.modify n g).file n = (d.file n).map g := by
  unfold file
  rw [find_modify]
  cases hn : d.find n with
  | none => rfl
  | some =>
    rw [Option.bind_some, Option.bind_some, files_modify, if_pos hn]

theorem file_modify_of_ne (hd : d.Wf) (g : File β → File β) (hne : m ≠ n) :
    (d.modify n g).file m = d.file m := by
  unfold file
  rw [find_modify]
  cases hm : d.find m with
  | none => rfl
  | some i =>
    have hni : d.find n ≠ some i := fun hn => hne (hd.inj m n i hm hn)
    rw [Option.bind_some, Option.bind_some, files_modify, if_neg hni]

theorem file_rename (h : d.find n = some i) (m k : κ) :
    (d.rename n m).file k = if k = m then d.file n else if k = n then none else d.file k := by
  unfold file
  rw [find_rename h, files_rename, h]
  split_ifs
  · rfl
  · rfl
  · rfl

/-- Nothing has changed but the file of the name, which may be a new one. -/
structure OnlyAt (n : κ) (d d' : Dir κ β) : Prop where
  wf : d'.Wf
  length : d.files.length ≤ d'.files.length
  find : ∀ m, m ≠ n → d'.find m = d.find m
  file : ∀ m, m ≠ n → d'.file m = d.file m
  find_self : ∀ i, d'.find n = some i → d.find n = some i ∨ d.files.length ≤ i

namespace Wf

theorem onlyAt_create (hd : d.Wf) (n : κ) (f : File β) : OnlyAt n d (d.create n f) := by
  refine ⟨hd.create n f, ?_, fun m hne => ?_, fun m hne => file_create_of_ne hd f hne,
    fun i hi => ?_⟩
  · rw [Dir.create, List.length_append]
    exact Nat.le_add_right _ _
  · rw [find_create, if_neg hne]
  · rw [find_create, if_pos rfl] at hi
    exact .inr (Nat.le_of_eq (Option.some.inj hi))

theorem onlyAt_unlink (hd : d.Wf) (n : κ) : OnlyAt n d (d.unlink n) := by
  refine ⟨hd.unlink n, Nat.le_refl _, fun m hne => ?_, fun m hne => file_unlink_of_ne hne,
    fun i hi => ?_⟩
  · rw [find_unlink, if_neg hne]
  · rw [find_unlink, if_pos rfl] at hi
    cases hi

theorem onlyAt_write (hd : d.Wf) (f : File β) (honly : ∀ k, d.find k = some i → k = n) :
    OnlyAt n d (d.write i f) :=
  ⟨hd.write i f, Nat.le_of_eq List.length_set.symm, fun _ _ => rfl,
    fun _ hne => file_write_of_ne f honly hne, fun _ hi => .inl hi⟩

theorem onlyAt_modify (hd : d.Wf) (n : κ) (g : File β → File β) : OnlyAt n d (d.modify n g) := by
  refine ⟨hd.modify n g, Nat.le_of_eq (length_files_modify d n g).symm,
    fun m _ => find_modify d n m g, fun m hne => file_modify_of_ne hd g hne, fun i hi => .inl ?_⟩
  rwa [find_modify] at hi

end Wf

end Dir

end Jerboa.Lib
