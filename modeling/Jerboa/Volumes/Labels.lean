import Jerboa.Volumes.Store
import Mathlib.Data.List.Nodup

/-!
# Labels

The guest finds a volume by its label.  As long as every volume gets a label that no
other has, the volumes of a VM have labels of their own, and each is mounted where the
request says.
-/

namespace Jerboa.Volumes

open List Boot Lib Lib.Run Naming Net.Address

theorem diskPath_inj {a b : Text} : diskPath a = diskPath b ↔ a = b := append_left_inj _

variable {name : Text}

theorem matchesResourceName_of_validate (h : validateResourceName name = .ok ()) :
    matchesResourceName name = true := by
  unfold validateResourceName at h
  split_ifs at h with hempty hlen hsep hmatch hdot hdevice
  exact hmatch

/-- A text that the guest can only take for a label. -/
structure Plain (label : Text) : Prop where
  length : label.length ≤ maxLabelLen
  head : ∃ c, label.head? = some c ∧ c.isAlphanum = true

theorem head_of_matchesResourceName (h : matchesResourceName name = true) :
    ∃ c, name.head? = some c ∧ c.isAlphanum = true := by
  cases name with
  | nil => cases h
  | cons c =>
    rw [matchesResourceName, Bool.and_eq_true] at h
    exact ⟨c, rfl, h.1⟩

theorem length_le_byteLen (name : Text) : name.length ≤ byteLen name := by
  induction name with
  | nil => exact Nat.le_refl _
  | cons c name ih =>
    have hpos := c.utf8Size_pos
    rw [byteLen, map_cons, sum_cons, length_cons]
    rw [byteLen] at ih
    omega

theorem plain_sanitizeLabel (h : validateResourceName name = .ok ()) :
    Plain (sanitizeLabel name) := by
  obtain ⟨c, hhead, hc⟩ := head_of_matchesResourceName (matchesResourceName_of_validate h)
  unfold sanitizeLabel
  split_ifs with hlen
  · exact ⟨length_take_le _ _, c, by rw [head?_take, if_neg (by decide), hhead], hc⟩
  · exact ⟨(length_le_byteLen name).trans (Nat.le_of_not_lt hlen), c, hhead, hc⟩

theorem Plain.volumeMatch_iff {label : Text} (h : Plain label) (v : GuestVolume) :
    volumeMatch label v = true ↔ label = v.label := by
  obtain ⟨c, hhead, hc⟩ := h.head
  have hpercent : (label.head? == some '%') = false := by
    rw [hhead, beq_eq_false_iff_ne, ne_eq, Option.some_inj]
    rintro rfl
    cases hc
  have hlength : (label.length == 36) = false := by
    have hle : label.length ≤ 31 := h.length
    rw [beq_eq_false_iff_ne]
    omega
  rw [volumeMatch, hpercent, hlength, Bool.and_false, Bool.false_and, Bool.false_and, Bool.false_or,
    Bool.or_false, beq_iff_eq]

/-! ## The store -/

/-- The action gives no volume the label of another, and a disk that is imported has the
label it is imported under. -/
def NewLabel (s : Store) : Action → Prop
  | .create name _ => ∀ v ∈ s, v.id ≠ name → v.label ≠ sanitizeLabel name
  | .importVolume name label _ disk _ =>
    (∀ v ∈ s, v.id ≠ name → v.label ≠ label) ∧ ∀ l ∈ disk, l = label
  | .remove _ _ => True
  | .run _ => True

instance (s : Store) (a : Action) : Decidable (NewLabel s a) := by
  cases a <;> unfold NewLabel <;> infer_instance

structure Inv (s : Store) : Prop where
  plain : ∀ v ∈ s, Plain v.label
  ids : ∀ v ∈ s, ∀ w ∈ s, v.id = w.id → v = w
  labels : ∀ v ∈ s, ∀ w ∈ s, v.label = w.label → v.id = w.id
  disk : ∀ v ∈ s, ∀ l ∈ v.disk, l = v.label

variable {s : Store} {v : Volume}

theorem Store.mem_of_find (h : s.find name = some v) : v ∈ s ∧ v.id = name :=
  ⟨mem_of_find?_eq_some h, by simpa using find?_some h⟩

theorem Store.id_ne_of_find (h : s.find name = none) (hv : v ∈ s) :
    v.id ≠ name := by
  rw [find, find?_eq_none] at h
  exact fun heq => h v hv (decide_eq_true heq)

theorem inv_nil : Inv [] :=
  ⟨nofun, nofun,
    nofun, nofun⟩

namespace Inv

variable {s : Store}

theorem append (h : Inv s) (hfind : s.find v.id = none) (hplain : Plain v.label)
    (hlabel : ∀ w ∈ s, w.id ≠ v.id → w.label ≠ v.label) (hdisk : ∀ l ∈ v.disk, l = v.label) :
    Inv (s ++ [v]) := by
  have hnew : ∀ w ∈ s, w.id ≠ v.id ∧ w.label ≠ v.label := fun w hw =>
    ⟨Store.id_ne_of_find hfind hw, hlabel w hw (Store.id_ne_of_find hfind hw)⟩
  have hcases : ∀ w ∈ s ++ [v], w ∈ s ∨ w = v := fun w hw =>
    (mem_append.mp hw).imp_right mem_singleton.mp
  refine ⟨fun w hw => ?_, fun w hw x hx heq => ?_, fun w hw x hx heq => ?_, fun w hw => ?_⟩
  · rcases hcases w hw with hw | rfl
    · exact h.plain w hw
    · exact hplain
  · rcases hcases w hw with hold | rfl <;> rcases hcases x hx with hold' | rfl
    · exact h.ids w hold x hold' heq
    · exact absurd heq (hnew w hold).1
    · exact absurd heq.symm (hnew x hold').1
    · rfl
  · rcases hcases w hw with hold | rfl <;> rcases hcases x hx with hold' | rfl
    · exact h.labels w hold x hold' heq
    · exact absurd heq (hnew w hold).2
    · exact absurd heq.symm (hnew x hold').2
    · rfl
  · rcases hcases w hw with hw | rfl
    · exact h.disk w hw
    · exact hdisk

variable {s' : Store}

theorem create (h : Inv s) {made : Bool} (hnew : NewLabel s (.create name made))
    (hs : s.create name made = .ok s') : Inv s' := by
  simp only [Store.create, bind_eq_ok, mapError_eq_ok, throwIf_eq_ok, pure_eq_ok, not_not] at hs
  obtain ⟨⟨⟩, hname, ⟨⟩, hfind, ⟨⟩, -, rfl⟩ := hs
  exact h.append hfind (plain_sanitizeLabel hname) hnew fun l hl => by cases hl

theorem importVolume (h : Inv s) {name label : Text} {size : Int} {disk : Option Text} {made : Bool}
    (hnew : NewLabel s (.importVolume name label size disk made))
    (hs : s.importVolume name label size disk made = .ok s') : Inv s' := by
  simp only [Store.importVolume, bind_eq_ok, mapError_eq_ok, throwIf_eq_ok, pure_eq_ok, not_not,
    not_or] at hs
  obtain ⟨⟨⟩, -, ⟨⟩, ⟨-, hlength⟩, ⟨⟩, hlabel, ⟨⟩, -, ⟨⟩, hfind, rfl⟩ := hs
  refine h.append hfind ⟨?_, head_of_matchesResourceName (matchesResourceName_of_validate hlabel)⟩
    hnew.1 hnew.2
  exact (length_le_byteLen label).trans (Nat.le_of_not_lt hlength)

theorem remove (h : Inv s) {removed : Bool} (hs : s.remove name removed = .ok s') :
    Inv s' := by
  simp only [Store.remove, bind_eq_ok, mapError_eq_ok, throwIf_eq_ok, pure_eq_ok] at hs
  obtain ⟨-, -, -, -, -, -, rfl⟩ := hs
  have hmem : ∀ v ∈ s.filter (·.id ≠ name), v ∈ s := fun v hv => (mem_filter.mp hv).1
  exact ⟨fun v hv => h.plain v (hmem v hv), fun v hv w hw => h.ids v (hmem v hv) w (hmem w hw),
    fun v hv w hw => h.labels v (hmem v hv) w (hmem w hw), fun v hv => h.disk v (hmem v hv)⟩

end Inv

/-! ## Requests -/

structure Resolved (s : Store) (sp : VolumeMountSpec) : Prop where
  diskPath : sp.diskPath = diskPath sp.name
  volume : ∃ v ∈ s, v.id = sp.name ∧ v.label = sp.label

theorem resolve_eq_ok {m sp : VolumeMountSpec} (h : resolve s m = .ok sp) :
    sp.name = m.name ∧ sp.guestPath = m.guestPath ∧ Resolved s sp := by
  simp only [resolve, Store.get, bind_eq_ok, mapError_eq_ok, throwIf_eq_ok, pure_eq_ok] at h
  obtain ⟨⟨⟩, -, v, ⟨⟨⟩, -, hfind⟩, rfl⟩ := h
  cases hv : s.find m.name with
  | none =>
    rw [hv] at hfind
    cases hfind
  | some =>
    rw [hv] at hfind
    cases hfind
    obtain ⟨hmem, hid⟩ := Store.mem_of_find hv
    exact ⟨rfl, rfl, rfl, v, hmem, hid, rfl⟩

structure Later (s s' : Store) : Prop where
  inv : Inv s'
  kept : ∀ v ∈ s, ∃ w ∈ s', w.id = v.id ∧ w.label = v.label ∧ (v.disk ≠ none → w.disk ≠ none)

theorem Inv.later_self (h : Inv s) : Later s s := ⟨h, fun v hv => ⟨v, hv, rfl, rfl, id⟩⟩

theorem Later.trans {s s' s'' : Store} (h : Later s s') (h' : Later s' s'') : Later s s'' := by
  refine ⟨h'.inv, fun v hv => ?_⟩
  obtain ⟨w, hw, hid, hlabel, hdisk⟩ := h.kept v hv
  obtain ⟨x, hx, hid', hlabel', hdisk'⟩ := h'.kept w hw
  exact ⟨x, hx, hid'.trans hid, hlabel'.trans hlabel, hdisk' ∘ hdisk⟩

variable {sp : VolumeMountSpec}

theorem Resolved.later {s s' : Store} (h : Resolved s sp) (hs : Later s s') :
    Resolved s' sp := by
  obtain ⟨v, hv, hid, hlabel⟩ := h.volume
  obtain ⟨w, hw, hid', hlabel', -⟩ := hs.kept v hv
  exact ⟨h.diskPath, w, hw, hid'.trans hid, hlabel'.trans hlabel⟩

theorem Inv.format (h : Inv s) (hv : v ∈ s) : Later s (s.format (diskPath v.id) v.label) := by
  -- an entry of the new store is one of the old store, with its own label on the disk
  have hmem : ∀ w ∈ s.format (diskPath v.id) v.label, ∃ x ∈ s, w.id = x.id ∧ w.label = x.label ∧
      (w = x ∨ w = { x with disk := some x.label }) := by
    intro w hw
    obtain ⟨x, hx, rfl⟩ := mem_map.mp hw
    split_ifs with hpath
    · rw [h.ids x hx v hv (diskPath_inj.mp hpath)]
      exact ⟨v, hv, rfl, rfl, .inr rfl⟩
    · exact ⟨x, hx, rfl, rfl, .inl rfl⟩
  refine ⟨⟨fun w hw => ?_, fun w hw w' hw' heq => ?_, fun w hw w' hw' heq => ?_,
    fun w hw l hl => ?_⟩, fun x hx => ?_⟩
  · obtain ⟨x, hx, -, hlabel, -⟩ := hmem w hw
    exact hlabel ▸ h.plain x hx
  · obtain ⟨x, hx, rfl⟩ := mem_map.mp hw
    obtain ⟨x', hx', rfl⟩ := mem_map.mp hw'
    have hid : ∀ y : Volume,
        (if diskPath y.id = diskPath v.id then { y with disk := some v.label } else y).id =
            y.id := by
      intro y
      split_ifs <;> rfl
    rw [hid, hid] at heq
    rw [h.ids x hx x' hx' heq]
  · obtain ⟨x, hx, hid, hlabel, -⟩ := hmem w hw
    obtain ⟨x', hx', hid', hlabel', -⟩ := hmem w' hw'
    rw [hid, hid']
    exact h.labels x hx x' hx' (by rw [← hlabel, ← hlabel', heq])
  · obtain ⟨x, hx, -, hlabel, rfl | rfl⟩ := hmem w hw
    · exact h.disk w hx l hl
    · exact (Option.some.inj hl).symm
  · refine ⟨_, mem_map.mpr ⟨x, hx, rfl⟩, ?_⟩
    split_ifs
    · exact ⟨rfl, rfl, nofun⟩
    · exact ⟨rfl, rfl, id⟩

theorem Inv.diskLabel_eq (h : Inv s) (hv : v ∈ s) :
    s.diskLabel (diskPath v.id) = v.disk := by
  unfold Store.diskLabel
  cases hfind : List.find? (fun w : Volume => diskPath w.id = diskPath v.id) s with
  | none =>
    rw [find?_eq_none] at hfind
    exact absurd (decide_eq_true rfl) (hfind v hv)
  | some w =>
    have hid : w.id = v.id := by simpa [diskPath_inj] using find?_some hfind
    rw [h.ids w (mem_of_find?_eq_some hfind) v hv hid, Option.bind_some]

theorem Resolved.diskLabel_eq (h : Resolved s sp) (hinv : Inv s)
    (hdisk : s.diskLabel sp.diskPath ≠ none) : s.diskLabel sp.diskPath = some sp.label := by
  obtain ⟨v, hv, hid, hlabel⟩ := h.volume
  rw [h.diskPath, ← hid, hinv.diskLabel_eq hv] at hdisk ⊢
  obtain ⟨l, hl⟩ := Option.ne_none_iff_exists'.mp hdisk
  rw [hl, hinv.disk v hv l hl, hlabel]

theorem Resolved.diskLabel_later {s s' : Store} (h : Resolved s sp) (hinv : Inv s) (hs : Later s s')
    (hdisk : s.diskLabel sp.diskPath ≠ none) : s'.diskLabel sp.diskPath ≠ none := by
  obtain ⟨v, hv, hid, -⟩ := h.volume
  obtain ⟨w, hw, hid', -, hkept⟩ := hs.kept v hv
  rw [h.diskPath, ← hid, hinv.diskLabel_eq hv] at hdisk
  rw [h.diskPath, ← hid, ← hid', hs.inv.diskLabel_eq hw]
  exact hkept hdisk

variable {req : Request}

theorem Resolved.ensureFormatted {s s' : Store} (h : Resolved s sp) (hinv : Inv s)
    (hs : ensureFormatted req s sp = .ok s') :
    Later s s' ∧ (sp.guestPath ≠ [] → s'.diskLabel sp.diskPath ≠ none) := by
  obtain ⟨v, hv, hid, hlabel⟩ := h.volume
  have hpath : sp.diskPath ≠ [] := by
    rw [h.diskPath, Volumes.diskPath]
    exact append_ne_nil_of_right_ne_nil _ (by decide)
  have hne : sp.label ≠ [] := by
    obtain ⟨c, hc, -⟩ := (hinv.plain v hv).head
    intro hnil
    rw [hlabel, hnil] at hc
    cases hc
  unfold Volumes.ensureFormatted at hs
  rw [if_neg hne] at hs
  split_ifs at hs with hskip hreadOnly hformatted
  · cases hs
    exact ⟨hinv.later_self, fun hne => absurd hskip (not_or.mpr ⟨hpath, hne⟩)⟩
  · simp only [bind_eq_ok, throwIf_eq_ok, pure_eq_ok] at hs
    obtain ⟨⟨⟩, hdisk, rfl⟩ := hs
    exact ⟨hinv.later_self, fun _ => hdisk⟩
  · cases hs
    exact ⟨hinv.later_self, fun _ => hformatted⟩
  · simp only [bind_eq_ok, throwIf_eq_ok, pure_eq_ok] at hs
    obtain ⟨⟨⟩, -, ⟨⟩, -, ⟨⟩, -, rfl⟩ := hs
    rw [← hlabel, h.diskPath, ← hid]
    refine ⟨hinv.format hv, fun _ => ?_⟩
    have hmem : { v with disk := some v.label } ∈ s.format (Volumes.diskPath v.id) v.label :=
      mem_map.mpr ⟨v, hv, if_pos rfl⟩
    have heq := (hinv.format hv).inv.diskLabel_eq hmem
    rw [heq]
    exact Option.some_ne_none _

theorem ensureVolumesFormatted_spec (hinv : Inv s) {specs : List VolumeMountSpec}
    (hspecs : ∀ sp ∈ specs, Resolved s sp) :
    Later s (ensureVolumesFormatted req s specs).1 ∧
      ((ensureVolumesFormatted req s specs).2 = .ok () → ∀ sp ∈ specs, sp.guestPath ≠ [] →
        (ensureVolumesFormatted req s specs).1.diskLabel sp.diskPath = some sp.label) := by
  induction specs generalizing s with
  | nil => exact ⟨hinv.later_self, nofun⟩
  | cons sp specs ih =>
    have hsp := hspecs sp mem_cons_self
    rw [ensureVolumesFormatted]
    cases hs : ensureFormatted req s sp with
    | error => exact ⟨hinv.later_self, nofun⟩
    | ok =>
      obtain ⟨hlater, hdisk⟩ := hsp.ensureFormatted hinv hs
      obtain ⟨hlater', hall⟩ := ih hlater.inv fun sp' hsp' =>
        (hspecs sp' (mem_cons_of_mem sp hsp')).later hlater
      refine ⟨hlater.trans hlater', fun hok sp' hsp' hpath => ?_⟩
      rcases mem_cons.mp hsp' with rfl | hsp'
      · have hresolved := hsp.later hlater
        exact (hresolved.later hlater').diskLabel_eq hlater'.inv
          (hresolved.diskLabel_later hlater.inv hlater' (hdisk hpath))
      · exact hall hok sp' hsp' hpath

theorem resolveNamedVolumes_spec {mounts specs : List VolumeMountSpec}
    (h : resolveNamedVolumes s mounts = .ok specs) :
    specs.map VolumeMountSpec.name = mounts.map VolumeMountSpec.name ∧
      (∀ sp ∈ specs, Resolved s sp) ∧
      ∀ m ∈ mounts, ∃ sp ∈ specs, sp.name = m.name ∧ sp.guestPath = m.guestPath := by
  unfold resolveNamedVolumes at h
  induction mounts generalizing specs with
  | nil =>
    rw [mapM_nil, pure_eq_ok] at h
    subst h
    exact ⟨rfl, nofun, nofun⟩
  | cons m mounts ih =>
    simp only [mapM_cons, bind_eq_ok, pure_eq_ok] at h
    obtain ⟨sp, hsp, specs', hspecs, rfl⟩ := h
    obtain ⟨hname, hpath, hresolved⟩ := resolve_eq_ok hsp
    obtain ⟨hnames, hall, hmounts⟩ := ih hspecs
    refine ⟨by rw [map_cons, map_cons, hname, hnames], forall_mem_cons.mpr ⟨hresolved, hall⟩, ?_⟩
    refine forall_mem_cons.mpr ⟨⟨sp, mem_cons_self, hname, hpath⟩, fun m' hm' => ?_⟩
    obtain ⟨sp', hsp', hsame⟩ := hmounts m' hm'
    exact ⟨sp', mem_cons_of_mem sp hsp', hsame⟩

theorem Inv.handleRun (h : Inv s) (req : Request) : Inv (handleRun s req).1 := by
  unfold Volumes.handleRun
  cases hspecs : resolveNamedVolumes s req.volumes with
  | error => exact h
  | ok => exact (ensureVolumesFormatted_spec h (resolveNamedVolumes_spec hspecs).2.1).1.inv

theorem Inv.step {a : Action} (h : Inv s) (ha : NewLabel s a) : Inv (step s a) := by
  have hgetD : ∀ {x : Except Err Store}, (∀ s', x = .ok s' → Inv s') → Inv (x.toOption.getD s) := by
    intro x hx
    cases x with
    | error => exact h
    | ok s' => exact hx s' rfl
  cases a with
  | create => exact hgetD fun s' hs => h.create ha hs
  | importVolume => exact hgetD fun s' hs => h.importVolume ha hs
  | remove => exact hgetD fun s' hs => h.remove hs
  | run req => exact h.handleRun req

theorem handleRun_eq_ok {cfg : Config} (h : (handleRun s req).2 = .ok cfg) :
    ∃ specs, resolveNamedVolumes s req.volumes = .ok specs ∧
      (handleRun s req).1 = (ensureVolumesFormatted req s specs).1 ∧
      (ensureVolumesFormatted req s specs).2 = .ok () ∧
        cfg.volumes = specs.map volumeMountFromSpec := by
  unfold handleRun at h ⊢
  cases hspecs : resolveNamedVolumes s req.volumes with
  | error =>
    rw [hspecs] at h
    cases h
  | ok specs =>
    rw [hspecs] at h
    simp only [bind_eq_ok, mapError_eq_ok, throwIf_eq_ok, pure_eq_ok] at h
    obtain ⟨⟨⟩, hformatted, ⟨⟩, -, ⟨⟩, -, rfl⟩ := h
    exact ⟨specs, rfl, rfl, hformatted, rfl⟩

/-- If no volume was given the label of another, then the volumes of every VM that a
request creates have different labels, and what the guest mounts at the path of one is
that volume and no other. -/
theorem volumes_identified (as : List Action) (has : AllSteps step NewLabel [] as) (req : Request)
    (hnames : (req.volumes.map VolumeMountSpec.name).Nodup) (cfg : Config)
    (hcfg : (handleRun (run step [] as) req).2 = .ok cfg) :
    (cfg.volumes.map VolumeMount.label).Nodup ∧
      ∀ m ∈ req.volumes, m.guestPath ≠ [] →
        ∃ mount ∈ cfg.volumes, mount.guestPath = m.guestPath ∧ mount.diskPath = diskPath m.name ∧
          (handleRun (run step [] as) req).1.diskLabel mount.diskPath = some mount.label ∧
          ∀ other ∈ cfg.volumes, ∀ v : GuestVolume,
            (handleRun (run step [] as) req).1.diskLabel other.diskPath = some v.label →
            (volumeMatch mount.label v = true ↔ other.diskPath = diskPath m.name) := by
  have hinv : Inv (run step [] as) := run_invariant_of_allSteps
    (fun s a hs ha => hs.step ha) inv_nil has
  obtain ⟨specs, hspecs, hstore, hformatted, hvolumes⟩ := handleRun_eq_ok hcfg
  obtain ⟨hsame, hresolved, hmounts⟩ := resolveNamedVolumes_spec hspecs
  obtain ⟨hlater, hdisk⟩ := ensureVolumesFormatted_spec hinv hresolved
  rw [← hstore] at hlater hdisk
  generalize (handleRun (run step [] as) req).1 = s at hlater hdisk
  have hnodup : (specs.map VolumeMountSpec.name).Nodup := hsame ▸ hnames
  -- labels tell the volumes apart
  have hlabels : ∀ sp ∈ specs, ∀ sp' ∈ specs, sp.label = sp'.label → sp.name = sp'.name := by
    intro sp hsp sp' hsp' heq
    obtain ⟨v, hv, hid, hlabel⟩ := (hresolved sp hsp).volume
    obtain ⟨v', hv', hid', hlabel'⟩ := (hresolved sp' hsp').volume
    rw [← hid, ← hid']
    exact hinv.labels v hv v' hv' (by rw [hlabel, hlabel', heq])
  rw [hvolumes]
  refine ⟨?_, fun m hm hpath => ?_⟩
  · rw [map_map]
    refine List.Nodup.map_on (fun sp hsp sp' hsp' heq => ?_) (hnodup.of_map _)
    exact inj_on_of_nodup_map hnodup hsp hsp' (hlabels sp hsp sp' hsp' heq)
  · obtain ⟨sp, hsp, hname, hguest⟩ := hmounts m hm
    refine ⟨volumeMountFromSpec sp, mem_map_of_mem hsp, hguest, ?_, ?_, fun other hother v hv => ?_⟩
    · rw [← hname]
      exact (hresolved sp hsp).diskPath
    · exact hdisk hformatted sp hsp (hguest.trans_ne hpath)
    · obtain ⟨sp', hsp', rfl⟩ := mem_map.mp hother
      change s.diskLabel sp'.diskPath = some v.label at hv
      change volumeMatch sp.label v = true ↔ sp'.diskPath = diskPath m.name
      have hresolved' := (hresolved sp' hsp').later hlater
      rw [hresolved'.diskLabel_eq hlater.inv (by rw [hv]; exact Option.some_ne_none _),
        Option.some_inj] at hv
      obtain ⟨w, hw, -, hlabel⟩ := (hresolved sp hsp).volume
      have hplain : Plain sp.label := hlabel ▸ hinv.plain w hw
      rw [hplain.volumeMatch_iff, ← hv, hresolved'.diskPath, diskPath_inj, ← hname]
      constructor
      · exact fun heq => (hlabels sp hsp sp' hsp' heq).symm
      · intro heq
        rw [inj_on_of_nodup_map hnodup hsp' hsp heq]

/-- A request that mounts two volumes. -/
def twoVolumes (name name' : Text) : Request where
  volumes := [{ name := name, guestPath := ['/', 'a'] }, { name := name', guestPath := ['/', 'b'] }]
  config := { imagePath := ['i'], memory := ['1', 'M'] }

theorem volumes_identified_two :
    ∃ cfg, (handleRun (run step [] [.create ['d'] true,
      .importVolume ['e'] ['f'] 4096 (some ['f']) true])
        (twoVolumes ['d'] ['e'])).2 = .ok cfg ∧ (cfg.volumes.map VolumeMount.label).Nodup := by
  have hok : (handleRun
    (run step [] [.create ['d'] true, .importVolume ['e'] ['f'] 4096 (some ['f']) true])
      (twoVolumes ['d'] ['e'])).2.toOption.isSome = true := by decide +kernel
  obtain ⟨cfg, hcfg⟩ := Option.isSome_iff_exists.mp hok
  exact ⟨cfg, eq_ok_of_toOption hcfg,
    (volumes_identified _ (by decide +kernel) _ (by decide) cfg (eq_ok_of_toOption hcfg)).1⟩

/-- Two names that differ after the bytes of a label. -/
def longName (c : Char) : Text := List.replicate 31 'a' ++ [c]

/-- Both volumes get one label, and the guest mounts either of them at both paths. -/
theorem truncated_alike :
    longName '1' ≠ longName '2' ∧
      ((handleRun (run step [] [.create (longName '1') true, .create (longName '2') true])
          (twoVolumes (longName '1') (longName '2'))).2.toOption.map
        fun cfg => cfg.volumes.map fun m => (m.guestPath, m.diskPath, m.label)) =
        some [(['/', 'a'], diskPath (longName '1'), List.replicate 31 'a'),
          (['/', 'b'], diskPath (longName '2'), List.replicate 31 'a')] := by
  decide +kernel

end Jerboa.Volumes
