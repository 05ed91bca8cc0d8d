import Jerboa.Lib.Except
import Jerboa.Manifest.Agreement
import Jerboa.Manifest.Mkfs

/-!
# The files of a manifest

`ManifestHosts` lists what mkfs may read: while it builds an image from a
manifest whose host files could be listed, mkfs opens those and the boot and
kernel images it was given, and nothing else.
-/

namespace Jerboa.Manifest

open List Lib Lib.Feed Net.Address

/-- The value of a name `host`. -/
def hostPath : ManifestValue → Except ManifestErr (List Text)
  | .string s => .ok [s]
  | _ => .error .hostNotPath

mutual

def hostsOf : ManifestValue → Except ManifestErr (List Text)
  | .string _ => .ok []
  | .tuple entries => entriesHosts entries
  | .vector items => itemsHosts items

def entriesHosts : Entries → Except ManifestErr (List Text)
  | [] => .ok []
  | (name, v) :: entries => do
    let hosts ← (if name = "host".toList then hostPath v else hostsOf v)
    let rest ← entriesHosts entries
    return hosts ++ rest

def itemsHosts : List ManifestValue → Except ManifestErr (List Text)
  | [] => .ok []
  | v :: items => do
    let hosts ← hostsOf v
    let rest ← itemsHosts items
    return hosts ++ rest

end

def manifestHosts (fuel : Nat) (s : ByteArray) : Option (Except ManifestErr (List Text)) :=
  (parseManifest fuel s).map fun r => r.bind hostsOf

theorem manifestHosts_eq_ok {fuel : Nat} {s : ByteArray} {hosts : List Text}
    (h : manifestHosts fuel s = some (.ok hosts)) :
    ∃ v, parseManifest fuel s = some (.ok v) ∧ hostsOf v = .ok hosts := by
  rw [manifestHosts, Option.map_eq_some_iff] at h
  obtain ⟨r, hr, hbind⟩ := h
  cases r with
  | error => cases hbind
  | ok v => exact ⟨v, hr, hbind⟩

/-! ## Values with known host files -/

namespace C

variable {P : Bytes → Prop}

mutual

/-- The names `host` in the tuples of the value have strings that satisfy `P`. -/
def HostsIn (P : Bytes → Prop) : Value → Prop
  | .tuple t => TableHostsIn P t
  | .null => True
  | .string _ => True
  | .vector _ => True

def TableHostsIn (P : Bytes → Prop) : Table → Prop
  | [] => True
  | (k, v) :: t =>
    (if k = sym "host" then ∃ p, v = .string p ∧ P p else HostsIn P v) ∧ TableHostsIn P t

end

def BindingOk (P : Bytes → Prop) (e : Bytes × Value) : Prop :=
  if e.1 = sym "host" then ∃ p, e.2 = .string p ∧ P p else HostsIn P e.2

theorem tableHostsIn_iff {t : Table} : TableHostsIn P t ↔ ∀ e ∈ t, BindingOk P e := by
  induction t with
  | nil => simp [TableHostsIn]
  | cons e t ih =>
    rw [TableHostsIn, forall_mem_cons, ih]
    exact Iff.rfl

variable {a : Bytes} {v : Value}

theorem BindingOk.value (h : BindingOk P (a, v)) : HostsIn P v := by
  unfold BindingOk at h
  split at h
  · obtain ⟨p, rfl, -⟩ := h
    trivial
  · exact h

theorem bindingOk_tuple {t : Table} (ha : a ≠ sym "host") (h : TableHostsIn P t) :
    BindingOk P (a, .tuple t) := by
  unfold BindingOk
  rw [if_neg ha]
  exact h

variable {p : Bytes}

theorem bindingOk_host (h : P p) : BindingOk P (sym "host", .string p) := by
  unfold BindingOk
  rw [if_pos rfl]
  exact ⟨p, rfl, h⟩

theorem contents_ne_host : sym "contents" ≠ sym "host" := by decide

theorem children_ne_host : sym "children" ≠ sym "host" := by decide

theorem kernel_ne_host : sym "kernel" ≠ sym "host" := by decide

section Tuples

variable {t : Table} (h : TableHostsIn P t)

include h

theorem TableHostsIn.find (hfind : tableFind t a = some v) :
    BindingOk P (a, v) :=
  tableHostsIn_iff.mp h _ (Assoc.mem_of_find hfind)

theorem TableHostsIn.getTuple {x : Table} (hget : getTuple t a = some x) :
    TableHostsIn P x := by
  unfold C.getTuple at hget
  split at hget
  · next x' hfind =>
    cases hget
    exact (h.find hfind).value
  · cases hget

theorem TableHostsIn.unset (a : Bytes) : TableHostsIn P (unset t a) :=
  tableHostsIn_iff.mpr fun e he => tableHostsIn_iff.mp h e (mem_filter.mp he).1

theorem TableHostsIn.set (hv : BindingOk P (a, v)) :
    TableHostsIn P (tableSet t a v) := by
  refine tableHostsIn_iff.mpr fun e he => ?_
  rcases Assoc.mem_set he with rfl | he
  · exact hv
  · exact tableHostsIn_iff.mp h e he

theorem TableHostsIn.findOrAllocate {x : Table} (hfind : findOrAllocateTuple t a = some x) :
    TableHostsIn P x := by
  unfold findOrAllocateTuple at hfind
  split at hfind
  · cases hfind
    trivial
  · next x' heq =>
    cases hfind
    exact (h.find heq).value
  · cases hfind

theorem TableHostsIn.addKernel {kernelimg : Bytes} {boot : Table} (hk : P kernelimg)
    (hadd : addKernel t kernelimg = some boot) : TableHostsIn P boot := by
  unfold C.addKernel at hadd
  split at hadd
  · cases hadd
  · next children hchildren =>
    have hc := h.findOrAllocate hchildren
    split at hadd
    · cases hadd
    · next kernel hkernel =>
      have hkt := hc.findOrAllocate hkernel
      split at hadd
      · cases hadd
      · next contents hcontents =>
        have hct := (hkt.findOrAllocate hcontents).set (bindingOk_host hk)
        have hkt' := hkt.set (bindingOk_tuple contents_ne_host hct)
        have hc' := hc.set (bindingOk_tuple kernel_ne_host hkt')
        cases hadd
        exact h.set (bindingOk_tuple children_ne_host hc')

end Tuples

mutual

theorem HostsIn.translate : ∀ {v : Value}, HostsIn P v → ∀ c ∈ translate v, HostsIn P c
  | .tuple _, h, c, hc => TableHostsIn.translateEach h c hc
  | .null, _, _, hc => by cases hc
  | .string _, _, _, hc => by cases hc
  | .vector _, _, _, hc => by cases hc

theorem TableHostsIn.translateEach :
    ∀ {t : Table}, TableHostsIn P t → ∀ c ∈ translateEach t, HostsIn P c
  | [], _, _, hc => by cases hc
  | (k, child) :: t, h, c, hc => by
      have hbinding : BindingOk P (k, child) := tableHostsIn_iff.mp h _ mem_cons_self
      rw [C.translateEach, mem_append] at hc
      rcases hc with hc | hc
      · split at hc
        · rw [mem_singleton] at hc
          exact hc ▸ hbinding.value
        · exact HostsIn.translate hbinding.value c hc
      · exact TableHostsIn.translateEach h.2 c hc

end

/-! ## The files that are opened -/

variable (env : Env)

def Run.Opens (P : Bytes → Prop) (r : Run) : Prop := ∀ p ∈ r.opened, P p

theorem Run.opens_halt : Run.halt.Opens P := nofun

theorem Run.Opens.andThen {r r' : Run} (h : r.Opens P) (h' : r'.Opens P) :
    (r.andThen r').Opens P := by
  unfold Run.andThen
  split
  · intro p hp
    rcases mem_append.mp hp with hp | hp
    · exact h p hp
    · exact h' p hp
  · exact h

theorem opens_readFile (h : P p) : (readFile env p).Opens P := by
  intro q hq
  exact mem_singleton.mp hq ▸ h

theorem HostsIn.hostFile (h : HostsIn P v) (hpath : hostFile env v = .path p) : P p := by
  unfold C.hostFile at hpath
  split at hpath
  · next t =>
    split at hpath
    · cases hpath
    · next v hfind =>
      have hbinding := TableHostsIn.find h hfind
      rw [BindingOk, if_pos rfl] at hbinding
      obtain ⟨q, rfl, hq⟩ := hbinding
      cases hpath
      exact hq
  · cases hpath

theorem opens_readAll {l : List Value} (h : ∀ v ∈ l, HostsIn P v) : (readAll env l).Opens P := by
  induction l with
  | nil => exact nofun
  | cons v l ih =>
    have hrest := ih fun v' hv' => h v' (mem_cons_of_mem _ hv')
    unfold readAll
    split
    · exact hrest
    · next p hpath =>
      exact (opens_readFile env ((h v mem_cons_self).hostFile env hpath)).andThen hrest
    · exact Run.opens_halt

variable {root : Table}

theorem opens_fsc (h : TableHostsIn P root) : (fsc env root).Opens P := by
  refine opens_readAll env fun v hv => ?_
  exact HostsIn.translate (v := .tuple root) h v ((env.perm _).mem_iff.mp hv)

variable {opts : Options} (hb : ∀ p, opts.bootimg = some p → P p)
  (hk : ∀ p, opts.kernelimg = some p → P p)

include hb in
theorem opens_copyBootimg (compact : Bool) : (copyBootimg env opts compact).Opens P := by
  unfold copyBootimg
  split
  · exact nofun
  · split
    · next bootimg heq => exact opens_readFile env (hb bootimg heq)
    · exact nofun

variable {compact : Bool}

include hk in
theorem TableHostsIn.bootTuple {root boot : Table} (h : TableHostsIn P root)
    (hboot : bootTuple opts compact root = some (some boot)) : TableHostsIn P boot := by
  unfold C.bootTuple at hboot
  dsimp only at hboot
  split at hboot
  · cases hboot
  · split at hboot
    · next kernelimg hkernel =>
      obtain ⟨b, hadd, heq⟩ := Option.map_eq_some_iff.mp hboot
      cases heq
      have hgetD : TableHostsIn P ((C.getTuple root (sym "boot")).getD []) := by
        cases hget : C.getTuple root (sym "boot") with
        | none => trivial
        | some => exact h.getTuple hget
      exact hgetD.addKernel (hk kernelimg hkernel) hadd
    · split at hboot
      · next boot' hget =>
        cases hboot
        exact h.getTuple hget
      · split at hboot
        · cases hboot
        · next children hchildren =>
          split at hboot
          · next kernel hkernel =>
            cases hboot
            have hkt : TableHostsIn P kernel := (h.getTuple hchildren).getTuple hkernel
            have hct : TableHostsIn P [(sym "kernel", .tuple kernel)] :=
              tableHostsIn_iff.mpr fun e he =>
                mem_singleton.mp he ▸ bindingOk_tuple kernel_ne_host hkt
            exact tableHostsIn_iff.mpr fun e he =>
              mem_singleton.mp he ▸ bindingOk_tuple children_ne_host hct
          · cases hboot

include hk in
theorem opens_createFilesystems (h : TableHostsIn P root) :
    (createFilesystems env opts compact root).Opens P := by
  unfold createFilesystems
  split
  · exact Run.opens_halt
  · next boot hboot =>
    refine (opens_fsc env (h.bootTuple hk hboot)).andThen ?_
    split
    · exact opens_fsc env (h.unset _)
    · exact Run.opens_halt
  · split
    · split
      · exact opens_fsc env (h.unset _)
      · exact opens_fsc env h
    · split
      · exact Run.opens_halt
      · exact opens_fsc env h

section Consume

variable {root root' : Table} (h : TableHostsIn P root)

include h

theorem TableHostsIn.consumeCompact (heq : consumeCompact env opts root = some (root', compact)) :
    TableHostsIn P root' := by
  unfold C.consumeCompact at heq
  split at heq
  · cases heq
    exact h
  · obtain ⟨b, -, heq⟩ := Option.map_eq_some_iff.mp heq
    cases heq
    exact h.unset _

theorem TableHostsIn.consumeUuid (heq : consumeUuid env root = some root') :
    TableHostsIn P root' := by
  unfold C.consumeUuid at heq
  split at heq
  · cases heq
    exact h
  · obtain ⟨b, -, heq⟩ := Option.bind_eq_some_iff.mp heq
    split at heq
    · cases heq
      exact h.unset _
    · cases heq

theorem TableHostsIn.consumeImagesize (heq : consumeImagesize env root = some root') :
    TableHostsIn P root' := by
  unfold C.consumeImagesize at heq
  split at heq
  · cases heq
    exact h
  · obtain ⟨b, -, heq⟩ := Option.bind_eq_some_iff.mp heq
    split at heq
    · cases heq
      exact h.unset _
    · cases heq

theorem TableHostsIn.checkCoredumplimit (heq : checkCoredumplimit env root = some root') :
    TableHostsIn P root' := by
  unfold C.checkCoredumplimit at heq
  split at heq
  · cases heq
    exact h
  · obtain ⟨b, -, heq⟩ := Option.bind_eq_some_iff.mp heq
    split at heq
    · cases heq
      exact h
    · cases heq

end Consume

include hb hk in
theorem opens_build (h : TableHostsIn P root) : (build env opts root).Opens P := by
  unfold build
  split
  · exact Run.opens_halt
  · next root' compact heq =>
    obtain ⟨⟨root₁, compact₁⟩, hcompact, hmap⟩ := Option.bind_eq_some_iff.mp heq
    obtain ⟨root₂, huuid, heq⟩ := Option.map_eq_some_iff.mp hmap
    cases heq
    have h₂ := (h.consumeCompact env hcompact).consumeUuid env huuid
    refine (opens_copyBootimg env hb _).andThen ?_
    split
    · exact Run.opens_halt
    · next root₄ heq =>
      obtain ⟨root₃, hsize, hlimit⟩ := Option.bind_eq_some_iff.mp heq
      exact opens_createFilesystems env hk
        ((h₂.consumeImagesize env hsize).checkCoredumplimit env hlimit)

include hb hk in
theorem opens_buildRoot (h : HostsIn P v) : (buildRoot env opts (some v)).Opens P := by
  cases v with
  | tuple => exact opens_build env hb hk h
  | null | string | vector => exact (opens_copyBootimg env hb _).andThen Run.opens_halt

end C

/-! ## The files that are listed -/

section Listed

variable {P : Bytes → Prop}

theorem bytes_eq_sym_host {name : Text} : C.bytes name = C.sym "host" ↔ name = "host".toList :=
  C.bytes_injective.eq_iff

mutual

theorem hostsIn_of_hostsOf : ∀ {v : ManifestValue} {hosts : List Text}, hostsOf v = .ok hosts →
    (∀ s ∈ hosts, P (C.bytes s)) → C.HostsIn P v.toC
  | .string _, _, _, _ => by simp only [ManifestValue.toC, C.HostsIn]
  | .vector _, _, _, _ => by simp only [ManifestValue.toC, C.HostsIn]
  | .tuple entries, hosts, h, hP => by
      exact tableHostsIn_of_entriesHosts h hP

theorem tableHostsIn_of_entriesHosts : ∀ {entries : Entries} {hosts : List Text},
    entriesHosts entries = .ok hosts → (∀ s ∈ hosts, P (C.bytes s)) →
      C.TableHostsIn P (entriesToC entries)
  | [], _, _, _ => by simp only [entriesToC, C.TableHostsIn]
  | (name, v) :: entries, hosts, h, hP => by
      rw [entriesHosts, bind_eq_ok] at h
      obtain ⟨first, hfirst, h⟩ := h
      obtain ⟨rest, hrest, heq⟩ := bind_eq_ok.mp h
      cases heq
      have hPfirst : ∀ s ∈ first, P (C.bytes s) := fun s hs => hP s (mem_append_left _ hs)
      have hPrest : ∀ s ∈ rest, P (C.bytes s) := fun s hs => hP s (mem_append_right _ hs)
      rw [entriesToC, C.TableHostsIn]
      refine ⟨?_, tableHostsIn_of_entriesHosts hrest hPrest⟩
      by_cases hname : name = "host".toList
      · rw [if_pos (bytes_eq_sym_host.mpr hname)]
        rw [if_pos hname] at hfirst
        cases v with
        | string s =>
          cases hfirst
          exact ⟨C.bytes s, by rw [ManifestValue.toC], hPfirst s mem_cons_self⟩
        | tuple => cases hfirst
        | vector => cases hfirst
      · rw [if_neg fun heq => hname (bytes_eq_sym_host.mp heq)]
        rw [if_neg hname] at hfirst
        exact hostsIn_of_hostsOf hfirst hPfirst

end

end Listed

/-- While it builds an image from a manifest whose host files `ManifestHosts`
returned, mkfs opens only those, the boot image and the kernel image. -/
theorem mkfs_opens_hosts (fuel : Nat) (s : ByteArray) (hosts : List Text)
    (h : manifestHosts fuel s = some (.ok hosts)) (env : C.Env) (opts : C.Options) :
    (∃ fuel' run, C.mkfs env fuel' opts s.data.toList = some run) ∧
      ∀ fuel' run, C.mkfs env fuel' opts s.data.toList = some run →
        ∀ p ∈ run.opened,
          p ∈ hosts.map C.bytes ∨ opts.bootimg = some p ∨ opts.kernelimg = some p := by
  obtain ⟨v, hparse, hhosts⟩ := manifestHosts_eq_ok h
  obtain ⟨st, hfeeds, herrors, hfinished⟩ := feeds_of_parseManifest hparse
  have hroot := hostsIn_of_hostsOf hhosts
    (P := fun p => p ∈ hosts.map C.bytes ∨ opts.bootimg = some p ∨ opts.kernelimg = some p)
    fun t ht => .inl (mem_map_of_mem ht)
  refine ⟨?_, ?_⟩
  · obtain ⟨fuel', hfuel'⟩ := hfeeds.exists_fuel
    have hfeed : C.parserFeed fuel' s.data.toList = some st := by rw [C.parserFeed, hfuel']
    exact ⟨fuel', _, Option.map_eq_some_iff.mpr ⟨st, hfeed, rfl⟩⟩
  · intro fuel' run hrun
    obtain ⟨st', hfeed, rfl⟩ := Option.map_eq_some_iff.mp hrun
    have hst : st' = st := (C.feeds_of_parserFeed hfeed).unique hfeeds
    subst hst
    rw [if_neg (not_not_intro herrors), hfinished, getLast?_singleton]
    exact C.opens_buildRoot env (fun p hp => .inr (.inl hp)) (fun p hp => .inr (.inr hp)) hroot

/-- Every file can be read, and worklists stay in the order of the manifest. -/
def plainEnv : C.Env where
  arrange := id
  perm := fun _ => .refl _
  readable := fun _ => true
  parseSize := fun _ => true
  stray := fun _ => none
  bootFits := true

def plainOptions : C.Options := ⟨some (C.sym "/boot.img"), some (C.sym "/kernel.img"), false⟩

/-- A manifest with a boot filesystem of its own, and with a host file in a
vector, which mkfs does not read. -/
def listedText : Text :=
  "(boot:(children:(a:(contents:(host:/a)))) ".toList ++
    "children:(b:(contents:(host:/b))) c:[(host:/c)])".toList

def listedValue : ManifestValue :=
  .tuple [("boot".toList, .tuple [("children".toList, .tuple [("a".toList,
      .tuple [("contents".toList, .tuple [("host".toList, .string "/a".toList)])])])]),
    ("children".toList, .tuple [("b".toList,
      .tuple [("contents".toList, .tuple [("host".toList, .string "/b".toList)])])]),
    ("c".toList, .vector [.tuple [("host".toList, .string "/c".toList)]])]

theorem mkfs_opens_hosts_listed :
    manifestHosts 200 listedText.utf8Encode =
        some (.ok ["/a".toList, "/b".toList, "/c".toList]) ∧
      (∃ fuel' run, C.mkfs plainEnv fuel' plainOptions listedText.utf8Encode.data.toList =
        some run) ∧
        ∀ fuel' run, C.mkfs plainEnv fuel' plainOptions listedText.utf8Encode.data.toList =
          some run → ∀ p ∈ run.opened, p ∈ ["/a".toList, "/b".toList, "/c".toList].map C.bytes ∨
            plainOptions.bootimg = some p ∨ plainOptions.kernelimg = some p := by
  have htext : parseText 200 listedText = some (.ok listedValue) := rfl
  have hhosts : manifestHosts 200 listedText.utf8Encode =
      some (.ok ["/a".toList, "/b".toList, "/c".toList]) := by
    rw [manifestHosts, parseManifest_utf8Encode, htext]
    decide +kernel
  exact ⟨hhosts, mkfs_opens_hosts 200 _ _ hhosts plainEnv plainOptions⟩

/-- A manifest in which one host is not a path. -/
def unlistedText : Text :=
  "(children:(a:(contents:(host:/a)) b:(contents:(host:(x:y)))))".toList

def unlistedValue : ManifestValue :=
  .tuple [("children".toList, .tuple [
    ("a".toList, .tuple [("contents".toList, .tuple [("host".toList, .string "/a".toList)])]),
    ("b".toList, .tuple [("contents".toList, .tuple [("host".toList,
      .tuple [("x".toList, .string "y".toList)])])])])]

/-- `ManifestHosts` returns no path at all where one host is not a path, and mkfs
opens the files that come before it. -/
theorem mkfs_opens_unlisted :
    parseManifest 200 unlistedText.utf8Encode = some (.ok unlistedValue) ∧
      manifestHosts 200 unlistedText.utf8Encode = some (.error .hostNotPath) ∧
        (C.mkfs plainEnv 200 plainOptions unlistedText.utf8Encode.data.toList).map C.Run.opened =
          some [C.sym "/boot.img", C.sym "/kernel.img", C.sym "/a"] := by
  have htext : parseText 200 unlistedText = some (.ok unlistedValue) := rfl
  refine ⟨?_, ?_, ?_⟩
  · rw [parseManifest_utf8Encode, htext]
  · rw [manifestHosts, parseManifest_utf8Encode, htext]
    decide +kernel
  · rw [C.utf8Encode_toList]
    decide +kernel

end Jerboa.Manifest
