import Jerboa.Cas.Blobs

/-!
# What is stored under a digest

Every blob holds what its name says, whatever calls are at work and wherever
they fail, and `Prune` removes only blobs that are neither kept nor young.  A
call writes to no file but its temporary one, and renames that only when it has
hashed it; as long as no two calls have one temporary name, nobody else writes
to it in between.
-/

namespace Jerboa.Cas

open Net.Address Lib Lib.Run Dir Put Image

inductive Stage where
  | start
  | closed
  | writing
  | hashed (stamped : Bool)
deriving DecidableEq, Repr

/-- The stages after a system call that succeeds and one that fails, if the call
may be made. -/
def Op.next : Stage → Op → Option (Stage × Stage)
  | .start, .has | .start, .touch => some (.start, .start)
  | .start, .createTemp => some (.closed, .start)
  | .closed, .remove | .closed, .openSource | .closed, .cloneFile | .closed, .chmod
  | .closed, .has => some (.closed, .closed)
  | .closed, .createExcl | .closed, .openTrunc _ => some (.writing, .closed)
  | .closed, .hash => some (.hashed false, .closed)
  | .writing, .fill => some (.writing, .writing)
  | .writing, .close => some (.closed, .closed)
  | .hashed false, .chmod => some (.hashed false, .hashed false)
  | .hashed false, .chtimes => some (.hashed true, .hashed true)
  | .hashed true, .rename | .hashed false, .remove => some (.closed, .closed)
  | _, _ => none

def Prog.fits : Stage → Prog → Bool
  | _, .done => true
  | stage, .op o ok err =>
    match o.next stage with
    | none => false
    | some (yes, no) => ok.fits yes && err.fits no

theorem fits_putFile (platform : Prog.Platform) : (Prog.putFile platform).fits .start = true := by
  cases platform with
  | linux | darwin | other => rfl

theorem fits_putBytes : Prog.putBytes.fits .start = true := rfl

theorem fits_putStream : Prog.putStream.fits .start = true := rfl

variable {sha256Hex : Bytes → Text} {now : Int}

def Put.At (sha256Hex : Bytes → Text) (now : Int) (d : Root) (t : Put) : Stage → Prop
  | .start => t.tmp = none ∧ t.fd = none
  | .closed => ∃ x, t.tmp = some x ∧ tempPrefix.isPrefixOf x = true ∧ t.fd = none
  | .writing => ∃ x i, t.tmp = some x ∧ tempPrefix.isPrefixOf x = true ∧ t.fd = some i ∧
      i < d.files.length ∧ ∀ n, d.find n = some i → n = x
  | .hashed stamped => ∃ x f, t.tmp = some x ∧ tempPrefix.isPrefixOf x = true ∧ t.fd = none ∧
      d.file x = some f ∧ sha256Hex f.content = t.digest ∧ (stamped = true → f.mtime = now)

/-! ## What a system call changes -/

theorem ne_of_temp {x n : Text} (hx : tempPrefix.isPrefixOf x = true)
    (hn : isSHA256Hex n = true) : n ≠ x := by
  rintro rfl
  obtain ⟨rest, rfl⟩ := List.isPrefixOf_iff_prefix.mp hx
  simp [isSHA256Hex, tempPrefix] at hn

/-- What a system call of `t`, whose temporary file is `x` then, does to the directory. -/
inductive Change (sha256Hex : Bytes → Text) (now : Int) (t : Put) (stores : Bool)
    (x : Option Text) (d : Root) : Root → Prop where
  | same (hno : stores = false) : Change sha256Hex now t stores x d d
  | temp {n : Text} {d' : Root} (hno : stores = false) (hx : x = some n)
      (htemp : tempPrefix.isPrefixOf n = true) (honly : Dir.OnlyAt n d d') :
      Change sha256Hex now t stores x d d'
  | touch (hstores : stores = true) :
      Change sha256Hex now t stores x d (d.modify t.digest fun f => { f with mtime := now })
  | rename {n : Text} {f : File Bytes} (hstores : stores = true) (hx : x = some n)
      (htemp : tempPrefix.isPrefixOf n = true) (hfile : d.file n = some f)
      (hhash : sha256Hex f.content = t.digest) (hnow : f.mtime = now) :
      Change sha256Hex now t stores x d (d.rename n t.digest)

variable {n : Text} {stage : Stage}

namespace Change

variable {t : Put} {stores : Bool} {x : Option Text} {d d' : Root}

section

variable (h : Change sha256Hex now t stores x d d')
include h

theorem wf (hd : d.Wf) : d'.Wf := by
  cases h with
  | same => exact hd
  | temp _ _ _ honly => exact honly.wf
  | touch => exact hd.modify _ _
  | rename => exact hd.rename _ _

theorem file_of_ne (hd : d.Wf) (hn : isSHA256Hex n = true)
    (hne : stores = true → n ≠ t.digest) :
    d'.file n = d.file n := by
  cases h with
  | same => rfl
  | temp _ _ htemp honly => exact honly.file n (ne_of_temp htemp hn)
  | touch hstores => exact file_modify_of_ne hd _ (hne hstores)
  | rename hstores _ htemp hfile =>
    obtain ⟨i, hi, -⟩ := file_eq_some hfile
    rw [file_rename hi, if_neg (hne hstores), if_neg (ne_of_temp htemp hn)]

theorem file_digest (hstores : stores = true)
    (hbefore : ∀ f, d.file t.digest = some f → sha256Hex f.content = t.digest) {f' : File Bytes}
    (hf' : d'.file t.digest = some f') : sha256Hex f'.content = t.digest ∧ f'.mtime = now := by
  cases h with
  | same hno | temp hno => exact absurd (hno.symm.trans hstores) Bool.false_ne_true
  | touch =>
    rw [file_modify_self] at hf'
    obtain ⟨f, hf, rfl⟩ := Option.map_eq_some_iff.mp hf'
    exact ⟨hbefore f hf, rfl⟩
  | rename _ _ htemp hfile hhash hnow =>
    obtain ⟨i, hi, -⟩ := file_eq_some hfile
    rw [file_rename hi, if_pos rfl, hfile] at hf'
    cases hf'
    exact ⟨hhash, hnow⟩

theorem file_isSome (hd : d.Wf) {f : File Bytes}
    (hn : isSHA256Hex n = true) (hf : d.file n = some f) : d'.file n ≠ none := by
  cases h with
  | same =>
    rw [hf]
    exact Option.some_ne_none f
  | temp _ _ htemp honly =>
    rw [honly.file n (ne_of_temp htemp hn), hf]
    exact Option.some_ne_none f
  | touch =>
    by_cases hne : n = t.digest
    · subst hne
      rw [file_modify_self, hf]
      exact Option.some_ne_none _
    · rw [file_modify_of_ne hd _ hne, hf]
      exact Option.some_ne_none f
  | rename _ _ htemp hfile =>
    obtain ⟨i, hi, -⟩ := file_eq_some hfile
    rw [file_rename hi, if_neg (ne_of_temp htemp hn), hfile, hf]
    split_ifs
    · exact Option.some_ne_none _
    · exact Option.some_ne_none _

theorem at_other (hd : d.Wf)
    (hdigest : isSHA256Hex t.digest = true) {u : Put} (hu : u.At sha256Hex now d stage)
    (hother : ∀ y, u.tmp = some y → x ≠ some y) :
    u.At sha256Hex now d' stage := by
  cases stage with
  | start | closed => exact hu
  | writing =>
    obtain ⟨y, i, hy, hytemp, hfd, hlt, honly⟩ := hu
    refine ⟨y, i, hy, hytemp, hfd, ?_, fun m hm => ?_⟩
    · cases h with
      | same => exact hlt
      | temp _ _ _ hchange => exact Nat.lt_of_lt_of_le hlt hchange.length
      | touch => rwa [length_files_modify]
      | rename => rwa [files_rename]
    · cases h with
      | same => exact honly m hm
      | @temp n _ _ hx _ hchange =>
        by_cases hmn : m = n
        · subst hmn
          rcases hchange.find_self i hm with hold | hnew
          · exact honly m hold
          · omega
        · exact honly m (hchange.find m hmn ▸ hm)
      | touch => exact honly m (find_modify d _ m _ ▸ hm)
      | rename _ hx htemp hfile =>
        obtain ⟨j, hj, -⟩ := file_eq_some hfile
        rw [find_rename hj] at hm
        split_ifs at hm with hmd hmn
        · cases hm
          exact absurd (honly _ hj ▸ hx) (hother y hy)
        · exact honly m hm
  | hashed =>
    obtain ⟨y, f, hy, hytemp, hfd, hfile, hhashed⟩ := hu
    have hne : ∀ n, x = some n → y ≠ n := by
      rintro n hx rfl
      exact hother y hy hx
    cases h with
    | same => exact ⟨y, f, hy, hytemp, hfd, hfile, hhashed⟩
    | temp _ hx _ hchange =>
      exact ⟨y, f, hy, hytemp, hfd, (hchange.file y (hne _ hx)).trans hfile, hhashed⟩
    | touch =>
      have hyd : y ≠ t.digest := (ne_of_temp hytemp hdigest).symm
      exact ⟨y, f, hy, hytemp, hfd, (file_modify_of_ne hd _ hyd).trans hfile, hhashed⟩
    | rename _ hx _ hown =>
      have hyd : y ≠ t.digest := (ne_of_temp hytemp hdigest).symm
      obtain ⟨j, hj, -⟩ := file_eq_some hown
      refine ⟨y, f, hy, hytemp, hfd, ?_, hhashed⟩
      rw [file_rename hj, if_neg hyd, if_neg (hne _ hx), hfile]

end

end Change

/-! ## The next system call -/

/-- A system call that the stage allows changes the directory as it may, and
leaves the call at the stage that follows. -/
structure Follows (sha256Hex : Bytes → Text) (now : Int) (d : Root) (t : Put) (c : Outcome) (o : Op)
    (yes no : Stage) (r : Root × Put × Bool) : Prop where
  change : Change sha256Hex now t (o.stores r.2.2) r.2.1.tmp d r.1
  success : r.2.2 = true → r.2.1.At sha256Hex now r.1 yes
  failure : r.2.2 = false → r.2.1.At sha256Hex now r.1 no
  digest : r.2.1.digest = t.digest
  prog : r.2.1.prog = t.prog
  tmp : r.2.1.tmp = t.tmp ∨ o = .createTemp ∧ r.2.1.tmp = some c.name

section Exec

variable {d : Root} {t : Put} {c : Outcome}

variable {yes no : Stage} {o : Op}

theorem Follows.unchanged {success : Bool} (hno : o.stores success = false)
    (hyes : success = true → t.At sha256Hex now d yes)
    (hfail : success = false → t.At sha256Hex now d no) :
    Follows sha256Hex now d t c o yes no (d, t, success) :=
  ⟨.same hno, hyes, hfail, rfl, rfl, .inl rfl⟩

theorem Follows.failed (h : t.At sha256Hex now d no) :
    Follows sha256Hex now d t c o yes no (d, t, false) :=
  .unchanged (by cases o <;> rfl) nofun fun _ => h

theorem Follows.succeeded {d' : Root} {t' : Put}
    (hchange : Change sha256Hex now t (o.stores true) t'.tmp d d')
    (h : t'.At sha256Hex now d' yes) (hdigest : t'.digest = t.digest) (hprog : t'.prog = t.prog)
    (htmp : t'.tmp = t.tmp ∨ o = .createTemp ∧ t'.tmp = some c.name) :
    Follows sha256Hex now d t c o yes no (d', t', true) :=
  ⟨hchange, fun _ => h, nofun, hdigest, hprog, htmp⟩

theorem exec_start (hd : d.Wf) (hat : t.At sha256Hex now d .start)
    (hnext : o.next .start = some (yes, no)) (hok : o = .touch → c.ok = true) :
    Follows sha256Hex now d t c o yes no (t.exec sha256Hex now d c o) := by
  cases o with
  | has =>
    cases hnext
    exact .unchanged rfl (fun _ => hat) fun _ => hat
  | touch =>
    cases hnext
    simp only [exec, hok rfl, if_true]
    exact .succeeded (.touch rfl) hat rfl rfl (.inl rfl)
  | createTemp =>
    cases hnext
    simp only [exec]
    split_ifs with hok
    · simp only [Bool.and_eq_true] at hok
      exact .succeeded (.temp rfl rfl hok.1.2 (hd.onlyAt_create _ _))
        ⟨c.name, rfl, hok.1.2, hat.2⟩ rfl
        rfl (.inr ⟨rfl, rfl⟩)
    · exact .failed hat
  | _ => cases hnext

def Op.onTmp : Op → Bool
  | .has | .touch | .createTemp | .openSource | .fill | .close => false
  | .remove | .createExcl | .openTrunc _ | .cloneFile | .chmod | .hash | .chtimes | .rename => true

theorem exec_eq_execTmp {x : Text} (hx : t.tmp = some x) (ho : o.onTmp = true) :
    t.exec sha256Hex now d c o = t.execTmp sha256Hex now d x c o := by
  cases o with
  | has | touch | createTemp | openSource | fill | close => cases ho
  | _ => simp only [exec, hx]

theorem exec_closed (hd : d.Wf) (hat : t.At sha256Hex now d .closed)
    (hnext : o.next .closed = some (yes, no)) :
    Follows sha256Hex now d t c o yes no (t.exec sha256Hex now d c o) := by
  obtain ⟨x, hx, htemp, hfd⟩ := hat
  have hat : t.At sha256Hex now d .closed := ⟨x, hx, htemp, hfd⟩
  -- the new file of a name that had none, open for writing
  have hcreated : ∀ f, ({ t with fd := some d.files.length } : Put).At sha256Hex now (d.create x f)
      .writing := by
    intro f
    refine ⟨x, d.files.length, hx, htemp, rfl, ?_, fun m hm => ?_⟩
    · rw [create, List.length_append]
      exact Nat.lt_succ_self _
    · by_contra hne
      rw [find_create, if_neg hne] at hm
      exact Nat.lt_irrefl _ (hd.lt m _ hm)
  cases o with
  | remove =>
    cases hnext
    rw [exec_eq_execTmp hx rfl]
    simp only [execTmp]
    split_ifs
    · exact .succeeded (.temp rfl hx htemp (hd.onlyAt_unlink x)) hat rfl rfl (.inl rfl)
    · exact .failed hat
  | openSource | has =>
    cases hnext
    exact .unchanged rfl (fun _ => hat) fun _ => hat
  | cloneFile =>
    cases hnext
    rw [exec_eq_execTmp hx rfl]
    simp only [execTmp]
    split_ifs
    · exact .succeeded (.temp rfl hx htemp (hd.onlyAt_create x _)) hat rfl rfl (.inl rfl)
    · exact .failed hat
  | chmod =>
    cases hnext
    rw [exec_eq_execTmp hx rfl]
    exact .unchanged rfl (fun _ => hat) fun _ => hat
  | createExcl =>
    cases hnext
    rw [exec_eq_execTmp hx rfl]
    simp only [execTmp]
    split_ifs
    · exact .succeeded (.temp rfl hx htemp (hd.onlyAt_create x _)) (hcreated _) rfl rfl (.inl rfl)
    · exact .failed hat
  | openTrunc =>
    cases hnext
    rw [exec_eq_execTmp hx rfl]
    simp only [execTmp]
    by_cases hok : (!c.ok) = true
    · rw [if_pos hok]
      exact .failed hat
    · rw [if_neg hok]
      split
      · next i hi =>
        refine .succeeded (.temp rfl hx htemp (hd.onlyAt_modify x _))
          ⟨x, i, hx, htemp, rfl, ?_, fun m hm => ?_⟩ rfl rfl (.inl rfl)
        · rw [length_files_modify]
          exact hd.lt x i hi
        · rw [find_modify] at hm
          exact hd.inj m x i hm hi
      · split_ifs
        · exact .succeeded (.temp rfl hx htemp (hd.onlyAt_create x _))
            (hcreated _) rfl rfl (.inl rfl)
        · exact .failed hat
  | hash =>
    cases hnext
    rw [exec_eq_execTmp hx rfl]
    refine .unchanged rfl (fun hok => ?_) fun _ => hat
    simp only [Bool.and_eq_true, decide_eq_true_eq] at hok
    obtain ⟨f, hf, hhash⟩ := Option.map_eq_some_iff.mp hok.2
    exact ⟨x, f, hx, htemp, hfd, hf, hhash, by simp⟩
  | _ => cases hnext

theorem exec_writing (hd : d.Wf) (hat : t.At sha256Hex now d .writing)
    (hnext : o.next .writing = some (yes, no)) :
    Follows sha256Hex now d t c o yes no (t.exec sha256Hex now d c o) := by
  obtain ⟨x, i, hx, htemp, hfd, hlt, honly⟩ := hat
  cases o with
  | fill =>
    cases hnext
    simp only [exec, hfd]
    have hwriting : t.At sha256Hex now (d.write i ⟨c.content, now⟩) .writing :=
      ⟨x, i, hx, htemp, hfd, by rw [write, List.length_set]; exact hlt, honly⟩
    exact ⟨.temp rfl hx htemp (hd.onlyAt_write _ honly), fun _ => hwriting, fun _ => hwriting,
      rfl, rfl, .inl rfl⟩
  | close =>
    cases hnext
    have hclosed : ({ t with fd := none } : Put).At sha256Hex now d .closed := ⟨x, hx, htemp, rfl⟩
    exact ⟨.same rfl, fun _ => hclosed, fun _ => hclosed, rfl, rfl, .inl rfl⟩
  | _ => cases hnext

theorem exec_hashed {stamped : Bool} (hd : d.Wf) (hat : t.At sha256Hex now d (.hashed stamped))
    (hnext : o.next (.hashed stamped) = some (yes, no)) (hok : o = .chtimes → c.ok = true) :
    Follows sha256Hex now d t c o yes no (t.exec sha256Hex now d c o) := by
  have ⟨x, f, hx, htemp, hfd, hfile, hhash, hnow⟩ := hat
  have hclosed : ∀ d', t.At sha256Hex now d' .closed := fun _ => ⟨x, hx, htemp, hfd⟩
  cases stamped with
  | true =>
    cases o with
    | rename =>
      cases hnext
      rw [exec_eq_execTmp hx rfl]
      simp only [execTmp]
      split_ifs
      · exact .succeeded (.rename rfl hx htemp hfile hhash (hnow rfl))
          (hclosed _) rfl rfl (.inl rfl)
      · exact .failed (hclosed d)
    | _ => cases hnext
  | false =>
    cases o with
    | chmod =>
      cases hnext
      rw [exec_eq_execTmp hx rfl]
      exact .unchanged rfl (fun _ => hat) fun _ => hat
    | chtimes =>
      cases hnext
      rw [exec_eq_execTmp hx rfl]
      simp only [execTmp, hok rfl, if_true]
      refine .succeeded (.temp rfl hx htemp (hd.onlyAt_modify x _))
        ⟨x, { f with mtime := now }, hx, htemp, hfd, ?_, hhash, fun _ => rfl⟩ rfl rfl (.inl rfl)
      rw [file_modify_self, hfile, Option.map_some]
    | remove =>
      cases hnext
      rw [exec_eq_execTmp hx rfl]
      simp only [execTmp]
      split_ifs
      · exact .succeeded (.temp rfl hx htemp (hd.onlyAt_unlink x)) (hclosed _) rfl rfl (.inl rfl)
      · exact .failed (hclosed d)
    | _ => cases hnext

theorem exec_follows {stage yes no : Stage} (hd : d.Wf) (hat : t.At sha256Hex now d stage)
    (hnext : o.next stage = some (yes, no)) (hok : o = .touch ∨ o = .chtimes → c.ok = true) :
    Follows sha256Hex now d t c o yes no (t.exec sha256Hex now d c o) := by
  cases stage with
  | start => exact exec_start hd hat hnext fun ho => hok (.inl ho)
  | closed => exact exec_closed hd hat hnext
  | writing => exact exec_writing hd hat hnext
  | hashed => exact exec_hashed hd hat hnext fun ho => hok (.inr ho)

theorem at_congr {u : Put} (htmp : u.tmp = t.tmp) (hfd : u.fd = t.fd)
    (hdigest : u.digest = t.digest) (h : t.At sha256Hex now d stage) :
    u.At sha256Hex now d stage := by
  cases stage with
  | start => exact ⟨htmp.trans h.1, hfd.trans h.2⟩
  | closed =>
    obtain ⟨x, hx, htemp, hclosed⟩ := h
    exact ⟨x, htmp.trans hx, htemp, hfd.trans hclosed⟩
  | writing =>
    obtain ⟨x, i, hx, htemp, hi, hrest⟩ := h
    exact ⟨x, i, htmp.trans hx, htemp, hfd.trans hi, hrest⟩
  | hashed =>
    obtain ⟨x, f, hx, htemp, hclosed, hfile, hhash, hnow⟩ := h
    exact ⟨x, f, htmp.trans hx, htemp, hfd.trans hclosed, hfile, hhash.trans hdigest.symm, hnow⟩

theorem advance_done (hprog : t.prog = .done) : t.advance sha256Hex now d c = (d, t) := by
  rw [advance, hprog]

theorem stores_done (hprog : t.prog = .done) : t.stores sha256Hex now d c = false := by
  rw [Put.stores, hprog]

theorem advance_follows {ok err : Prog} (hd : d.Wf) (hprog : t.prog = .op o ok err)
    (hat : t.At sha256Hex now d stage) (hfits : t.prog.fits stage = true)
    (hok : o = .touch ∨ o = .chtimes → c.ok = true) :
    Change sha256Hex now t (t.stores sha256Hex now d c) (t.advance sha256Hex now d c).2.tmp d
        (t.advance sha256Hex now d c).1 ∧
      (∃ stage', (t.advance sha256Hex now d c).2.At sha256Hex now
        (t.advance sha256Hex now d c).1 stage' ∧
        (t.advance sha256Hex now d c).2.prog.fits stage' = true) ∧
      (t.advance sha256Hex now d c).2.digest = t.digest ∧
      ((t.advance sha256Hex now d c).2.tmp = t.tmp ∨
        o = .createTemp ∧ (t.advance sha256Hex now d c).2.tmp = some c.name) := by
  have hop : (Prog.op o ok err).fits stage = true := hprog ▸ hfits
  cases hnext : o.next stage with
  | none => simp [Prog.fits, hnext] at hop
  | some stages =>
    obtain ⟨yes, no⟩ := stages
    simp only [Prog.fits, hnext, Bool.and_eq_true] at hop
    have hexec : Follows sha256Hex now d t c o yes no (t.exec sha256Hex now d c o) :=
      exec_follows hd hat hnext hok
    unfold advance Put.stores
    rw [hprog]
    dsimp only
    split_ifs with hmore hok
    · -- more is written, and nothing else has changed
      obtain ⟨rfl, -⟩ := hmore
      have hstages : yes = .writing ∧ no = .writing ∧ stage = .writing := by
        cases stage with
        | writing => cases hnext; exact ⟨rfl, rfl, rfl⟩
        | start | closed => cases hnext
        | hashed stamped => cases stamped <;> cases hnext
      obtain ⟨rfl, rfl, rfl⟩ := hstages
      refine ⟨hexec.change, ⟨.writing, ?_, by rw [hexec.prog]; exact hfits⟩, hexec.digest,
        hexec.tmp⟩
      cases hok : (t.exec sha256Hex now d c .fill).2.2 with
      | true => exact hexec.success hok
      | false => exact hexec.failure hok
    · exact ⟨hexec.change, ⟨yes, at_congr rfl rfl rfl (hexec.success hok), hop.1⟩, hexec.digest,
        hexec.tmp⟩
    · have hfailure := hexec.failure (Bool.not_eq_true _ ▸ hok)
      exact ⟨hexec.change, ⟨no, at_congr rfl rfl rfl hfailure, hop.2⟩, hexec.digest, hexec.tmp⟩

end Exec

/-! ## The invariant -/

theorem getElem?_set_cases {α : Type} {l : List α} {j k : Nat} {x y : α}
    (h : (l.set k x)[j]? = some y) : j = k ∧ y = x ∨ j ≠ k ∧ l[j]? = some y := by
  by_cases hjk : j = k
  · subst hjk
    rw [List.getElem?_set, if_pos rfl] at h
    split_ifs at h
    exact .inl ⟨rfl, (Option.some.inj h).symm⟩
  · rw [List.getElem?_set_ne (Ne.symm hjk)] at h
    exact .inr ⟨hjk, h⟩

theorem getElem?_concat_cases {α : Type} {l : List α} {j : Nat} {x y : α}
    (h : (l ++ [x])[j]? = some y) : j = l.length ∧ y = x ∨ l[j]? = some y := by
  rw [List.getElem?_append] at h
  split_ifs at h with hlt
  · exact .inr h
  · obtain ⟨hj, hy⟩ := List.getElem?_eq_some_iff.mp h
    have hzero : j - l.length = 0 := Nat.lt_one_iff.mp hj
    refine .inl ⟨by omega, ?_⟩
    simpa using hy.symm

structure Inv (sha256Hex : Bytes → Text) (s : Sys) : Prop where
  wf : s.root.Wf
  sealed : ∀ n f, Image.isSHA256Hex n = true → s.root.file n = some f → sha256Hex f.content = n
  digests : ∀ (k : Nat) (t : Put), s.puts[k]? = some t → Image.isSHA256Hex t.digest = true
  stages : ∀ (k : Nat) (t : Put), s.puts[k]? = some t → t.returned = false →
    ∃ stage, t.At sha256Hex s.now s.root stage ∧ t.prog.fits stage = true
  apart : ∀ (j k : Nat) (t u : Put) x, s.puts[j]? = some t → s.puts[k]? = some u →
    t.returned = false → u.returned = false → t.tmp = some x → u.tmp = some x → j = k
  young : ∀ n f, Image.isSHA256Hex n = true → s.root.file n = some f → s.stored n ≤ f.mtime
  looked : ∀ (k : Nat) (p : Prune) n, s.prunes[k]? = some p → p.looked = some n →
    Image.isSHA256Hex n = true ∧ p.keep n = false ∧ ∀ f, s.root.file n = some f → f.mtime ≤ p.cutoff

def Put.next (t : Put) : Option Op :=
  match t.prog with
  | .done => none
  | .op o _ _ => some o

/-- No call gets a temporary name that another one has; no blob is touched or stored
between the look of a `Prune` at it and its removal; the times that a call gives are
set, and no time passes before the file is renamed. -/
def Calm (s : Sys) : Action → Prop
  | .advance k c =>
    ∀ t ∈ s.puts[k]?,
      (t.next = some .createTemp → ∀ u ∈ s.puts, u.returned = false → u.tmp ≠ some c.name) ∧
      (t.next = some .touch ∨ t.next = some .rename →
        ∀ p ∈ s.prunes, p.looked ≠ some t.digest) ∧
      (t.next = some .touch ∨ t.next = some .chtimes → c.ok = true)
  | .tick _ => ∀ t ∈ s.puts, t.next ≠ some .rename
  | _ => True

instance (s : Sys) (a : Action) : Decidable (Calm s a) := by
  cases a <;> unfold Calm <;> infer_instance

theorem Op.of_stores {o : Op} {success : Bool} (h : o.stores success = true) :
    o = .touch ∨ o = .rename := by
  cases o with
  | touch => exact .inl rfl
  | rename => exact .inr rfl
  | _ => cases h

/-- Only a call that is about to rename depends on the time. -/
theorem Put.At.tick {d : Root} {t : Put} {now' : Int} (h : t.At sha256Hex now d stage)
    (hfits : t.prog.fits stage = true) (hreturned : t.returned = false)
    (hrename : t.next ≠ some .rename) : t.At sha256Hex now' d stage := by
  cases stage with
  | start | closed | writing => exact h
  | hashed stamped =>
    obtain ⟨x, f, hx, htemp, hfd, hfile, hhash, -⟩ := h
    refine ⟨x, f, hx, htemp, hfd, hfile, hhash, ?_⟩
    rintro rfl
    unfold returned at hreturned
    unfold next at hrename
    cases hprog : t.prog with
    | done => simp [hprog] at hreturned
    | op o ok err =>
      rw [hprog] at hfits hrename
      cases o with
      | rename => exact absurd rfl hrename
      | _ => cases hfits

namespace Calm

variable {s : Sys} {k : Nat} {c : Outcome} {t : Put} {o : Op} {ok err : Prog}

theorem fresh (h : Calm s (.advance k c)) (hk : s.puts[k]? = some t)
    (hprog : t.prog = .op .createTemp ok err) :
    ∀ u ∈ s.puts, u.returned = false → u.tmp ≠ some c.name :=
  (h t hk).1 (by rw [next, hprog])

theorem quiet (h : Calm s (.advance k c)) (hk : s.puts[k]? = some t) (hprog : t.prog = .op o ok err)
    (ho : o = .touch ∨ o = .rename) : ∀ p ∈ s.prunes, p.looked ≠ some t.digest := by
  refine (h t hk).2.1 ?_
  rw [next, hprog]
  exact ho.imp (congrArg some) (congrArg some)

theorem stamps (h : Calm s (.advance k c)) (hk : s.puts[k]? = some t)
    (hprog : t.prog = .op o ok err) (ho : o = .touch ∨ o = .chtimes) : c.ok = true := by
  refine (h t hk).2.2 ?_
  rw [next, hprog]
  exact ho.imp (congrArg some) (congrArg some)

end Calm

namespace Inv

variable {s : Sys}

section

variable (h : Inv sha256Hex s)
include h

theorem call {digest : Text} (hdigest : isSHA256Hex digest = true)
    {prog : Prog} (hfits : prog.fits .start = true) : Inv sha256Hex (s.call digest prog) := by
  refine ⟨h.wf, h.sealed, fun k t hk => ?_, fun k t hk hreturned => ?_,
    fun j k t u x hj hk ht hu htx hux => ?_, h.young, h.looked⟩
  · rcases getElem?_concat_cases hk with ⟨-, rfl⟩ | hk
    · exact hdigest
    · exact h.digests k t hk
  · rcases getElem?_concat_cases hk with ⟨-, rfl⟩ | hk
    · exact ⟨.start, ⟨rfl, rfl⟩, hfits⟩
    · exact h.stages k t hk hreturned
  · rcases getElem?_concat_cases hj with ⟨-, rfl⟩ | hj
    · cases htx
    rcases getElem?_concat_cases hk with ⟨-, rfl⟩ | hk
    · cases hux
    exact h.apart j k t u x hj hk ht hu htx hux

theorem advance {k : Nat} {c : Outcome} (hcalm : Calm s (.advance k c)) :
    Inv sha256Hex (s.step sha256Hex (.advance k c)) := by
  simp only [Sys.step]
  cases hk : s.puts[k]? with
  | none => exact h
  | some t =>
    dsimp only
    cases hprog : t.prog with
    | done =>
      obtain ⟨hlt, rfl⟩ := List.getElem?_eq_some_iff.mp hk
      rw [advance_done hprog, stores_done hprog, List.set_getElem_self]
      exact h
    | op o =>
      have hreturned : t.returned = false := by rw [returned, hprog]
      have hdig := h.digests k t hk
      obtain ⟨stage, hat, hfits⟩ := h.stages k t hk hreturned
      obtain ⟨hchange, hstage, hdigest, htmp⟩ :=
        advance_follows (c := c) h.wf (t := t) hprog hat hfits fun ho => hcalm.stamps hk hprog ho
      generalize t.advance sha256Hex s.now s.root c = r at hchange hstage hdigest htmp ⊢
      have hstores : t.stores sha256Hex s.now s.root c = true → o = .touch ∨ o = .rename := by
        rw [Put.stores, hprog]
        exact Op.of_stores
      generalize t.stores sha256Hex s.now s.root c = stores at hchange hstores ⊢
      -- the calls that are not `k` have other temporary files
      have hother : ∀ (j : Nat) (u : Put) x, j ≠ k → s.puts[j]? = some u → u.returned = false →
          u.tmp = some x → r.2.tmp ≠ some x := by
        intro j u x hjk hj hu hux hrx
        rcases htmp with htmp | ⟨rfl, hnew⟩
        · exact hjk (h.apart j k u t x hj hk hu hreturned hux (htmp ▸ hrx))
        · have hname : x = c.name := Option.some.inj (hrx.symm.trans hnew)
          exact hcalm.fresh hk hprog u (List.mem_of_getElem? hj) hu (hname ▸ hux)
      refine ⟨hchange.wf h.wf, fun n f hn hf => ?_, fun j u hj => ?_, fun j u hj hu => ?_,
        fun i j u v x hi hj hu hv hux hvx => ?_, fun n f hn hf => ?_, fun j p n hj hn => ?_⟩
      · by_cases hnew : stores = true ∧ n = t.digest
        · obtain ⟨hs, rfl⟩ := hnew
          exact (hchange.file_digest hs (fun f hf => h.sealed _ f hdig hf) hf).1
        · exact h.sealed n f hn (hchange.file_of_ne h.wf hn (fun hs heq => hnew ⟨hs, heq⟩) ▸ hf)
      · rcases getElem?_set_cases hj with ⟨-, rfl⟩ | ⟨-, hj⟩
        · rw [hdigest]
          exact hdig
        · exact h.digests j u hj
      · rcases getElem?_set_cases hj with ⟨-, rfl⟩ | ⟨hjk, hj⟩
        · exact hstage
        · obtain ⟨stage', hat', hfits'⟩ := h.stages j u hj hu
          exact ⟨stage', hchange.at_other h.wf hdig hat' (hother j u · hjk hj hu ·), hfits'⟩
      · rcases getElem?_set_cases hi with ⟨rfl, rfl⟩ | ⟨hik, hiold⟩
        · rcases getElem?_set_cases hj with ⟨rfl, -⟩ | ⟨hjk, hjold⟩
          · rfl
          · exact absurd hux (hother j v x hjk hjold hv hvx)
        · rcases getElem?_set_cases hj with ⟨rfl, rfl⟩ | ⟨-, hjold⟩
          · exact absurd hvx (hother i u x hik hiold hu hux)
          · exact h.apart i j u v x hiold hjold hu hv hux hvx
      · dsimp only
        by_cases hnew : stores = true ∧ n = t.digest
        · obtain ⟨hs, rfl⟩ := hnew
          rw [if_pos hs, Function.update_self]
          exact ((hchange.file_digest hs (fun f hf => h.sealed _ f hdig hf) hf).2).ge
        · have hfile := hchange.file_of_ne h.wf hn fun hs heq => hnew ⟨hs, heq⟩
          have hstored := h.young n f hn (hfile ▸ hf)
          split_ifs with hs
          · rwa [Function.update_of_ne fun heq => hnew ⟨hs, heq⟩]
          · exact hstored
      · obtain ⟨hhex, hkeep, hold⟩ := h.looked j p n hj hn
        have hne : stores = true → n ≠ t.digest := by
          rintro hs rfl
          exact hcalm.quiet hk hprog (hstores hs) p (List.mem_of_getElem? hj) hn
        exact ⟨hhex, hkeep, fun f hf => hold f (hchange.file_of_ne h.wf hhex hne ▸ hf)⟩

theorem unlink (hn : isSHA256Hex n = true) :
    Inv sha256Hex { s with root := s.root.unlink n } := by
  have hfile : ∀ m f, (s.root.unlink n).file m = some f → s.root.file m = some f := by
    intro m f hf
    by_cases hmn : m = n
    · subst hmn
      obtain ⟨i, hi, -⟩ := file_eq_some hf
      rw [find_unlink, if_pos rfl] at hi
      cases hi
    · rwa [file_unlink_of_ne hmn] at hf
  refine ⟨h.wf.unlink n, fun m f hm hf => h.sealed m f hm (hfile m f hf), h.digests,
    fun k t hk hreturned => ?_, h.apart, fun m f hm hf => h.young m f hm (hfile m f hf),
    fun k p m hk hm => ?_⟩
  · obtain ⟨stage, hat, hfits⟩ := h.stages k t hk hreturned
    refine ⟨stage, ?_, hfits⟩
    cases stage with
    | start | closed => exact hat
    | writing =>
      obtain ⟨x, i, hx, htemp, hfd, hlt, honly⟩ := hat
      refine ⟨x, i, hx, htemp, hfd, hlt, fun m hm => honly m ?_⟩
      rw [find_unlink] at hm
      split_ifs at hm
      exact hm
    | hashed =>
      obtain ⟨x, f, hx, htemp, hfd, hf, hhashed⟩ := hat
      refine ⟨x, f, hx, htemp, hfd, ?_, hhashed⟩
      rw [file_unlink_of_ne (ne_of_temp htemp hn).symm, hf]
  · obtain ⟨hhex, hkeep, hold⟩ := h.looked k p m hk hm
    exact ⟨hhex, hkeep, fun f hf => hold f (hfile m f hf)⟩

theorem prunes {k : Nat} {p : Prune}
    (hp : ∀ n, p.looked = some n → isSHA256Hex n = true ∧ p.keep n = false ∧
      ∀ f, s.root.file n = some f → f.mtime ≤ p.cutoff) :
    Inv sha256Hex { s with prunes := s.prunes.set k p } := by
  refine { h with looked := fun j q n hj hn => ?_ }
  rcases getElem?_set_cases hj with ⟨-, rfl⟩ | ⟨-, hj⟩
  · exact hp n hn
  · exact h.looked j q n hj hn

end

theorem look {p : Prune} (hnone : p.looked = none) (ok : Bool)
    (hn : (p.look s.root ok).looked = some n) :
    isSHA256Hex n = true ∧ (p.look s.root ok).keep n = false ∧
      ∀ f, s.root.file n = some f → f.mtime ≤ (p.look s.root ok).cutoff := by
  have hsame : ∀ todo, ({ p with todo := todo } : Prune).looked ≠ some n := by
    intro todo hlooked
    rw [hnone] at hlooked
    cases hlooked
  unfold Prune.look at hn ⊢
  cases htodo : p.todo with
  | nil =>
    rw [htodo] at hn
    exact absurd hn (hsame p.todo)
  | cons m todo =>
    rw [htodo] at hn
    dsimp only at hn ⊢
    by_cases hskip : (!isSHA256Hex m || p.keep m) = true
    · rw [if_pos hskip] at hn
      exact absurd hn (hsame todo)
    rw [if_neg hskip] at hn ⊢
    cases hfile : s.root.file m with
    | none =>
      rw [hfile] at hn
      exact absurd hn (hsame todo)
    | some f =>
      rw [hfile] at hn
      dsimp only at hn ⊢
      by_cases hold : (ok && decide (f.mtime ≤ p.cutoff)) = true
      · rw [if_pos hold] at hn ⊢
        cases hn
        simp only [Bool.or_eq_true, Bool.not_eq_true', not_or, Bool.not_eq_false,
          Bool.not_eq_true] at hskip
        simp only [Bool.and_eq_true, decide_eq_true_eq] at hold
        refine ⟨hskip.1, hskip.2, fun g hg => ?_⟩
        rw [hfile] at hg
        cases hg
        exact hold.2
      · rw [if_neg hold] at hn
        exact absurd hn (hsame todo)

theorem step (h : Inv sha256Hex s) (hsha : ∀ b, isSHA256Hex (sha256Hex b) = true)
    {a : Action} (hcalm : Calm s a) : Inv sha256Hex (s.step sha256Hex a) := by
  cases a with
  | tick =>
    refine { h with stages := fun k t hk hreturned => ?_ }
    obtain ⟨stage, hat, hfits⟩ := h.stages k t hk hreturned
    exact ⟨stage, hat.tick hfits hreturned (hcalm t (List.mem_of_getElem? hk)), hfits⟩
  | putFile platform source => exact h.call (hsha source) (fits_putFile platform)
  | putBytes data => exact h.call (hsha data) fits_putBytes
  | putStream =>
    simp only [Sys.step]
    split_ifs with hdigest
    · exact h.call hdigest fits_putStream
    · exact h
  | advance => exact h.advance hcalm
  | prune =>
    refine { h with looked := fun k p n hk hn => ?_ }
    rcases getElem?_concat_cases hk with ⟨-, rfl⟩ | hk
    · cases hn
    · exact h.looked k p n hk hn
  | pruneNext k ok =>
    simp only [Sys.step]
    cases hk : s.prunes[k]? with
    | none => exact h
    | some p =>
      dsimp only
      cases hlooked : p.looked with
      | none => exact h.prunes fun n hn => look hlooked ok hn
      | some n =>
        have hhex := (h.looked k p n hk hlooked).1
        dsimp only [Prune.remove]
        split_ifs
        · exact (h.unlink hhex).prunes nofun
        · exact h.prunes nofun
  | crash =>
    exact ⟨h.wf, h.sealed, nofun, nofun, nofun, h.young, nofun⟩

theorem removed (h : Inv sha256Hex s) {a : Action} {f : File Bytes} (hcalm : Calm s a)
    (hn : isSHA256Hex n = true) (hf : s.root.file n = some f)
    (hgone : (s.step sha256Hex a).root.file n = none) :
    ∃ k p, a = .pruneNext k true ∧ s.prunes[k]? = some p ∧ p.keep n = false ∧
      s.stored n ≤ p.cutoff := by
  have hsame : s.root.file n ≠ none := by
    rw [hf]
    exact Option.some_ne_none f
  cases a with
  | tick | putFile | putBytes | prune | crash => exact absurd hgone hsame
  | putStream =>
    simp only [Sys.step] at hgone
    split_ifs at hgone
    · exact absurd hgone hsame
    · exact absurd hgone hsame
  | advance k c =>
    simp only [Sys.step] at hgone
    cases hk : s.puts[k]? with
    | none =>
      rw [hk] at hgone
      exact absurd hgone hsame
    | some t =>
      rw [hk] at hgone
      dsimp only at hgone
      cases hprog : t.prog with
      | done =>
        rw [advance_done hprog] at hgone
        exact absurd hgone hsame
      | op o =>
        obtain ⟨stage, hat, hfits⟩ := h.stages k t hk (by rw [returned, hprog])
        obtain ⟨hchange, -⟩ := advance_follows (c := c) h.wf hprog hat hfits
          fun ho => hcalm.stamps hk hprog ho
        exact absurd hgone (hchange.file_isSome h.wf hn hf)
  | pruneNext k ok =>
    simp only [Sys.step] at hgone
    cases hk : s.prunes[k]? with
    | none =>
      rw [hk] at hgone
      exact absurd hgone hsame
    | some p =>
      rw [hk] at hgone
      dsimp only at hgone
      cases hlooked : p.looked with
      | none =>
        rw [hlooked] at hgone
        exact absurd hgone hsame
      | some m =>
        rw [hlooked] at hgone
        cases ok with
        | false => exact absurd hgone hsame
        | true =>
          by_cases hnm : n = m
          · subst hnm
            obtain ⟨-, hkeep, hold⟩ := h.looked k p n hk hlooked
            exact ⟨k, p, rfl, hk, hkeep, (h.young n f hn hf).trans (hold f hf)⟩
          · exact absurd ((file_unlink_of_ne hnm).symm.trans hgone) hsame

end Inv

end Jerboa.Cas
