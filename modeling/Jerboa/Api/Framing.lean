import Jerboa.Lib.Bytes
import Jerboa.Lib.Run

/-!
# Frames of a stream

`frameWriter` sends what is written as frames, each behind its length in four bytes, and a
frame without bytes at the end.  `frameReader` hands the bytes out again, into buffers of any
size and from a connection that returns as many bytes at a time as it likes.
-/

namespace Jerboa.Api.Framing

open List Lib Lib.Bytes Lib.Run

def maxFrameSize : Nat := 2 ^ 26

/-- `Write`, when the connection takes all of it.  The length is cut to a `uint32`. -/
def write (p : Bytes) : Bytes := if p = [] then [] else beBytes 4 (p.length % 2 ^ 32) ++ p

def close : Bytes := beBytes 4 0

/-- What the connection holds when `ws` has been written and the writer was closed. -/
def stream (ws : List Bytes) : Bytes := ws.flatMap write ++ close

structure Reader where
  /-- What the connection has not handed out yet. -/
  r : Bytes
  remaining : Nat := 0
  done : Bool := false

inductive ReadErr where
  | eof
  | header
  | tooLarge (n : Nat)
  | payload
deriving DecidableEq

/-- The part of `Read` that reads a header.  `io.ReadFull` waits for all of it. -/
def Reader.header (s : Reader) : Option ReadErr × Reader :=
  if s.r.length < 4 then (some .header, { s with r := [] })
  else
    let n := beNat (s.r.take 4)
    if n = 0 then (some .eof, { s with r := s.r.drop 4, done := true })
    else if maxFrameSize < n then (some (.tooLarge n), { s with r := s.r.drop 4 })
    else (none, { s with r := s.r.drop 4, remaining := n })

/-- The rest of `Read` into a buffer of `size` bytes.  The connection returns `chunk` bytes,
or as many as there are or fit. -/
def Reader.payload (s : Reader) (size chunk : Nat) : Bytes × Option ReadErr × Reader :=
  let toRead := if s.remaining < size % 2 ^ 32 then s.remaining else size
  let n := min toRead (min chunk s.r.length)
  (s.r.take n, if 0 < toRead ∧ s.r = [] then some .payload else none,
    { s with r := s.r.drop n, remaining := (s.remaining + 2 ^ 32 - n % 2 ^ 32) % 2 ^ 32 })

def Reader.read (s : Reader) (size chunk : Nat) : Bytes × Option ReadErr × Reader :=
  if s.done then ([], some .eof, s)
  else if s.remaining = 0 then
    match s.header with
    | (some err, s') => ([], some err, s')
    | (none, s') => s'.payload size chunk
  else s.payload size chunk

/-- A call of `Read`, and what the connection does. -/
structure Call where
  size : Nat
  chunk : Nat

structure Session where
  reader : Reader
  delivered : Bytes := []
  errs : List ReadErr := []

def Session.step (s : Session) (c : Call) : Session :=
  let (out, err, reader) := s.reader.read c.size c.chunk
  ⟨reader, s.delivered ++ out, s.errs ++ err.toList⟩

/-- The calls, on a connection that holds the stream and then `suffix`. -/
def session (ws : List Bytes) (suffix : Bytes) (calls : List Call) : Session :=
  run Session.step { reader := { r := stream ws ++ suffix } } calls

/-- A call into a buffer that is not empty, for which the connection has a byte. -/
def Call.Moves (c : Call) : Prop := 0 < c.size ∧ 0 < c.chunk
deriving Decidable

/-- Only bytes of `data` in order and `io.EOF` come out, and `io.EOF` comes when all of `data`
has and nothing of `suffix` was read.  It does come: each call before delivers a byte, if
there is one. -/
structure Session.Delivers (s : Session) (data suffix : Bytes) (calls : List Call) : Prop where
  ordered : s.delivered <+: data
  errs : ∀ err ∈ s.errs, err = .eof
  ended : s.errs ≠ [] → s.delivered = data ∧ s.reader.r = suffix
  ends : data.length < calls.countP (·.Moves) → s.errs ≠ []

/-! ## What is still to come -/

/-- The reader is in the frame whose rest is `cur`, and `ws` follows. -/
structure Reader.Within (s : Reader) (cur : Bytes) (ws : List Bytes) (suffix : Bytes) : Prop where
  remaining : s.remaining = cur.length
  r : s.r = cur ++ (stream ws ++ suffix)
  done : s.done = false
  cur : cur.length ≤ maxFrameSize
  ws : ∀ w ∈ ws, w.length ≤ maxFrameSize

inductive Session.Inv (data suffix : Bytes) (s : Session) : Prop where
  | within (cur : Bytes) (ws : List Bytes) (h : s.reader.Within cur ws suffix)
      (hdata : s.delivered ++ (cur ++ ws.flatten) = data) (herrs : s.errs = [])
  | done (hdone : s.reader.done = true) (hr : s.reader.r = suffix) (hdata : s.delivered = data)
      (herrs : s.errs ≠ []) (heof : ∀ err ∈ s.errs, err = .eof)

variable {s : Reader} {cur suffix data : Bytes} {ws : List Bytes}

theorem stream_cons (w : Bytes) (ws : List Bytes) : stream (w :: ws) = write w ++ stream ws := by
  rw [stream, stream, flatMap_cons, append_assoc]

theorem stream_ne_nil (ws : List Bytes) : stream ws ≠ [] := by
  intro hnil
  have hlen := congrArg List.length hnil
  rw [stream, close, length_append, length_beBytes] at hlen
  exact absurd hlen (Nat.succ_ne_zero _)

theorem header_of_bytes {n : Nat} {rest : Bytes} (hn : n < 2 ^ 32)
    (hr : s.r = beBytes 4 n ++ rest) :
    s.header = if n = 0 then (some .eof, { s with r := rest, done := true })
      else if maxFrameSize < n then (some (.tooLarge n), { s with r := rest })
      else (none, { s with r := rest, remaining := n }) := by
  have htake : s.r.take 4 = beBytes 4 n := by rw [hr]; exact take_left' (length_beBytes 4 n)
  have hdrop : s.r.drop 4 = rest := by rw [hr]; exact drop_left' (length_beBytes 4 n)
  have hlen : ¬ s.r.length < 4 := by rw [hr, length_append, length_beBytes]; omega
  simp only [Reader.header, if_neg hlen, htake, hdrop, beNat_beBytes (n := 4) hn]

/-- A header is that of the next frame with bytes, or of the end. -/
theorem Reader.Within.header (h : s.Within [] ws suffix) :
    (ws.flatten = [] ∧ s.header = (some .eof, { s with r := suffix, done := true })) ∨
    ∃ s' w ws', s.header = (none, s') ∧ s'.Within w ws' suffix ∧ w ≠ [] ∧
        ws.flatten = w ++ ws'.flatten := by
  obtain ⟨hrem, hr, hdone, -, hws⟩ := h
  -- Writes without bytes left no frame; the first one with bytes is the next.
  induction ws with
  | nil =>
    rw [header_of_bytes (n := 0) (by omega) hr]
    exact .inl ⟨rfl, rfl⟩
  | cons w ws ih =>
    rw [stream_cons] at hr
    by_cases hw : w = []
    · rw [hw] at hr
      rw [hw]
      exact ih hr fun v hv => hws v (mem_cons_of_mem w hv)
    · have hlen : w.length ≤ maxFrameSize := hws w mem_cons_self
      have hpos : w.length ≠ 0 := mt eq_nil_of_length_eq_zero hw
      have hmod : w.length % 2 ^ 32 = w.length := Nat.mod_eq_of_lt (hlen.trans_lt (by decide))
      rw [write, if_neg hw, hmod, nil_append, append_assoc, append_assoc] at hr
      rw [header_of_bytes (hmod ▸ Nat.mod_lt _ (by decide)) hr, if_neg hpos, if_neg (by omega)]
      exact .inr ⟨_, w, ws, rfl, ⟨rfl, rfl, hdone, hlen, fun v hv => hws v (mem_cons_of_mem w hv)⟩,
        hw, rfl⟩

/-- A read inside a frame delivers a part of its rest. -/
theorem Reader.Within.payload (h : s.Within cur ws suffix) {c : Call} (hsize : c.size < 2 ^ 32) :
    ∃ s' n, s.payload c.size c.chunk = (cur.take n, none, s') ∧ s'.Within (cur.drop n) ws suffix ∧
      n ≤ cur.length ∧ (c.Moves → cur ≠ [] → 0 < n) := by
  have hne : s.r ≠ [] := by
    rw [h.r]
    exact append_ne_nil_of_right_ne_nil _ (append_ne_nil_of_left_ne_nil (stream_ne_nil ws) _)
  have hpos : 0 < s.r.length := length_pos_iff.mpr hne
  have hmax : maxFrameSize < 2 ^ 32 := by decide
  have hcur := h.cur
  have hn : ∃ n, n = min (if s.remaining < c.size % 2 ^ 32 then s.remaining else c.size)
      (min c.chunk s.r.length) :=
    ⟨_, rfl⟩
  obtain ⟨n, hn⟩ := hn
  have hle : n ≤ cur.length := by
    rw [hn, h.remaining, Nat.mod_eq_of_lt hsize]
    split_ifs <;> omega
  have htake : s.r.take n = cur.take n := by rw [h.r, take_append_of_le_length hle]
  have hdrop : s.r.drop n = cur.drop n ++ (stream ws ++ suffix) := by
    rw [h.r, drop_append_of_le_length hle]
  have hleft : (s.remaining + 2 ^ 32 - n % 2 ^ 32) % 2 ^ 32 = (cur.drop n).length := by
    rw [h.remaining, length_drop]
    omega
  refine ⟨{ s with r := s.r.drop n, remaining := (cur.drop n).length }, n, ?_,
    ⟨rfl, hdrop, h.done, ?_, h.ws⟩, hle, ?_⟩
  · simp only [Reader.payload, ← hn, htake, hne, and_false, if_false, hleft]
  · rw [length_drop]
    omega
  · rintro ⟨hbuf, hchunk⟩ hcurne
    have hcurpos := length_pos_iff.mpr hcurne
    rw [hn, h.remaining, Nat.mod_eq_of_lt hsize]
    split_ifs <;> omega

/-- The call kept the invariant, and delivered a byte or came to the end. -/
def Session.Moved (data suffix : Bytes) (s : Session) (c : Call) : Prop :=
  (s.step c).Inv data suffix ∧
    ((s.step c).errs ≠ [] ∨ s.delivered.length + (if c.Moves then 1 else 0) ≤
      (s.step c).delivered.length)

theorem Session.moved_of_payload {s : Session} {c : Call} {reader : Reader}
    (hsize : c.size < 2 ^ 32) (h : reader.Within cur ws suffix) (hcur : cur ≠ [])
    (hdata : s.delivered ++ (cur ++ ws.flatten) = data) (herrs : s.errs = [])
    (hread : s.reader.read c.size c.chunk = reader.payload c.size c.chunk) :
    s.Moved data suffix c := by
  obtain ⟨s', n, hpay, hwithin, hle, hmoves⟩ := h.payload hsize
  have hstep : s.step c = ⟨s', s.delivered ++ cur.take n, []⟩ := by
    rw [Session.step, hread, hpay, herrs]
    rfl
  rw [Session.Moved, hstep]
  refine ⟨.within (cur.drop n) ws hwithin ?_ rfl, .inr ?_⟩
  · rw [append_assoc, ← append_assoc (cur.take n), take_append_drop, hdata]
  · rw [length_append, length_take, Nat.min_eq_left hle]
    split_ifs with hc
    · exact Nat.add_le_add_left (hmoves hc hcur) _
    · omega

theorem Session.Inv.step {s : Session} (h : s.Inv data suffix) {c : Call}
    (hsize : c.size < 2 ^ 32) :
    s.Moved data suffix c := by
  cases h with
  | done hdone hr hdata herrs heof =>
    have hstep : s.step c = ⟨s.reader, s.delivered, s.errs ++ [.eof]⟩ := by
      simp [Session.step, Reader.read, hdone]
    rw [Session.Moved, hstep]
    refine ⟨.done hdone hr hdata (by simp) fun err herr => ?_, .inl (by simp)⟩
    exact (mem_append.mp herr).elim (heof err) eq_of_mem_singleton
  | within cur ws hwithin hdata herrs =>
    have hdone : ¬ s.reader.done = true := by simp [hwithin.done]
    by_cases hcur : cur = []
    · subst hcur
      have hzero : s.reader.remaining = 0 := hwithin.remaining
      rcases hwithin.header with ⟨hnil, hheader⟩ | ⟨s', w, ws', hheader, hnext, hw, hflat⟩
      · have hstep : s.step c = ⟨{ s.reader with r := suffix, done := true }, s.delivered,
            [.eof]⟩ := by
          simp [Session.step, Reader.read, hdone, hzero, hheader, herrs]
        rw [Session.Moved, hstep]
        refine ⟨.done rfl rfl ?_ (cons_ne_nil _ _) fun err => eq_of_mem_singleton,
          .inl (cons_ne_nil _ _)⟩
        rw [← hdata, hnil, append_nil, append_nil]
      · rw [nil_append, hflat] at hdata
        refine moved_of_payload hsize hnext hw hdata herrs ?_
        rw [Reader.read, if_neg hdone, if_pos hzero, hheader]
    · refine moved_of_payload hsize hwithin hcur hdata herrs ?_
      rw [Reader.read, if_neg hdone, if_neg]
      rw [hwithin.remaining]
      exact mt eq_nil_of_length_eq_zero hcur

theorem errs_ne_nil_run {s : Session} (h : s.errs ≠ []) (calls : List Call) :
    (run Session.step s calls).errs ≠ [] :=
  run_invariant (I := fun s : Session => s.errs ≠ [])
    (fun _ _ hs => append_ne_nil_of_left_ne_nil hs _) h calls

theorem Session.Inv.run {s : Session} (h : s.Inv data suffix) {calls : List Call}
    (hcalls : ∀ c ∈ calls, c.size < 2 ^ 32) :
    (run Session.step s calls).Inv data suffix ∧
      ((run Session.step s calls).errs ≠ [] ∨
        s.delivered.length + calls.countP (·.Moves) ≤
          (run Session.step s calls).delivered.length) := by
  induction calls generalizing s with
  | nil => exact ⟨h, .inr (le_refl _)⟩
  | cons c calls ih =>
    obtain ⟨hinv, hmoved⟩ := h.step (hcalls c mem_cons_self)
    obtain ⟨hend, hcount⟩ := ih hinv fun d hd => hcalls d (mem_cons_of_mem c hd)
    refine ⟨hend, ?_⟩
    rw [run_cons, countP_cons]
    rcases hcount with herrs | hcount
    · exact .inl herrs
    · rcases hmoved with herrs | hmoved
      · exact .inl (errs_ne_nil_run herrs calls)
      · exact .inr (by simp only [decide_eq_true_eq]; omega)

/-- The stream comes out as it was written, if every write is at most 64 MiB and every buffer
is smaller than 4 GiB. -/
theorem session_delivers (ws : List Bytes) (suffix : Bytes) (calls : List Call)
    (hws : ∀ w ∈ ws, w.length ≤ maxFrameSize) (hcalls : ∀ c ∈ calls, c.size < 2 ^ 32) :
    (session ws suffix calls).Delivers ws.flatten suffix calls := by
  have hstart : Session.Inv ws.flatten suffix { reader := { r := stream ws ++ suffix } } :=
    .within [] ws ⟨rfl, rfl, rfl, Nat.zero_le _, hws⟩ rfl rfl
  obtain ⟨hinv, hcount⟩ := hstart.run hcalls
  cases hinv with
  | within cur ws' hwithin hdata herrs =>
    refine ⟨⟨_, hdata⟩, ?_, fun hne => absurd herrs hne, fun hlt => ?_⟩
    · intro err herr
      rw [session, herrs] at herr
      cases herr
    · have hle := hcount.resolve_left (not_not.mpr herrs)
      have hlen := congrArg List.length hdata
      rw [length_append] at hlen
      rw [length_nil] at hle
      omega
  | done hdone hr hdata herrs heof =>
    exact ⟨hdata ▸ prefix_refl _, heof, fun _ => ⟨hdata, hr⟩, fun _ => herrs⟩

theorem session_delivers_two :
    (session [[1, 2], [], [3]] [9] [⟨1, 1⟩, ⟨2, 5⟩, ⟨0, 1⟩, ⟨2, 2⟩, ⟨2, 2⟩]).Delivers [1, 2, 3] [9]
      [⟨1, 1⟩, ⟨2, 5⟩, ⟨0, 1⟩, ⟨2, 2⟩, ⟨2, 2⟩] :=
  session_delivers [[1, 2], [], [3]] [9] _ (by decide) (by decide)

theorem errs_of_large {w : Bytes} (hlen : w.length = maxFrameSize + 1) :
    (session [w] [] [⟨1, 1⟩]).errs = [.tooLarge (maxFrameSize + 1)] := by
  have hmod : (maxFrameSize + 1) % 2 ^ 32 = maxFrameSize + 1 := by decide
  have hr : stream [w] ++ [] = beBytes 4 (maxFrameSize + 1) ++ (w ++ (stream [] ++ [])) := by
    rw [stream_cons, write, if_neg (ne_nil_of_length_eq_add_one hlen), hlen, hmod, append_assoc,
      append_assoc]
  have hheader := header_of_bytes (s := { r := stream [w] ++ [] }) (by decide) hr
  rw [if_neg (Nat.succ_ne_zero _), if_pos (Nat.lt_succ_self _)] at hheader
  simp only [session, run_cons, run_nil, Session.step, Reader.read, hheader, Bool.false_eq_true,
    if_false, if_true]
  rfl

/-- The reader refuses a frame that the writer has sent, and a buffer of 4 GiB takes the end of
the stream for bytes of the frame. -/
theorem large_frame_refused :
    (session [List.replicate (maxFrameSize + 1) 0] [] [⟨1, 1⟩]).errs =
      [.tooLarge (maxFrameSize + 1)] ∧
      (session [[7]] [] [⟨2 ^ 32, 5⟩]).delivered = [7, 0, 0, 0, 0] :=
  ⟨errs_of_large length_replicate, by decide⟩

end Jerboa.Api.Framing
