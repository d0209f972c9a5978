import PowerFS.Lib.Runs
import PowerFS.Net.FrameSend
import Mathlib.Data.List.Nodup

namespace PowerFS.Net

/-! The transmit queue of one connection: `powerfs_request_do_send` appends requests, the TX thread
takes and sends them in `pfs_process_transmit`, and timeouts, signals and completions take them off
again, each under `tx_lock`. -/

/-- The fields of a request that concern its frame. -/
structure TxReq where
  frame : Frame
  offset : Nat

/-- Where the TX thread stands: it holds no request, holds one that it has taken off the queue, or
has returned from `send_frame`. -/
inductive TxPc where
  | idle
  | taken (r : Nat)
  | returned (r : Nat) (ret : Except Errno Unit)

/-- After this result the request goes back to the head of the queue. -/
def requeues : Except Errno Unit → Bool
  | .ok () => false
  | .error err => err = .eagain || err = .enomem

def TxPc.Holds : TxPc → Nat → Prop
  | .idle, _ => False
  | .taken r, r' | .returned r _, r' => r = r'

instance TxPc.decidableHolds : (pc : TxPc) → (r : Nat) → Decidable (pc.Holds r)
  | .idle, _ => inferInstanceAs (Decidable False)
  | .taken r, r' | .returned r _, r' => inferInstanceAs (Decidable (r = r'))

/-- `wire` is what was written to the present socket and `frames` are those of the requests queued
for it; `failed` says that a send on it has failed, so that the work that disconnects is queued.
`freed` are the requests that their owners have back; the TX thread holds no reference. -/
structure TxState where
  req : Nat → TxReq
  freed : Nat → Bool
  queue : List Nat
  tx : TxPc
  wire : List UInt8
  frames : List Frame
  failed : Bool

/-- What can happen. `abandon` is what the timeout work, a waiter that times out or is killed, and a
waiter that was completed do to the queue, after which the owner frees the request; `sendFreed`
sends what is in its memory then; `reconnect` is `powerfs_conn_disconnect_one` and a new socket. -/
inductive TxEvent where
  | submit (r : Nat) (frame : Frame)
  | abandon (r : Nat)
  | take
  | send (results : List SendResult)
  | sendFreed (bytes : List UInt8) (ret : Except Errno Unit)
  | finish
  | reconnect

/-- One event; `none` if it cannot happen. -/
def txExec (s : TxState) : TxEvent → Option TxState
  | .submit r frame =>
    -- `send_offset` is not touched.
    some { s with
      req := Function.update s.req r ⟨frame, (s.req r).offset⟩
      freed := Function.update s.freed r false
      queue := s.queue.erase r ++ [r]
      frames := frame :: s.frames }
  | .abandon r =>
    some { s with freed := Function.update s.freed r true, queue := s.queue.erase r }
  | .take =>
    match s.tx, s.queue with
    | .idle, r :: queue => some { s with queue := queue, tx := .taken r }
    | _, _ => none
  | .send results =>
    match s.tx with
    | .taken r =>
      if s.freed r then none
      else (frameSendNonblock (s.req r).frame.vec (s.req r).offset results).map fun out =>
        { s with
          req := Function.update s.req r ⟨(s.req r).frame, out.offset⟩
          tx := .returned r out.ret
          wire := s.wire ++ out.written
          failed := s.failed || (out.ret.isOk = false && !requeues out.ret) }
    | _ => none
  | .sendFreed bytes ret =>
    match s.tx with
    | .taken r =>
      if s.freed r then some { s with
        tx := .returned r ret
        wire := s.wire ++ bytes
        failed := s.failed || (ret.isOk = false && !requeues ret) }
      else none
    | _ => none
  | .finish =>
    match s.tx with
    | .returned r ret =>
      some { s with queue := if requeues ret then r :: s.queue else s.queue, tx := .idle }
    | _ => none
  | .reconnect =>
    match s.tx with
    | .idle => some { s with queue := [], wire := [], frames := [], failed := false }
    | _ => none

def concatFrames (fs : List Frame) : List UInt8 := (fs.map Frame.bytes).flatten

/-- The socket has got whole frames of queued requests, the last one perhaps in part; and while it
is in use, the request of that last one is still in line. -/
structure TxSafe (s : TxState) : Prop where
  whole : ∃ fs, (∀ f ∈ fs, f ∈ s.frames) ∧ s.wire <+: concatFrames fs
  kept : s.failed = false → ∃ fs part, (∀ f ∈ fs, f ∈ s.frames) ∧
    s.wire = concatFrames fs ++ part ∧ (part = [] ∨ ∃ r, (r ∈ s.queue ∨ s.tx.Holds r) ∧
      part <+: (s.req r).frame.bytes)

/-- A new connection. -/
structure TxInit (s : TxState) : Prop where
  queue : s.queue = []
  tx : s.tx = .idle
  wire : s.wire = []

/-- A request is queued with `send_offset` 0, and taken off only if none of its frame was sent, and
neither while the TX thread holds it; nothing is sent after a failed send; `kernel_sendmsg` does not
run out of memory after it has sent something. -/
def TxOk (s : TxState) : TxEvent → Prop
  | .submit r _ => (s.req r).offset = 0 ∧ ¬ s.tx.Holds r
  | .abandon r => (r ∈ s.queue → (s.req r).offset = 0) ∧ ¬ s.tx.Holds r
  | .send results => s.failed = false ∧ (.error .enomem ∈ results → sentBytes results = 0)
  | _ => True

instance decidableTxOk (s : TxState) : (e : TxEvent) → Decidable (TxOk s e)
  | .submit r _ => inferInstanceAs (Decidable ((s.req r).offset = 0 ∧ ¬ s.tx.Holds r))
  | .abandon r =>
    inferInstanceAs (Decidable ((r ∈ s.queue → (s.req r).offset = 0) ∧ ¬ s.tx.Holds r))
  | .send results =>
    inferInstanceAs
      (Decidable (s.failed = false ∧ (.error .enomem ∈ results → sentBytes results = 0)))
  | .take | .sendFreed .. | .finish | .reconnect => inferInstanceAs (Decidable True)

/-- The requests that are still to be sent, in order. -/
def TxState.line (s : TxState) : List Nat :=
  match s.tx with
  | .idle => s.queue
  | .taken r => r :: s.queue
  | .returned r ret => if requeues ret then r :: s.queue else s.queue

/-- What was sent of the first request in line. -/
def firstPart (req : Nat → TxReq) : List Nat → List UInt8
  | [] => []
  | r :: _ => (req r).frame.bytes.take (req r).offset

/-- Requests in line: each once and with its frame submitted, and only the first one begun. -/
structure InLine (req : Nat → TxReq) (frames : List Frame) (line : List Nat) : Prop where
  nodup : line.Nodup
  submitted : ∀ r ∈ line, (req r).frame ∈ frames
  inside : ∀ r ∈ line, (req r).offset < (req r).frame.bytes.length
  waiting : ∀ r ∈ line.tail, (req r).offset = 0

structure TxInv (s : TxState) : Prop where
  line : InLine s.req s.frames s.line
  intact : ∀ r ∈ s.line, s.freed r = false
  wire : ∃ fs, (∀ f ∈ fs, f ∈ s.frames) ∧
    (s.wire = concatFrames fs ++ firstPart s.req s.line ∨
      s.failed = true ∧ ∃ f ∈ s.frames, ∃ n, s.wire = concatFrames fs ++ f.bytes.take n)

section Line

variable {req req' : Nat → TxReq} {frames : List Frame} {line : List Nat} {r : Nat}

theorem concatFrames_append (fs : List Frame) (f : Frame) :
    concatFrames (fs ++ [f]) = concatFrames fs ++ f.bytes := by
  simp [concatFrames]

theorem firstPart_of_zero (h : ∀ r ∈ line, (req r).offset = 0) : firstPart req line = [] := by
  cases line with
  | nil => rfl
  | cons a line => simp [firstPart, h a List.mem_cons_self]

theorem firstPart_prefix (req : Nat → TxReq) (line : List Nat) :
    firstPart req line = [] ∨ ∃ r ∈ line, firstPart req line <+: (req r).frame.bytes := by
  cases line with
  | nil => exact .inl rfl
  | cons a line => exact .inr ⟨a, List.mem_cons_self, List.take_prefix _ _⟩

theorem firstPart_erase (hwaiting : ∀ a ∈ line.tail, (req a).offset = 0)
    (hr : r ∈ line → (req r).offset = 0) : firstPart req (line.erase r) = firstPart req line := by
  cases line with
  | nil => rfl
  | cons a line =>
    by_cases ha : a = r
    · subst ha
      have hnone : firstPart req line = [] := firstPart_of_zero hwaiting
      rw [List.erase_cons_head, hnone, firstPart, hr List.mem_cons_self, List.take_zero]
    · rw [List.erase_cons_tail (by simpa using ha)]
      rfl

theorem mem_tail_erase {a : Nat} (h : a ∈ (line.erase r).tail) : a ∈ line.tail := by
  cases line with
  | nil => cases h
  | cons b line =>
    by_cases hb : b = r
    · rw [hb, List.erase_cons_head] at h
      exact List.mem_of_mem_tail h
    · rw [List.erase_cons_tail (by simpa using hb)] at h
      exact List.mem_of_mem_erase h

theorem firstPart_join (hr : r ∉ line) (frame : Frame) :
    firstPart (Function.update req r ⟨frame, 0⟩) (line ++ [r]) = firstPart req line := by
  cases line with
  | nil => simp [firstPart]
  | cons a line =>
    have ha : a ≠ r := fun heq => hr (heq ▸ List.mem_cons_self)
    simp [firstPart, Function.update_of_ne ha]

theorem InLine.nil : InLine req frames [] := ⟨List.nodup_nil, nofun, nofun, nofun⟩

theorem InLine.rest (h : InLine req frames (r :: line)) : InLine req frames line :=
  ⟨(List.nodup_cons.mp h.nodup).2, fun a ha => h.submitted a (List.mem_cons_of_mem _ ha),
    fun a ha => h.inside a (List.mem_cons_of_mem _ ha),
    fun a ha => h.waiting a (List.mem_of_mem_tail ha)⟩

theorem InLine.erase (h : InLine req frames line) (r : Nat) :
    InLine req frames (line.erase r) :=
  ⟨h.nodup.erase r, fun a ha => h.submitted a (List.mem_of_mem_erase ha),
    fun a ha => h.inside a (List.mem_of_mem_erase ha),
    fun a ha => h.waiting a (mem_tail_erase ha)⟩

theorem InLine.congr (h : InLine req frames line) (hsame : ∀ a ∈ line, req' a = req a) :
    InLine req' frames line := by
  refine ⟨h.nodup, fun a ha => ?_, fun a ha => ?_, fun a ha => ?_⟩
  · rw [hsame a ha]
    exact h.submitted a ha
  · rw [hsame a ha]
    exact h.inside a ha
  · rw [hsame a (List.mem_of_mem_tail ha)]
    exact h.waiting a ha

theorem mem_tail_append_singleton {a : Nat} (h : a ∈ (line ++ [r]).tail) :
    a ∈ line.tail ∨ a = r := by
  cases line with
  | nil => cases h
  | cons b line => simpa using h

theorem InLine.join (h : InLine req frames line) (hr : r ∉ line) (frame : Frame) :
    InLine (Function.update req r ⟨frame, 0⟩) (frame :: frames) (line ++ [r]) := by
  have hother : ∀ a ∈ line, Function.update req r ⟨frame, 0⟩ a = req a :=
    fun a ha => Function.update_of_ne (show a ≠ r from fun heq => hr (heq ▸ ha)) _ _
  have hmem : ∀ a ∈ line ++ [r], a ∈ line ∨ a = r := fun a ha => by simpa using ha
  refine ⟨?_, fun a ha => ?_, fun a ha => ?_, fun a ha => ?_⟩
  · refine List.nodup_append'.mpr ⟨h.nodup, List.nodup_singleton r, ?_⟩
    intro a ha heq
    rw [List.mem_singleton] at heq
    exact hr (heq ▸ ha)
  · obtain ha | rfl := hmem a ha
    · rw [hother a ha]
      exact List.mem_cons_of_mem _ (h.submitted a ha)
    · simp
  · obtain ha | rfl := hmem a ha
    · rw [hother a ha]
      exact h.inside a ha
    · simpa using frame.length_pos
  · obtain ha | rfl := mem_tail_append_singleton ha
    · rw [hother a (List.mem_of_mem_tail ha)]
      exact h.waiting a ha
    · simp

theorem InLine.advance (h : InLine req frames (r :: line)) {offset : Nat}
    (hoffset : offset < (req r).frame.bytes.length) :
    InLine (Function.update req r ⟨(req r).frame, offset⟩) frames (r :: line) := by
  have hother : ∀ a ∈ line, Function.update req r ⟨(req r).frame, offset⟩ a = req a :=
    fun a ha => Function.update_of_ne
      (show a ≠ r from fun heq => (List.nodup_cons.mp h.nodup).1 (heq ▸ ha)) _ _
  have hrest := h.rest.congr hother
  refine ⟨h.nodup, fun a ha => ?_, fun a ha => ?_, fun a ha => ?_⟩
  · obtain rfl | ha := List.mem_cons.mp ha
    · simpa using h.submitted a List.mem_cons_self
    · exact hrest.submitted a ha
  · obtain rfl | ha := List.mem_cons.mp ha
    · simpa using hoffset
    · exact hrest.inside a ha
  · rw [hother a ha]
    exact h.waiting a ha

end Line

section Steps

variable {s s' : TxState}

theorem TxInit.inv (h : TxInit s) : TxInv s := by
  have hline : s.line = [] := by rw [TxState.line, h.tx, h.queue]
  refine ⟨?_, ?_, [], nofun, .inl ?_⟩ <;> rw [hline]
  · exact .nil
  · exact nofun
  · exact h.wire

theorem mem_queue_or_holds {r : Nat} (h : r ∈ s.line) : r ∈ s.queue ∨ s.tx.Holds r := by
  unfold TxState.line at h
  cases htx : s.tx with rw [htx] at h
  | idle =>
    exact .inl h
  | taken a =>
    obtain rfl | h := List.mem_cons.mp h
    · exact .inr rfl
    · exact .inl h
  | returned a ret =>
    simp only at h
    split at h
    · obtain rfl | h := List.mem_cons.mp h
      · exact .inr rfl
      · exact .inl h
    · exact .inl h

theorem TxInv.safe (h : TxInv s) : TxSafe s := by
  obtain ⟨fs, hfs, hwire⟩ := h.wire
  constructor
  · obtain hwire | ⟨_, f, hf, n, hwire⟩ := hwire
    · obtain hnone | ⟨r, hr, hpart⟩ := firstPart_prefix s.req s.line
      · exact ⟨fs, hfs, [], by rw [hwire, hnone, List.append_nil, List.append_nil]⟩
      · refine ⟨fs ++ [(s.req r).frame], ?_, ?_⟩
        · intro f hf
          obtain hf | rfl : f ∈ fs ∨ f = (s.req r).frame := by simpa using hf
          · exact hfs f hf
          · exact h.line.submitted r hr
        · rw [hwire, concatFrames_append]
          exact (List.prefix_append_right_inj _).mpr hpart
    · refine ⟨fs ++ [f], ?_, ?_⟩
      · intro f' hf'
        obtain hf' | rfl : f' ∈ fs ∨ f' = f := by simpa using hf'
        · exact hfs f' hf'
        · exact hf
      · rw [hwire, concatFrames_append]
        exact (List.prefix_append_right_inj _).mpr (List.take_prefix _ _)
  · intro hused
    obtain hwire | ⟨hfailed, _⟩ := hwire
    · refine ⟨fs, _, hfs, hwire, ?_⟩
      obtain hnone | ⟨r, hr, hpart⟩ := firstPart_prefix s.req s.line
      · exact .inl hnone
      · exact .inr ⟨r, mem_queue_or_holds hr, hpart⟩
    · cases hused.symm.trans hfailed

/-- What taking a request off the queue, and queueing `more`, does to the line. -/
theorem line_erase {r : Nat} (hheld : ¬ s.tx.Holds r) (req : Nat → TxReq) (freed : Nat → Bool)
    (more : List Nat) (frames : List Frame) :
    { s with req, freed, queue := s.queue.erase r ++ more, frames }.line =
      s.line.erase r ++ more := by
  unfold TxState.line
  cases htx : s.tx with
  | idle => rfl
  | taken a =>
    have ha : a ≠ r := fun heq => hheld (by rw [htx]; exact heq)
    simp [ha]
  | returned a ret =>
    have ha : a ≠ r := fun heq => hheld (by rw [htx]; exact heq)
    cases hret : requeues ret with
    | false => simp [hret]
    | true => simp [hret, ha]

theorem TxInv.intact_erase {r a : Nat} (h : TxInv s) (ha : a ∈ s.line.erase r) (freed : Bool) :
    Function.update s.freed r freed a = false := by
  have hne : a ≠ r := fun heq => h.line.nodup.not_mem_erase (heq ▸ ha)
  rw [Function.update_of_ne hne]
  exact h.intact a (List.mem_of_mem_erase ha)

theorem TxInv.abandon {r : Nat} (h : TxInv s) (hok : TxOk s (.abandon r)) :
    TxInv { s with freed := Function.update s.freed r true, queue := s.queue.erase r } := by
  obtain ⟨fs, hfs, hwire⟩ := h.wire
  have hline := line_erase hok.2 s.req (Function.update s.freed r true) [] s.frames
  rw [List.append_nil, List.append_nil] at hline
  refine ⟨?_, ?_, fs, hfs, ?_⟩ <;> rw [hline]
  · exact h.line.erase r
  · exact fun a ha => h.intact_erase ha true
  · have hzero := fun hr => hok.1 ((mem_queue_or_holds hr).resolve_right hok.2)
    rwa [firstPart_erase h.line.waiting hzero]

theorem TxInv.submit {r : Nat} (h : TxInv s) (frame : Frame) (hzero : (s.req r).offset = 0)
    (hheld : ¬ s.tx.Holds r) :
    TxInv { s with
      req := Function.update s.req r ⟨frame, (s.req r).offset⟩
      freed := Function.update s.freed r false
      queue := s.queue.erase r ++ [r]
      frames := frame :: s.frames } := by
  obtain ⟨fs, hfs, hwire⟩ := h.wire
  rw [hzero]
  have hgone : r ∉ s.line.erase r := h.line.nodup.not_mem_erase
  refine ⟨?_, ?_, fs, fun f hf => List.mem_cons_of_mem _ (hfs f hf), ?_⟩ <;> rw [line_erase hheld]
  · exact (h.line.erase r).join hgone frame
  · intro a ha
    obtain ha | rfl : a ∈ s.line.erase r ∨ a = r := by simpa using ha
    · exact h.intact_erase ha false
    · exact Function.update_self ..
  · rw [firstPart_join hgone, firstPart_erase h.line.waiting fun _ => hzero]
    obtain hwire | ⟨hfailed, f, hf, hpart⟩ := hwire
    · exact .inl hwire
    · exact .inr ⟨hfailed, f, List.mem_cons_of_mem _ hf, hpart⟩

theorem offset_of_requeues {α : Type*} {rest : List α} {start : Nat} {results : List SendResult}
    {out : SendOut α} (h : Sends rest start start results out)
    (hmem : .error .enomem ∈ results → sentBytes results = 0) (hagain : requeues out.ret = true) :
    out.offset = start + sentBytes results := by
  cases hret : out.ret with
  | ok _ =>
    rw [hret] at hagain
    cases hagain
  | error err =>
    rw [(h.left err hret).2]
    split
    · rfl
    · next hnot =>
      have herr : err = .enomem := by simpa [requeues, hret, hnot] using hagain
      rw [hmem (h.nomem.mp (herr ▸ hret)), Nat.add_zero]

theorem TxInv.send {r : Nat} {results : List SendResult} {out : SendOut UInt8} (h : TxInv s)
    (htx : s.tx = .taken r) (hused : s.failed = false)
    (hmem : .error .enomem ∈ results → sentBytes results = 0)
    (hout : frameSendNonblock (s.req r).frame.vec (s.req r).offset results = some out) :
    TxInv { s with
      req := Function.update s.req r ⟨(s.req r).frame, out.offset⟩
      tx := .returned r out.ret
      wire := s.wire ++ out.written
      failed := s.failed || (out.ret.isOk = false && !requeues out.ret) } := by
  have hline : s.line = r :: s.queue := by rw [TxState.line, htx]
  have hin := h.line
  obtain ⟨fs, hfs, hwire⟩ := h.wire
  rw [hline] at hin hwire
  replace hwire := hwire.resolve_right fun hfailed => by cases hused.symm.trans hfailed.1
  have hroom := hin.inside r List.mem_cons_self
  have hspec := frameSendNonblock_sends hroom hout
  have hrest : ((s.req r).frame.vec.flatten.drop (s.req r).offset).length =
      (s.req r).frame.bytes.length - (s.req r).offset := List.length_drop
  -- Together with what was there before, the socket has the first bytes of the frame.
  have hnow : s.wire ++ out.written = concatFrames fs ++
      (s.req r).frame.bytes.take ((s.req r).offset + sentBytes results) := by
    rw [hwire, hspec.written, List.append_assoc, List.take_add]
    rfl
  have hother : ∀ a ∈ s.queue, Function.update s.req r ⟨(s.req r).frame, out.offset⟩ a = s.req a :=
    fun a ha => Function.update_of_ne
      (show a ≠ r from fun heq => (List.nodup_cons.mp hin.nodup).1 (heq ▸ ha)) _ _
  have hqueue := hin.rest.congr hother
  have hintact := h.intact
  rw [hline] at hintact
  cases hret : out.ret with
  | ok _ =>
    obtain ⟨hall, _⟩ := hspec.done hret
    have hend : (s.req r).offset + sentBytes results = (s.req r).frame.bytes.length := by omega
    refine ⟨hqueue, fun a ha => hintact a (List.mem_cons_of_mem _ ha), fs ++ [(s.req r).frame], ?_,
      .inl ?_⟩
    · intro f hf
      obtain hf | rfl : f ∈ fs ∨ f = (s.req r).frame := by simpa using hf
      · exact hfs f hf
      · exact hin.submitted r List.mem_cons_self
    · have hnone : firstPart (Function.update s.req r ⟨(s.req r).frame, out.offset⟩) s.queue = [] :=
        firstPart_of_zero fun a ha => by
          rw [hother a ha]
          exact hin.waiting a ha
      rw [concatFrames_append]
      refine hnow.trans ?_
      rw [hend, List.take_length]
      exact (List.append_nil _).symm.trans (congrArg _ hnone.symm)
  | error err =>
    have hleft := (hspec.left err hret).1
    cases hagain : requeues (.error err) with
    | false =>
      refine ⟨?_, ?_, fs, hfs, .inr ⟨?_, _, hin.submitted r List.mem_cons_self, _, hnow⟩⟩
      · simp only [TxState.line, hagain]
        exact hqueue
      · simp only [TxState.line, hagain, Bool.false_eq_true, if_false]
        exact fun a ha => hintact a (List.mem_cons_of_mem _ ha)
      · simp [Except.toBool]
    | true =>
      have hoffset := offset_of_requeues hspec hmem (by rw [hret]; exact hagain)
      refine ⟨?_, ?_, fs, hfs, .inl ?_⟩
      · simp only [TxState.line, hagain]
        exact hin.advance (by omega)
      · simp only [TxState.line, hagain]
        exact hintact
      · simp only [TxState.line, hagain, if_true, firstPart, Function.update_self, hoffset]
        exact hnow

theorem TxInv.same_line (h : TxInv s) (hreq : s'.req = s.req) (hframes : s'.frames = s.frames)
    (hline : s'.line = s.line) (hwire : s'.wire = s.wire) (hfailed : s'.failed = s.failed)
    (hfreed : s'.freed = s.freed) : TxInv s' := by
  refine ⟨?_, ?_, ?_⟩
  · rw [hreq, hframes, hline]
    exact h.line
  · rw [hline, hfreed]
    exact h.intact
  · rw [hreq, hframes, hline, hwire, hfailed]
    exact h.wire

theorem TxInv.step {e : TxEvent} (h : TxInv s) (hok : TxOk s e) (hs : txExec s e = some s') :
    TxInv s' := by
  cases e with simp only [txExec] at hs
  | submit r frame =>
    cases hs
    exact h.submit frame hok.1 hok.2
  | abandon r =>
    cases hs
    exact h.abandon hok
  | take =>
    split at hs <;> cases hs
    next r queue htx hqueue =>
    refine h.same_line rfl rfl ?_ rfl rfl rfl
    simp only [TxState.line, htx, hqueue]
  | send results =>
    split at hs
    · next r htx =>
      split at hs
      · cases hs
      · obtain ⟨out, hout, rfl⟩ := Option.map_eq_some_iff.mp hs
        exact h.send htx hok.1 hok.2 hout
    · cases hs
  | sendFreed bytes ret =>
    split at hs
    · next r htx =>
      have hintact := h.intact r (by rw [TxState.line, htx]; exact List.mem_cons_self)
      rw [hintact] at hs
      cases hs
    · cases hs
  | finish =>
    split at hs <;> cases hs
    next r ret htx =>
    refine h.same_line rfl rfl ?_ rfl rfl rfl
    simp only [TxState.line, htx]
  | reconnect =>
    split at hs <;> cases hs
    next htx => exact TxInit.inv ⟨rfl, htx, rfl⟩

end Steps

end PowerFS.Net
