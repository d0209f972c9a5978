import PowerFS.Caps.Refs
import PowerFS.Lib.Runs

namespace PowerFS.File

open Caps Runs

/-! `O_APPEND` writes to a regular file by several clients: the append path of
`powerfs_file_write_iter`, which takes `POWERFS_CAP_FILE_EXCL`, asks the Filer for the size and
writes at the larger of that and `i_size`. -/

/-- What one call of `powerfs_get_caps` meets, attempt by attempt. -/
structure CapsCall where
  view : Nat → Nat × Option Cap
  signal : Nat → Bool

/-- References of which one is on `POWERFS_CAP_FILE_EXCL`. -/
abbrev ExclRefs := { got : CapMask // got.has capFileExcl = true }

/-- `max_append_retries`. -/
def maxAppendRetries : Nat := 3

/-- The loop for `POWERFS_CAP_FILE_EXCL` before its call `k` of `powerfs_get_caps`, with `left`
calls to go. -/
def appendCapsLoop (calls : Nat → CapsCall) :
    Nat → Nat → CapRefs → Except Errno ExclRefs × CapRefs
  | 0, _, r => (.error .eagain, r)
  | left + 1, k, r =>
    match getCaps (calls k).view (calls k).signal capFileWr capWrData r with
    | (.ok got, r) =>
      if h : got.has capFileExcl = true then (.ok ⟨got, h⟩, r)
      else appendCapsLoop calls left (k + 1) (if got ≠ 0 then putRefs r got else r)
    | (.error err, r) =>
      -- `got` is still 0 here: `powerfs_get_caps` sets it only when it returns 0
      if err = .erestartsys then (.error err, r) else appendCapsLoop calls left (k + 1) r

/-- The write up to the point where it has its references. `upgrade` is what
`powerfs_upgrade_local_create` returns. -/
def appendEnter (upgrade : Except Errno Unit) (calls : Nat → CapsCall) (r : CapRefs) :
    Except Errno ExclRefs × CapRefs :=
  match upgrade with
  | .error err => (.error err, r)
  | .ok () => appendCapsLoop calls maxAppendRetries 0 r

/-- The cast of a size to `loff_t`. -/
def loff (size : UInt64) : Int := size.toInt64.toInt

/-- `i_size` after the refresh, where the write starts. Without a reply to the getattr it is what
it was. -/
def appendPos (isize : Int) : Option UInt64 → Int
  | some remote => if isize < loff remote then loff remote else isize
  | none => isize

/-- An append that has its references. `obtained` is the size at the Filer when it granted
`POWERFS_CAP_FILE_EXCL` to the client. -/
structure InAppend where
  client : Nat
  refs : ExclRefs
  obtained : UInt64

/-- One file: its size at the Filer, the client with `POWERFS_CAP_FILE_EXCL` and the size at that
grant; `i_size`, references and appends of the clients. `writes` has, for each append, the size when
the capability was obtained and the offset. -/
structure AppendState where
  size : UInt64
  holder : Option (Nat × UInt64)
  isize : Nat → Int
  refs : Nat → CapRefs
  inside : Nat → Option InAppend
  writes : List (UInt64 × Int)

/-- `commit` is a new size from a client, `cache` a change of `i_size` for any other reason. In
`write`, `reply` says whether the getattr succeeds, and `ret` is the result of
`generic_file_write_iter`. -/
inductive AppendEvent where
  | grant (client : Nat)
  | release
  | commit (client : Nat) (size : UInt64)
  | cache (client : Nat) (isize : Int)
  | enter (process client : Nat) (upgrade : Except Errno Unit) (calls : Nat → CapsCall)
  | write (process : Nat) (reply : Bool) (ret : Int)

def AppendState.getattr (s : AppendState) (reply : Bool) : Option UInt64 :=
  if reply then some s.size else none

/-- The state after the write of the append `a`. -/
def AppendState.wrote (s : AppendState) (process : Nat) (a : InAppend) (reply : Bool) (ret : Int) :
    AppendState :=
  let pos := appendPos (s.isize a.client) (s.getattr reply)
  { s with
    isize := Function.update s.isize a.client pos
    refs := Function.update s.refs a.client (putRefs (s.refs a.client) a.refs.1)
    inside := Function.update s.inside process none
    writes := if 0 < ret then (a.obtained, pos) :: s.writes else s.writes }

/-- One event. The Filer grants `POWERFS_CAP_FILE_EXCL` to one client at a time, and while one has
it the others commit nothing; a client that finds the bit in its capability is the one. -/
def appendExec (s : AppendState) : AppendEvent → Option AppendState
  | .grant client =>
    if s.holder = none then some { s with holder := some (client, s.size) } else none
  | .release => some { s with holder := none }
  | .commit client size =>
    if s.holder.all fun h => h.1 = client then some { s with size := size } else none
  | .cache client isize => some { s with isize := Function.update s.isize client isize }
  | .enter process client upgrade calls =>
    match s.inside process with
    | some _ => none
    | none =>
      match appendEnter upgrade calls (s.refs client) with
      | (.error _, r) => some { s with refs := Function.update s.refs client r }
      | (.ok got, r) =>
        match s.holder with
        | none => none
        | some (holder, obtained) =>
          if holder = client then
            some { s with
              refs := Function.update s.refs client r
              inside := Function.update s.inside process (some ⟨client, got, obtained⟩) }
          else none
  | .write process reply ret =>
    match s.inside process with
    | none => none
    | some a => some (s.wrote process a reply ret)

/-- No append is under way and none has been made. -/
structure AppendInit (s : AppendState) : Prop where
  holder : s.holder = none
  inside : ∀ process, s.inside process = none
  writes : s.writes = []

/-- Every append wrote at or above the size when its client obtained the capability. -/
def AppendsAbove (s : AppendState) : Prop := ∀ w ∈ s.writes, (w.1.toNat : Int) ≤ w.2

/-- The condition on an append that writes something: `i_size` is not below the size when the
capability was obtained, or the getattr brings one that is not below it and fits in a `loff_t`. -/
def AppendOk (s : AppendState) : AppendEvent → Prop
  | .write process reply ret =>
    ∀ a, s.inside process = some a → 0 < ret →
      (a.obtained.toNat : Int) ≤ s.isize a.client ∨
        reply = true ∧ a.obtained ≤ s.size ∧ s.size.toNat < 2 ^ 63
  | _ => True

theorem loff_of_lt {size : UInt64} (h : size.toNat < 2 ^ 63) : loff size = size.toNat := by
  apply BitVec.toInt_eq_toNat_of_lt
  show 2 * size.toNat < 2 ^ 64
  omega

theorem loff_neg {size : UInt64} (h : 2 ^ 63 ≤ size.toNat) : loff size < 0 := by
  apply BitVec.toInt_neg_iff.mpr
  show 2 ^ 64 ≤ 2 * size.toNat
  omega

theorem le_appendPos_iff (n : UInt64) (isize : Int) (reply : Option UInt64) :
    (n.toNat : Int) ≤ appendPos isize reply ↔
      (n.toNat : Int) ≤ isize ∨ ∃ size, reply = some size ∧ n ≤ size ∧ size.toNat < 2 ^ 63 := by
  cases reply with
  | none => simp [appendPos]
  | some size =>
    simp only [appendPos, Option.some.injEq, exists_eq_left', UInt64.le_iff_toNat_le]
    by_cases hsize : size.toNat < 2 ^ 63
    · rw [loff_of_lt hsize]
      split <;> omega
    · -- a size that does not fit is negative, and so never larger than what is cached
      have hneg := loff_neg (Nat.le_of_not_lt hsize)
      split <;> omega

inductive AppendCase (s : AppendState) : AppendEvent → AppendState → Prop
  | grant (client : Nat) (hfree : s.holder = none) :
      AppendCase s (.grant client) { s with holder := some (client, s.size) }
  | release : AppendCase s .release { s with holder := none }
  | commit (client : Nat) (size : UInt64) : AppendCase s (.commit client size) { s with size }
  | cache (client : Nat) (isize : Int) :
      AppendCase s (.cache client isize)
        { s with isize := Function.update s.isize client isize }
  | refused (process client : Nat) (upgrade : Except Errno Unit) (calls : Nat → CapsCall)
      (r : CapRefs) :
      AppendCase s (.enter process client upgrade calls)
        { s with refs := Function.update s.refs client r }
  | enter (process client : Nat) (upgrade : Except Errno Unit) (calls : Nat → CapsCall)
      (r : CapRefs) (got : ExclRefs) (obtained : UInt64)
      (hholder : s.holder = some (client, obtained)) :
      AppendCase s (.enter process client upgrade calls)
        { s with
          refs := Function.update s.refs client r
          inside := Function.update s.inside process (some ⟨client, got, obtained⟩) }
  | write (process : Nat) (reply : Bool) (ret : Int) (a : InAppend)
      (hinside : s.inside process = some a) :
      AppendCase s (.write process reply ret) (s.wrote process a reply ret)

theorem appendExec_case {s s' : AppendState} {e : AppendEvent} (h : appendExec s e = some s') :
    AppendCase s e s' := by
  cases e with simp only [appendExec] at h
  | grant client =>
    split at h <;> cases h
    next hfree => exact .grant client hfree
  | release =>
    cases h
    exact .release
  | commit client size =>
    split at h <;> cases h
    exact .commit client size
  | cache client isize =>
    cases h
    exact .cache client isize
  | enter process client upgrade calls =>
    split at h
    · cases h
    split at h
    · next r _ =>
      cases h
      exact .refused process client upgrade calls r
    · next got r _ =>
      split at h <;> try cases h
      next holder obtained hholder =>
      split at h
      · next heq =>
        cases h
        exact .enter process client upgrade calls r got obtained (heq ▸ hholder)
      · cases h
  | write process reply ret =>
    split at h <;> cases h
    next a ha => exact .write process reply ret a ha

variable {s s' : AppendState} {e : AppendEvent}

theorem appendsAbove_wrote_iff (hs : AppendsAbove s) (process : Nat) (a : InAppend) (reply : Bool)
    (ret : Int) :
    AppendsAbove (s.wrote process a reply ret) ↔
      (0 < ret → (a.obtained.toNat : Int) ≤ s.isize a.client ∨
        reply = true ∧ a.obtained ≤ s.size ∧ s.size.toNat < 2 ^ 63) := by
  have hpos := le_appendPos_iff a.obtained (s.isize a.client) (s.getattr reply)
  have hreply : (∃ size, s.getattr reply = some size ∧ a.obtained ≤ size ∧ size.toNat < 2 ^ 63) ↔
      reply = true ∧ a.obtained ≤ s.size ∧ s.size.toNat < 2 ^ 63 := by
    cases reply <;> simp [AppendState.getattr]
  rw [hreply] at hpos
  simp only [AppendsAbove, AppendState.wrote]
  by_cases hret : 0 < ret
  · simp only [if_pos hret, List.forall_mem_cons, hpos]
    exact ⟨fun h _ => h.1, fun h => ⟨h hret, hs⟩⟩
  · simp only [if_neg hret]
    exact ⟨fun _ h => absurd h hret, fun _ => hs⟩

theorem appendsAbove_step_iff (hs : AppendsAbove s) (h : appendExec s e = some s') :
    AppendsAbove s' ↔ AppendOk s e := by
  cases appendExec_case h with
  | grant | release | commit | cache | refused | enter => exact iff_of_true hs trivial
  | write process reply ret a hinside =>
    rw [appendsAbove_wrote_iff hs]
    constructor
    · intro hok b hb hret
      cases hinside.symm.trans hb
      exact hok hret
    · exact fun hok hret => hok a hinside hret

theorem AppendInit.appendsAbove (h : AppendInit s) : AppendsAbove s := by
  intro w hw
  rw [h.writes] at hw
  cases hw

/-- While every append meets the condition no append writes too low, and the first that does not
meet it does. -/
theorem appendsAbove_of_appendOk (s : AppendState)
    (h : Reach (fun s e s' => appendExec s e = some s') AppendOk AppendInit s) :
    AppendsAbove s ∧
      ∀ e s', appendExec s e = some s' → (AppendsAbove s' ↔ AppendOk s e) := by
  have hs : AppendsAbove s :=
    h.invariant (fun _ hinit => hinit.appendsAbove) fun _ _ _ hinv hok hstep =>
      (appendsAbove_step_iff hinv hstep).mpr hok
  exact ⟨hs, fun e s' hstep => appendsAbove_step_iff hs hstep⟩

/-- A capability with all bits, found at once by every call. -/
def exclCalls : Nat → CapsCall := fun _ =>
  ⟨fun _ => (0, some (capIssue 30 0 .fresh (wireCapsetToKernelBits 7))), fun _ => false⟩

/-- Other clients have brought the file to 5000 bytes; client 1 last saw 100. -/
def staleClient : AppendState where
  size := 5000
  holder := none
  isize := fun _ => 100
  refs := fun _ => ⟨0, 0, 0, 0, 0, 0⟩
  inside := fun _ => none
  writes := []

theorem staleClient_init : AppendInit staleClient := ⟨rfl, fun _ => rfl, rfl⟩

def oneAppend (reply : Bool) : List AppendEvent :=
  [.grant 1, .enter 7 1 (.ok ()) exclCalls, .write 7 reply 10]

/-- With a reply to the getattr the append starts at byte 5000. -/
theorem appendsAbove_of_appendOk_refreshed :
    ∃ s, (oneAppend true).foldlM appendExec staleClient = some s ∧ s.writes = [(5000, 5000)] ∧
      AppendsAbove s := by
  have hok : OkAlong appendExec AppendOk staleClient (oneAppend true) := by
    refine .cons trivial rfl (.cons trivial rfl ?_)
    refine .cons (fun a ha _ => .inr ⟨rfl, ?_, by decide⟩) rfl trivial
    cases ha
    decide
  exact ⟨_, rfl, rfl, (appendsAbove_of_appendOk _ (.of_run (.start staleClient_init) hok rfl)).1⟩

/-- Without one it starts at byte 100. -/
theorem not_appendsAbove_runs :
    ¬ ∀ s, Reach (fun s e s' => appendExec s e = some s') (fun _ _ => True) AppendInit s →
      AppendsAbove s := by
  intro h
  have habove := h _ (.of_run (.start staleClient_init) (okAlong_true _ (oneAppend false)) rfl)
  exact absurd (habove (5000, 100) List.mem_cons_self) (by decide)

end PowerFS.File
