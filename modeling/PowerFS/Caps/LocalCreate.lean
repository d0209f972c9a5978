import PowerFS.Caps.Lease
import Mathlib.Logic.Function.Basic

namespace PowerFS.Caps

open Runs

/-! The speculative capability of a file that was created locally:
`powerfs_upgrade_local_create`, the conversion in `powerfs_flush_dirty_creates` once the file is
published, and `powerfs_file_open`. A step of a task is what it does under one hold of `i_lock`, so
that tasks interleave wherever the source drops the lock. -/

/-- `i_auth_cap && i_auth_cap->token[0] != '\0'`. -/
def hasToken : Option Cap → Bool
  | none => false
  | some cap => cap.token.head?.any (· ≠ 0)

/-- `cap_open_grant_local`. -/
def capOpenGrantLocal (lease now : Nat) (cap : Option Cap) (alloc write : Bool) : Option Cap :=
  let bits := if write then capAuthExcl ||| capFileWr ||| capFileExcl
    else capAuthShared ||| capFileShared ||| capFileCache
  match cap with
  | some cap => some (capIssue lease now cap bits)
  | none => if alloc then some (capIssue lease now .fresh bits) else none

/-- Where a task stands. `check` to `finish` are `powerfs_upgrade_local_create`: the top of its
loop, its request, the second test, and the end. `converting`, `converted` and `retiring` convert an
open or dirty child, and another; the last three are an open. -/
inductive Task where
  | idle
  | check (attempt : Nat)
  | granting (attempt : Nat)
  | granted (attempt : Nat) (ok : Bool)
  | finish
  | converting
  | converted
  | retiring
  | openLocal (read write : Bool)
  | openGranting (read write : Bool)
  | openCounting (read write : Bool)
  deriving DecidableEq

/-- `marker` is `local_cap_granted`, `queued`: the create waits in `dirty_creates`, `issued` has the
tokens sent, `returned` the capability at each return of 0 from `powerfs_upgrade_local_create`. -/
structure LocalInode where
  marker : Bool
  cap : Option Cap
  nrRd : Nat
  nrWr : Nat
  queued : Bool
  tasks : Nat → Task
  issued : List (List UInt8)
  returned : List (Option Cap)

/-- The time, memory for a capability and the reply to CapOpenGrant, for a step that needs them. -/
structure GrantEnv where
  now : Nat
  alloc : Bool
  rpc : Except Errno GrantReply

/-- The two tests in the loop of `powerfs_upgrade_local_create`. -/
inductive UpgradeCheck where
  | done
  | haveToken
  | neither

def LocalInode.upgradeCheck (s : LocalInode) : UpgradeCheck :=
  if !s.marker then .done else if hasToken s.cap then .haveToken else .neither

def LocalInode.goto (s : LocalInode) (t : Nat) (task : Task) : LocalInode :=
  { s with tasks := Function.update s.tasks t task }

/-- `powerfs_upgrade_local_create` returns 0. -/
def LocalInode.succeed (s : LocalInode) (t : Nat) : LocalInode :=
  { s.goto t .idle with returned := s.cap :: s.returned }

def nextAttempt (attempt : Nat) : Task := if attempt + 1 < 3 then .check (attempt + 1) else .finish

section Exec

variable (lease : Nat) (toJiffies : Nat → Nat)

/-- `cap_open_grant_and_issue`, from the reply on. -/
def LocalInode.grant (s : LocalInode) (env : GrantEnv) : LocalInode :=
  { s with
    cap := capOpenGrantAndIssue lease toJiffies env.now s.cap env.alloc env.rpc
    issued := match env.rpc with
      | .ok r => r.token :: s.issued
      | .error _ => s.issued }

/-- One step of task `t`. -/
def taskStep (s : LocalInode) (t : Nat) (env : GrantEnv) : Task → Option LocalInode
  | .idle => none
  | .check attempt =>
    match s.upgradeCheck with
    | .done => some (s.succeed t)
    | .haveToken => some (s.goto t .finish)
    | .neither => some (s.goto t (.granting attempt))
  | .granting attempt =>
    -- without a capability it is `-ENOMEM`, and every other result is 0
    let s := s.grant lease toJiffies env
    some (s.goto t (.granted attempt s.cap.isSome))
  | .granted attempt ok =>
    if ok then
      match s.upgradeCheck with
      | .done => some (s.succeed t)
      | .haveToken => some (s.goto t .finish)
      | .neither => some (s.goto t (nextAttempt attempt))
    else some (s.goto t (nextAttempt attempt))
  | .finish =>
    if hasToken s.cap then some ({ s with marker := false }.succeed t)
    else some (s.goto t .idle)
  | .converting => some ((s.grant lease toJiffies env).goto t .converted)
  | .converted =>
    if hasToken s.cap then some ({ s with marker := false }.goto t .idle)
    else some (s.goto t .idle)
  | .retiring => some ({ s with marker := false }.goto t .idle)
  | .openLocal read write =>
    some ({ s with cap := capOpenGrantLocal lease env.now s.cap env.alloc write }.goto t
      (.openCounting read write))
  | .openGranting read write =>
    some ((s.grant lease toJiffies env).goto t (.openCounting read write))
  | .openCounting read write =>
    some ({ s with
      nrRd := if read then s.nrRd + 1 else s.nrRd
      nrWr := if write then s.nrWr + 1 else s.nrWr }.goto t .idle)

/-- A call of `powerfs_upgrade_local_create`, the conversion behind a BatchCreate (the flush that
an upgrade forces, or any other), with what it finds dirty, an open, a close, or a step. -/
inductive LocalEvent where
  | call (t : Nat)
  | convert (t : Nat) (dirty : Bool)
  | openFile (t : Nat) (read write : Bool)
  | close (read write : Bool)
  | run (t : Nat) (env : GrantEnv)

def LocalInode.convertTask (s : LocalInode) (dirty : Bool) : Task :=
  if s.marker then
    if decide (0 < s.nrWr) || decide (0 < s.nrRd) || dirty then .converting else .retiring
  else .idle

def localExec (s : LocalInode) : LocalEvent → Option LocalInode
  | .call t =>
    if s.tasks t = .idle then
      if s.marker then some (s.goto t (.check 0)) else some (s.succeed t)
    else none
  | .convert t dirty =>
    if s.tasks t = .idle ∧ s.queued = true then
      some ({ s with queued := false }.goto t (s.convertTask dirty))
    else none
  | .openFile t read write =>
    if s.tasks t = .idle then
      some (s.goto t (if s.marker then .openLocal read write else .openGranting read write))
    else none
  | .close read write =>
    some { s with
      nrRd := if read then s.nrRd - 1 else s.nrRd
      nrWr := if write then s.nrWr - 1 else s.nrWr }
  | .run t env => taskStep lease toJiffies s t env (s.tasks t)

end Exec

/-- The capability has a token, and the Filer has issued it; the field holds 63 bytes. -/
def Registered (issued : List (List UInt8)) (cap : Option Cap) : Prop :=
  hasToken cap = true ∧ ∃ c ∈ cap, ∃ token ∈ issued, c.token = token.take 63

/-- Each time `powerfs_upgrade_local_create` returned 0 the auth capability was registered. -/
def UpgradesRegistered (s : LocalInode) : Prop := ∀ cap ∈ s.returned, Registered s.issued cap

def TokenUnlessMarked (s : LocalInode) : Prop := s.marker = false → hasToken s.cap = true

/-- No token has come from elsewhere than the Filer. -/
def TokensIssued (s : LocalInode) : Prop :=
  ∀ cap ∈ s.cap, cap.token = [] ∨ ∃ token ∈ s.issued, cap.token = token.take 63

/-- An inode with the marker, as a local create leaves it, or with a token; no task has begun. -/
structure LocalInit (s : LocalInode) : Prop where
  covered : TokenUnlessMarked s
  tokens : TokensIssued s
  idle : ∀ t, s.tasks t = .idle
  returned : s.returned = []

def GrantEnv.TokenStarts (env : GrantEnv) : Prop := ∀ r, env.rpc = .ok r → r.token.head? ≠ some 0

/-- The condition on a step: the conversion of a closed and clean child finds a token, and no
reply blanks the token of an inode without the marker. -/
def TaskOk (s : LocalInode) (env : GrantEnv) : Task → Prop
  | .retiring => hasToken s.cap = true
  | .granting _ | .converting | .openGranting _ _ => s.marker = false → env.TokenStarts
  | _ => True

def ConvertOk (s : LocalInode) : LocalEvent → Prop
  | .run t env => TaskOk s env (s.tasks t)
  | _ => True

instance (env : GrantEnv) : Decidable env.TokenStarts :=
  match hrpc : env.rpc with
  | .ok r => decidable_of_iff (r.token.head? ≠ some 0) (by simp [GrantEnv.TokenStarts, hrpc])
  | .error _ => isTrue (by simp [GrantEnv.TokenStarts, hrpc])

instance (s : LocalInode) (env : GrantEnv) : (task : Task) → Decidable (TaskOk s env task)
  | .retiring => inferInstanceAs (Decidable (_ = true))
  | .granting _ | .converting | .openGranting _ _ => inferInstanceAs (Decidable (_ → _))
  | .idle | .check _ | .granted _ _ | .finish | .converted | .openLocal _ _ | .openCounting _ _ =>
    isTrue trivial

instance (s : LocalInode) : (e : LocalEvent) → Decidable (ConvertOk s e)
  | .run t env => inferInstanceAs (Decidable (TaskOk s env (s.tasks t)))
  | .call _ | .convert _ _ | .openFile _ _ _ | .close _ _ => isTrue trivial

variable {lease : Nat} {toJiffies : Nat → Nat} {s s' : LocalInode} {ok : Prop}

theorem applyReply_token (now : Nat) (cap : Cap) (r : GrantReply) :
    (applyReply lease toJiffies now cap r).token =
      if 0 < r.token.length then r.token.take 63 else cap.token := rfl

theorem hasToken_applyReply (now : Nat) (cap : Cap) (r : GrantReply) :
    hasToken (some (applyReply lease toJiffies now cap r)) =
      if r.token = [] then hasToken (some cap) else r.token.head?.any (· ≠ 0) := by
  rw [hasToken, applyReply_token]
  cases r.token with
  | nil => rfl
  | cons b rest => rfl

theorem hasToken_capOpenGrantLocal (now : Nat) (cap : Option Cap) (alloc write : Bool) :
    hasToken (capOpenGrantLocal lease now cap alloc write) = hasToken cap := by
  cases cap with
  | some cap => rfl
  | none => cases alloc <;> rfl

/-- What a step does to the marker, the capability and the results, and the condition on it. -/
inductive LocalEffect (lease : Nat) (toJiffies : Nat → Nat) (s : LocalInode) :
    Prop → LocalInode → Prop
  | quiet (nrRd nrWr : Nat) (queued : Bool) (tasks : Nat → Task) :
      LocalEffect lease toJiffies s True { s with nrRd, nrWr, queued, tasks }
  | succeed (tasks : Nat → Task) (hdone : s.marker = false) :
      LocalEffect lease toJiffies s True { s with tasks, returned := s.cap :: s.returned }
  | finish (tasks : Nat → Task) (htoken : hasToken s.cap = true) :
      LocalEffect lease toJiffies s True
        { s with marker := false, tasks, returned := s.cap :: s.returned }
  | clear (tasks : Nat → Task) (htoken : hasToken s.cap = true) :
      LocalEffect lease toJiffies s True { s with marker := false, tasks }
  | retire (tasks : Nat → Task) :
      LocalEffect lease toJiffies s (hasToken s.cap = true) { s with marker := false, tasks }
  | grant (env : GrantEnv) (tasks : Nat → Task) :
      LocalEffect lease toJiffies s (s.marker = false → env.TokenStarts)
        { s.grant lease toJiffies env with tasks }
  | openLocal (now : Nat) (alloc write : Bool) (tasks : Nat → Task) :
      LocalEffect lease toJiffies s True
        { s with cap := capOpenGrantLocal lease now s.cap alloc write, tasks }

theorem upgradeCheck_effect {t : Nat} {next : Task}
    (h : (match s.upgradeCheck with
      | .done => some (s.succeed t)
      | .haveToken => some (s.goto t .finish)
      | .neither => some (s.goto t next)) = some s') :
    LocalEffect lease toJiffies s True s' := by
  cases hmarker : s.marker with
  | false =>
    rw [LocalInode.upgradeCheck, hmarker] at h
    cases h
    exact .succeed _ hmarker
  | true =>
    cases htoken : hasToken s.cap <;>
      rw [LocalInode.upgradeCheck, hmarker, htoken] at h <;> cases h <;> exact .quiet _ _ _ _

theorem taskStep_effect {t : Nat} {env : GrantEnv} {task : Task}
    (h : taskStep lease toJiffies s t env task = some s') :
    LocalEffect lease toJiffies s (TaskOk s env task) s' := by
  cases task with
  | idle => cases h
  | check attempt => exact upgradeCheck_effect h
  | granting | converting | openGranting =>
    cases h
    exact .grant env _
  | granted attempt ok =>
    cases ok with
    | true => exact upgradeCheck_effect h
    | false =>
      cases h
      exact .quiet _ _ _ _
  | finish =>
    rw [taskStep] at h
    split at h
    · next htoken =>
      cases h
      exact .finish _ htoken
    · cases h
      exact .quiet _ _ _ _
  | converted =>
    rw [taskStep] at h
    split at h
    · next htoken =>
      cases h
      exact .clear _ htoken
    · cases h
      exact .quiet _ _ _ _
  | retiring =>
    cases h
    exact .retire _
  | openLocal read write =>
    cases h
    exact .openLocal env.now env.alloc write _
  | openCounting read write =>
    cases h
    exact .quiet _ _ _ _

theorem localExec_effect {e : LocalEvent} (h : localExec lease toJiffies s e = some s') :
    LocalEffect lease toJiffies s (ConvertOk s e) s' := by
  cases e with
  | call t =>
    rw [localExec] at h
    split at h
    · split at h
      · cases h
        exact .quiet _ _ _ _
      · next hmarker =>
        cases h
        exact .succeed _ (Bool.eq_false_iff.mpr hmarker)
    · cases h
  | convert | openFile =>
    rw [localExec] at h
    split at h <;> cases h
    exact .quiet _ _ _ _
  | close read write =>
    cases h
    exact .quiet _ _ _ _
  | run t env => exact taskStep_effect h

theorem tokenUnlessMarked_grant_iff (env : GrantEnv) (hs : TokenUnlessMarked s) :
    TokenUnlessMarked (s.grant lease toJiffies env) ↔ (s.marker = false → env.TokenStarts) := by
  refine forall_congr' fun hmarker => ?_
  have htoken := hs hmarker
  cases hcap : s.cap with rw [hcap] at htoken
  | none =>
    cases htoken
  | some cap =>
    rw [LocalInode.grant, hcap]
    cases hrpc : env.rpc with
    | error err =>
      refine iff_of_true ?_ fun r hr => nomatch hrpc.symm.trans hr
      exact (hasToken_applyReply env.now cap .degraded).trans htoken
    | ok r =>
      have hstarts : env.TokenStarts ↔ r.token.head? ≠ some 0 := by
        simp [GrantEnv.TokenStarts, hrpc]
      rw [hstarts]
      show hasToken (some (applyReply lease toJiffies env.now cap r)) = true ↔ _
      rw [hasToken_applyReply]
      cases r.token with
      | nil => simpa using htoken
      | cons b rest => simp

theorem LocalEffect.tokenUnlessMarked_iff (h : LocalEffect lease toJiffies s ok s')
    (hs : TokenUnlessMarked s) : TokenUnlessMarked s' ↔ ok := by
  cases h with
  | quiet | succeed => exact iff_of_true hs trivial
  | finish tasks htoken | clear tasks htoken => exact iff_of_true (fun _ => htoken) trivial
  | retire tasks => exact ⟨fun h => h rfl, fun h _ => h⟩
  | grant env tasks => exact tokenUnlessMarked_grant_iff env hs
  | openLocal now alloc write tasks =>
    refine iff_of_true (fun hmarker => ?_) trivial
    exact (hasToken_capOpenGrantLocal now s.cap alloc write).trans (hs hmarker)

theorem capOpenGrantAndIssue_token {now : Nat} {cap : Option Cap} {cap' : Cap} {alloc : Bool}
    {rpc : Except Errno GrantReply}
    (h : cap' ∈ capOpenGrantAndIssue lease toJiffies now cap alloc rpc) :
    (∃ r, rpc = .ok r ∧ cap'.token = r.token.take 63) ∨ cap'.token = (cap.getD .fresh).token := by
  have happly : ∃ r, cap' = applyReply lease toJiffies now (cap.getD .fresh) r ∧
      (rpc = .ok r ∨ r.token = []) := by
    refine ⟨match rpc with | .ok r => r | .error _ => .degraded, ?_, ?_⟩
    · cases cap with
      | some c => cases rpc <;> cases h <;> rfl
      | none =>
        cases alloc with
        | false => cases h
        | true => cases rpc <;> cases h <;> rfl
    · cases rpc with
      | ok r => exact .inl rfl
      | error err => exact .inr rfl
  obtain ⟨r, rfl, hr⟩ := happly
  rw [applyReply_token]
  split
  · next hlen =>
    obtain hr | hr := hr
    · exact .inl ⟨r, hr, rfl⟩
    · rw [hr] at hlen
      cases hlen
  · exact .inr rfl

theorem mem_issued_grant {token : List UInt8} (env : GrantEnv) (h : token ∈ s.issued) :
    token ∈ (s.grant lease toJiffies env).issued := by
  rw [LocalInode.grant]
  cases env.rpc with
  | error err => exact h
  | ok r => exact List.mem_cons_of_mem _ h

theorem tokensIssued_grant (env : GrantEnv) (hs : TokensIssued s) :
    TokensIssued (s.grant lease toJiffies env) := by
  intro cap hcap
  obtain ⟨r, hrpc, htoken⟩ | htoken := capOpenGrantAndIssue_token hcap
  · refine .inr ⟨r.token, ?_, htoken⟩
    rw [LocalInode.grant, hrpc]
    exact List.mem_cons_self
  · rw [htoken]
    cases hold : s.cap with
    | none => exact .inl rfl
    | some c =>
      obtain hnil | ⟨token, hissued, heq⟩ := hs c hold
      · exact .inl hnil
      · exact .inr ⟨token, mem_issued_grant env hissued, heq⟩

theorem tokensIssued_openLocal (now : Nat) (alloc write : Bool) (hs : TokensIssued s) :
    TokensIssued { s with cap := capOpenGrantLocal lease now s.cap alloc write } := by
  intro cap hcap
  cases hold : s.cap with
  | some c =>
    rw [hold] at hcap
    cases hcap
    exact hs c hold
  | none =>
    -- a new capability has no token
    rw [hold] at hcap
    cases alloc <;> cases hcap
    exact .inl rfl

theorem LocalEffect.tokensIssued (h : LocalEffect lease toJiffies s ok s') (hs : TokensIssued s) :
    TokensIssued s' := by
  cases h with
  | quiet | succeed | finish | clear | retire => exact hs
  | grant env tasks => exact tokensIssued_grant env hs
  | openLocal now alloc write tasks => exact tokensIssued_openLocal now alloc write hs

theorem TokensIssued.registered (hs : TokensIssued s) (htoken : hasToken s.cap = true) :
    Registered s.issued s.cap := by
  refine ⟨htoken, ?_⟩
  cases hcap : s.cap with
  | none =>
    rw [hcap] at htoken
    cases htoken
  | some cap =>
    obtain hnil | hissued := hs cap hcap
    · rw [hcap, hasToken, hnil] at htoken
      cases htoken
    · exact ⟨cap, rfl, hissued⟩

theorem Registered.grant {cap : Option Cap} (env : GrantEnv) (h : Registered s.issued cap) :
    Registered (s.grant lease toJiffies env).issued cap := by
  obtain ⟨htoken, c, hc, token, hissued, heq⟩ := h
  exact ⟨htoken, c, hc, token, mem_issued_grant env hissued, heq⟩

/-- `powerfs_upgrade_local_create` returns 0 only behind a test of the marker or of the token. -/
theorem LocalEffect.upgradesRegistered (h : LocalEffect lease toJiffies s ok s')
    (htokens : TokensIssued s) (hcovered : TokenUnlessMarked s) (hs : UpgradesRegistered s) :
    UpgradesRegistered s' := by
  cases h with
  | quiet | clear | retire | openLocal => exact hs
  | succeed tasks hdone =>
    exact List.forall_mem_cons.mpr ⟨htokens.registered (hcovered hdone), hs⟩
  | finish tasks htoken => exact List.forall_mem_cons.mpr ⟨htokens.registered htoken, hs⟩
  | grant env tasks =>
    intro cap hcap
    show Registered (s.grant lease toJiffies env).issued cap
    exact (hs cap hcap).grant env

structure LocalInv (s : LocalInode) : Prop where
  covered : TokenUnlessMarked s
  tokens : TokensIssued s
  registered : UpgradesRegistered s

theorem LocalInit.inv (h : LocalInit s) : LocalInv s where
  covered := h.covered
  tokens := h.tokens
  registered cap hcap := by
    rw [h.returned] at hcap
    cases hcap

theorem LocalInv.step {e : LocalEvent} (hs : LocalInv s) (hok : ConvertOk s e)
    (h : localExec lease toJiffies s e = some s') : LocalInv s' := by
  have heffect := localExec_effect h
  exact ⟨(heffect.tokenUnlessMarked_iff hs.covered).mpr hok, heffect.tokensIssued hs.tokens,
    heffect.upgradesRegistered hs.tokens hs.covered hs.registered⟩

theorem not_upgradesRegistered_call (hs : ¬ TokenUnlessMarked s) {t : Nat}
    (ht : s.tasks t = .idle) :
    ∃ s', localExec lease toJiffies s (.call t) = some s' ∧ ¬ UpgradesRegistered s' := by
  obtain ⟨hmarker, htoken⟩ := Classical.not_imp.mp hs
  refine ⟨s.succeed t, ?_, fun h => ?_⟩
  · rw [localExec, if_pos ht, hmarker]
    rfl
  · exact htoken (h s.cap List.mem_cons_self).1

/-- While the condition is met, a return of 0 means a registered capability; after a step that does
not meet it, the next call returns 0 without one. -/
theorem upgradesRegistered_of_convertOk (lease : Nat) (toJiffies : Nat → Nat) (s : LocalInode)
    (h : Reach (fun s e s' => localExec lease toJiffies s e = some s') ConvertOk LocalInit s) :
    UpgradesRegistered s ∧
      ∀ e s', localExec lease toJiffies s e = some s' → ¬ ConvertOk s e →
        ∀ t, s'.tasks t = .idle →
          ∃ s'', localExec lease toJiffies s' (.call t) = some s'' ∧ ¬ UpgradesRegistered s'' := by
  have hinv : LocalInv s :=
    h.invariant (fun _ hinit => hinit.inv) fun _ _ _ hinv hok hstep => hinv.step hok hstep
  refine ⟨hinv.registered, fun e s' hstep hbad t ht => ?_⟩
  apply not_upgradesRegistered_call _ ht
  rw [(localExec_effect hstep).tokenUnlessMarked_iff hinv.covered]
  exact hbad

def newLocal : LocalInode where
  marker := true
  cap := none
  nrRd := 0
  nrWr := 0
  queued := true
  tasks := fun _ => .idle
  issued := []
  returned := []

theorem newLocal_init : LocalInit newLocal where
  covered := nofun
  tokens := nofun
  idle _ := rfl
  returned := rfl

/-- The Filer grants everything, under the token "t1". -/
def grantAll : GrantEnv := ⟨100, true, .ok ⟨[116, 49], 7, 1, 1, 30000⟩⟩

/-- The file is open for writing; the flush that the upgrade forces gets the token. -/
def openUpgrade : List LocalEvent :=
  [.openFile 1 false true, .run 1 grantAll, .run 1 grantAll, .call 2, .convert 3 false,
    .run 3 grantAll, .run 3 grantAll, .run 2 grantAll]

theorem upgradesRegistered_of_convertOk_open :
    ∃ s, openUpgrade.foldlM (localExec 30 id) newLocal = some s ∧ s.returned.length = 1 ∧
      UpgradesRegistered s := by
  have hok : OkAlong (localExec 30 id) ConvertOk newLocal openUpgrade := by decide
  exact ⟨_, rfl, rfl,
    (upgradesRegistered_of_convertOk 30 id _ (.of_run (.start newLocal_init) hok rfl)).1⟩

/-- The file is closed, as in a `chmod` by path: the flush that the upgrade forces takes the
marker away and asks for no capability. -/
theorem not_upgradesRegistered_runs :
    ¬ ∀ (lease : Nat) (toJiffies : Nat → Nat) (s : LocalInode),
      Reach (fun s e s' => localExec lease toJiffies s e = some s') (fun _ _ => True) LocalInit s →
        UpgradesRegistered s := by
  intro h
  have hregistered := h 30 id _ (.of_run (.start newLocal_init)
    (okAlong_true _ [.call 1, .convert 2 false, .run 2 grantAll, .run 1 grantAll]) rfl)
  exact Bool.false_ne_true (hregistered none List.mem_cons_self).1

end PowerFS.Caps
