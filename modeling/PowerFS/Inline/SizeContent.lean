import PowerFS.Inline.Effects

namespace PowerFS.Inline

open Layout

/-! An Inline file under writes, truncates, allocations and fsync: what a read should give, and
what the Filer was sent. -/

/-- A file, the size the Filer was last sent (its payload is `st.acked`), and what the file
contains after the calls so far. -/
structure SizedFile where
  st : CommitState
  filerSize : Nat
  content : List UInt8

def FilerHas (s : SizedFile) : Prop :=
  s.filerSize = s.st.file.iSize ∧ s.st.acked.getD [] = s.content

/-- Whether the Filer can be reached, and whether it takes the SETATTR and the update that
`powerfs_setattr` sends. Their failures are only logged. -/
structure TruncateEnv where
  connected : Bool
  setattr : Bool
  update : Bool

/-- `powerfs_setattr` of a size, from `truncate_setsize` on. That
`powerfs_upgrade_local_create` has published the create is an event of its own. -/
def setattrSize (env : TruncateEnv) (s : SizedFile) (n : Nat) : SizedFile :=
  let s := { s with
    st := { s.st with file := truncateFile s.st.file n }
    content := resize n s.content }
  let s := if env.connected ∧ env.setattr then { s with filerSize := n } else s
  if n = 0 ∧ env.connected ∧ env.update then
    -- The update for size 0 carries no inline payload.
    { s with st := { s.st with acked := none }, filerSize := 0 }
  else s

def fallocateDefault (s : SizedFile) (offset len : Nat) : SizedFile :=
  { s with
    st := { s.st with file := fallocateFile s.st.file (offset + len) }
    content := padTo (offset + len) s.content }

/-- `powerfs_fsync`; `attr` is whether its flush of the capabilities gets the size to the Filer
as an attribute. -/
def fsyncSized (attr : Bool) (env : FsyncEnv) (s : SizedFile) : Except Errno Unit × SizedFile :=
  let filerSize := if attr ∧ env.flush.isSome then s.st.file.iSize else s.filerSize
  -- Started without a payload, the commit shows whether it sends one.
  let (ret, st) := fsync env { s.st with acked := none }
  match st.acked with
  | some payload => (ret, { s with st, filerSize := payload.length })
  | none => (ret, { s with st := { st with acked := s.st.acked }, filerSize })

inductive SizeEvent where
  | publish (placementOut : Placement)
  | write (env : StageEnv) (pos : Nat) (bytes : List UInt8)
  | truncate (env : TruncateEnv) (n : Nat)
  | fallocate (offset len : Nat)
  | fsync (attr : Bool) (env : FsyncEnv)

def sizedStep (s : SizedFile) : SizeEvent → SizedFile
  | .publish placementOut => { s with st := s.st.publish (some placementOut) }
  | .write env pos bytes =>
    { s with
      st := { s.st with file := (stageWrite env s.st.file pos bytes).2.2 }
      content := writeAt s.content pos bytes }
  | .truncate env n => setattrSize env s n
  | .fallocate offset len => fallocateDefault s offset len
  | .fsync attr env => (fsyncSized attr env s).2

/-- The event stays below the hard limit of the inline buffer and below the threshold where a
write migrates it. A getattr in it fails or answers with the payload the Filer has. -/
def withinLimit (s : SizedFile) : SizeEvent → Bool
  | .publish _ | .fsync _ _ => true
  | .write env pos bytes =>
    bytes ≠ [] && pos + bytes.length ≤ inlineMaxSize &&
      (env.recovered = [] || env.recovered = s.st.acked.getD []) &&
      (stageWrite env s.st.file pos bytes).2.1 = false
  | .truncate _ n => n ≤ inlineMaxSize
  | .fallocate offset len => 0 < len && offset + len ≤ inlineMaxSize

def sizedExec (s : SizedFile) (e : SizeEvent) : Option SizedFile :=
  if withinLimit s e ∧ (sizedStep s e).st.file.layout.placement = .inline then
    some (sizedStep s e)
  else none

/-- An Inline file without unsent data. The buffer is there, or a recall has dropped it. -/
def SizeInit (s : SizedFile) : Prop :=
  s.st.file.layout.placement = .inline ∧ s.st.file.layout.inlineDirty = false ∧
    s.st.file.iSize = s.content.length ∧ FilerHas s ∧
    ∀ buf, s.st.file.layout.inlineData = some buf → buf = s.content

def FsyncSends (s : SizedFile) : Prop :=
  ∀ attr env s', sizedExec s (.fsync attr env) = some s' →
    (fsyncSized attr env s).1 = .ok () → FilerHas s'

/-- A write that needs a new buffer gets the memory, and the bytes of a dropped one, or could do
without; only writes extend the file; a truncate does not shorten a file whose buffer was dropped; a
truncate to nothing reaches the Filer. -/
def SizeOk (s : SizedFile) : SizeEvent → Prop
  | .publish _ | .fsync _ _ => True
  | .write env pos bytes =>
    Fits s.st.file pos bytes ∨
      if env.alloc then
        s.st.file.layout.inlineData.isSome = true ∨
          writeAt env.recovered pos bytes = writeAt s.content pos bytes
      else writeAt s.content pos bytes = s.content
  | .truncate env n =>
    if n = 0 then
      env.connected = true ∧ env.update = true ∨
        (s.filerSize = 0 ∨ env.connected = true ∧ env.setattr = true) ∧
          s.st.acked.getD [] = []
    else
      n = s.st.file.iSize ∨
        n < s.st.file.iSize ∧ s.st.file.layout.inlineData.isSome = true
  | .fallocate offset len => offset + len ≤ s.st.file.iSize

/-! ### When an fsync that returns 0 sends what it should -/

/-- The next commit has something to send. -/
def Unsent (s : SizedFile) : Prop :=
  s.st.file.layout.inlineDirty = true ∧ s.st.file.layout.inlineData.getD [] ≠ []

variable {s : SizedFile}

theorem Unsent.payload (h : Unsent s) : ∃ payload, s.st.file.layout.inlineData = some payload := by
  cases hdata : s.st.file.layout.inlineData with
  | none => exact absurd (by rw [hdata]; rfl) h.2
  | some payload => exact ⟨payload, rfl⟩

/-- An fsync leaves the file as it is and sends the payload, or nothing but perhaps the size. -/
structure FsyncEffect (ret : Except Errno Unit) (s s' : SizedFile) : Prop where
  content : s'.content = s.content
  inline : s'.st.file.layout.placement = .inline
  data : s'.st.file.layout.inlineData = s.st.file.layout.inlineData
  size : s'.st.file.iSize = s.st.file.iSize
  effect :
    Unsent s ∧ s'.st.file.layout.inlineDirty = false ∧
        s'.st.acked = s.st.file.layout.inlineData ∧ s'.filerSize = s.st.file.inlineLen ∨
      s'.st.acked = s.st.acked ∧ (s'.filerSize = s.filerSize ∨ s'.filerSize = s.st.file.iSize) ∧
        (s'.st.file.layout.inlineDirty = s.st.file.layout.inlineDirty ∨
          s'.st.file.layout.inlineDirty = false ∧ ¬ Unsent s) ∧
        (ret = .ok () → ¬ Unsent s)

theorem fsyncEffect {attr : Bool} {env : FsyncEnv} {s' : SizedFile}
    (h : sizedExec s (.fsync attr env) = some s') :
    FsyncEffect (fsyncSized attr env s).1 s s' := by
  simp only [sizedExec, withinLimit, sizedStep, true_and] at h
  split at h <;> cases h
  rename_i hinline
  have hcommit := @commits_fsync env { s.st with acked := none }
  simp only [fsyncSized] at hinline ⊢
  generalize fsync env { s.st with acked := none } = res at hinline hcommit ⊢
  obtain ⟨ret, st⟩ := res
  have hinline' : st.file.layout.placement = .inline := by
    split at hinline <;> exact hinline
  obtain ⟨⟨-, hdata, hsize, hsent⟩, hret⟩ := hcommit hinline'
  obtain ⟨hacked, hflag⟩ | ⟨hacked, hne, hdirty, hclean⟩ := hsent
  · rw [hacked]
    refine ⟨rfl, hinline', hdata, hsize, .inr ⟨rfl, ?_, ?_, ?_⟩⟩
    · simp only
      split
      · exact .inr rfl
      · exact .inl rfl
    · refine hflag.imp_right fun hflag => ⟨hflag.1, fun hunsent => hunsent.2 hflag.2⟩
    · intro hok hunsent
      obtain hflag | ⟨-, hempty⟩ := hflag
      · rw [hret hok, hunsent.1] at hflag
        cases hflag
      · exact hunsent.2 hempty
  · have hunsent : Unsent s := ⟨hdirty, hne⟩
    obtain ⟨payload, hpayload⟩ := hunsent.payload
    rw [hacked, hpayload]
    refine ⟨rfl, hinline', hdata, hsize, .inl ⟨hunsent, hclean, hacked, ?_⟩⟩
    rw [InlineFile.inlineLen, hpayload, Option.getD_some]

theorem fsyncSends_of (hsize : s.st.file.iSize = s.content.length)
    (hunsent : Unsent s → s.st.file.layout.inlineData.getD [] = s.content)
    (hsent : ¬ Unsent s → FilerHas s) : FsyncSends s := by
  intro attr env s' hs hret
  obtain ⟨hcontent, -, -, hsize', heffect⟩ := fsyncEffect hs
  rw [FilerHas, hcontent, hsize']
  obtain ⟨hun, -, hacked, hfiler⟩ | ⟨hacked, hfiler, -, hnone⟩ := heffect
  · rw [hacked, hfiler, InlineFile.inlineLen, hunsent hun, hsize]
    exact ⟨rfl, rfl⟩
  · obtain ⟨hfiler₀, hacked₀⟩ := hsent (hnone hret)
    rw [hacked, hacked₀]
    refine ⟨?_, rfl⟩
    obtain hfiler | hfiler := hfiler
    · rw [hfiler, hfiler₀]
    · exact hfiler

theorem fsyncSized_plain (hinline : s.st.file.layout.placement = .inline)
    (haligned : s.st.file.layoutAligned = true) :
    (fsyncSized false (plainFsync refusedMigration) s).1 = .ok () ∧
      ∃ s', sizedExec s (.fsync false (plainFsync refusedMigration)) = some s' ∧
        (Unsent s → s'.st.acked = s.st.file.layout.inlineData) ∧
        (¬ Unsent s → s'.filerSize = s.filerSize ∧ s'.st.acked = s.st.acked) := by
  by_cases hun : Unsent s
  · have hfsync : fsync (plainFsync refusedMigration) { s.st with acked := none } =
        (.ok (), { s.st.setDirty false with acked := s.st.file.layout.inlineData }) :=
      (fsync_plain { s.st with acked := none } hinline haligned refusedMigration).trans
        (congrArg (Prod.mk _) (if_pos hun))
    obtain ⟨payload, hpayload⟩ := hun.payload
    have hsized : fsyncSized false (plainFsync refusedMigration) s = (.ok (), { s with
        st := { s.st.setDirty false with acked := some payload }
        filerSize := payload.length }) := by
      simp only [fsyncSized, hfsync, hpayload]
    refine ⟨by rw [hsized], sizedStep s _, if_pos ⟨rfl, ?_⟩, ?_, fun h => absurd hun h⟩
    · rw [sizedStep, hsized, hpayload]
      exact fun _ => rfl
    · rw [sizedStep, hsized]
      exact hinline
  · have hfsync : fsync (plainFsync refusedMigration) { s.st with acked := none } =
        (.ok (), { s.st.setDirty false with acked := none }) :=
      (fsync_plain { s.st with acked := none } hinline haligned refusedMigration).trans
        (congrArg (Prod.mk _) (if_neg hun))
    have hsized : fsyncSized false (plainFsync refusedMigration) s =
        (.ok (), { s with st := s.st.setDirty false }) := by
      simp only [fsyncSized, hfsync]
      rfl
    refine ⟨by rw [hsized], sizedStep s _, if_pos ⟨rfl, ?_⟩, fun h => absurd h hun, ?_⟩
    · rw [sizedStep, hsized]
      exact fun _ => ⟨rfl, rfl⟩
    · rw [sizedStep, hsized]
      exact hinline

theorem fsyncSends_iff (hinline : s.st.file.layout.placement = .inline)
    (haligned : s.st.file.layoutAligned = true) (hsize : s.st.file.iSize = s.content.length) :
    FsyncSends s ↔ (Unsent s → s.st.file.layout.inlineData.getD [] = s.content) ∧
      (¬ Unsent s → FilerHas s) := by
  refine ⟨fun h => ?_, fun h => fsyncSends_of hsize h.1 h.2⟩
  obtain ⟨hret, s', hs, hsent, hkept⟩ := fsyncSized_plain hinline haligned
  have hhas := h false _ s' hs hret
  obtain ⟨hcontent, -, -, hsize', -⟩ := fsyncEffect hs
  rw [FilerHas, hcontent, hsize'] at hhas
  constructor
  · intro hun
    rw [← hsent hun]
    exact hhas.2
  · intro hun
    obtain ⟨hfiler, hacked⟩ := hkept hun
    rw [hfiler, hacked] at hhas
    exact hhas

/-! ### The invariant -/

/-- The buffer, where there is one, is the contents; what is unsent is in it; and when nothing is
unsent, the Filer has everything. -/
structure SizedInv (s : SizedFile) : Prop where
  inline : s.st.file.layout.placement = .inline
  size : s.st.file.iSize = s.content.length
  buffer : ∀ buf, s.st.file.layout.inlineData = some buf → buf = s.content
  dirty : s.st.file.layout.inlineDirty = true →
    s.st.file.layout.inlineData = some s.content ∧ s.content ≠ []
  clean : s.st.file.layout.inlineDirty = false → FilerHas s

theorem SizeInit.inv (h : SizeInit s) : SizedInv s := by
  obtain ⟨hinline, hclean, hsize, hhas, hbuffer⟩ := h
  refine ⟨hinline, hsize, hbuffer, fun hdirty => ?_, fun _ => hhas⟩
  rw [hclean] at hdirty
  cases hdirty

theorem SizedInv.clean_of_none (h : SizedInv s) (hnone : s.st.file.layout.inlineData = none) :
    s.st.file.layout.inlineDirty = false := by
  cases hdirty : s.st.file.layout.inlineDirty with
  | false => rfl
  | true =>
    rw [(h.dirty hdirty).1] at hnone
    cases hnone

theorem SizedInv.sends (h : SizedInv s) : FsyncSends s := by
  apply fsyncSends_of h.size
  · intro hun
    rw [(h.dirty hun.1).1, Option.getD_some]
  · intro hun
    apply h.clean
    by_contra hdirty
    obtain ⟨hdata, hne⟩ := h.dirty (Bool.not_eq_false _ ▸ hdirty)
    apply hun
    refine ⟨Bool.not_eq_false _ ▸ hdirty, ?_⟩
    rw [hdata]
    exact hne

variable {s' : SizedFile}

/-- If an event leaves the buffer and the Filer's payload as they are, an fsync after it can only
be right if it also left the contents. -/
theorem SizedInv.content_eq (h : SizedInv s) (hsends : FsyncSends s')
    (hinline : s'.st.file.layout.placement = .inline)
    (haligned : s'.st.file.layoutAligned = true) (hsize : s'.st.file.iSize = s'.content.length)
    (hdata : ∀ buf, s'.st.file.layout.inlineData = some buf → buf = s.content)
    (hdirty : s.st.file.layout.inlineDirty = true → s'.st.file.layout.inlineDirty = true ∧
      s'.st.file.layout.inlineData = s.st.file.layout.inlineData)
    (hacked : s'.st.acked = s.st.acked) : s'.content = s.content := by
  obtain ⟨hunsent, hsent⟩ := (fsyncSends_iff hinline haligned hsize).mp hsends
  by_cases hun : Unsent s'
  · obtain ⟨payload, hpayload⟩ := hun.payload
    have hcontent := hunsent hun
    rw [hpayload] at hcontent
    rw [← hcontent]
    exact hdata payload hpayload
  · have hclean : s.st.file.layout.inlineDirty = false := by
      by_contra hno
      obtain ⟨hdirty', hdata'⟩ := hdirty (Bool.not_eq_false _ ▸ hno)
      obtain ⟨hbuf, hne⟩ := h.dirty (Bool.not_eq_false _ ▸ hno)
      refine hun ⟨hdirty', ?_⟩
      rw [hdata', hbuf]
      exact hne
    rw [← (hsent hun).2, hacked]
    exact (h.clean hclean).2

/-! ### The events -/

variable {e : SizeEvent}

theorem sizedExec_eq_some (h : sizedExec s e = some s') :
    withinLimit s e = true ∧ s'.st.file.layout.placement = .inline ∧ s' = sizedStep s e := by
  rw [sizedExec] at h
  split at h <;> cases h
  rename_i hguard
  exact ⟨hguard.1, hguard.2, rfl⟩

section

variable (h : SizedInv s)
include h

theorem SizedInv.publish {placementOut : Placement}
    (hs : sizedExec s (.publish placementOut) = some s') : SizedInv s' := by
  obtain ⟨-, hinline, rfl⟩ := sizedExec_eq_some hs
  obtain ⟨hdata, hdirty, hacked, -⟩ := publish_frame s.st (some placementOut)
  have hsize := (commits_publish hinline).size
  simp only [sizedStep] at hinline ⊢
  refine ⟨hinline, hsize.trans h.size, ?_, ?_, ?_⟩
  · rw [hdata]
    exact h.buffer
  · rw [hdata, hdirty]
    exact h.dirty
  · rw [hdirty, FilerHas, hsize, hacked]
    exact h.clean

theorem SizedInv.fsync {attr : Bool} {env : FsyncEnv}
    (hs : sizedExec s (.fsync attr env) = some s') : SizedInv s' := by
  obtain ⟨hcontent, hinline, hdata, hsize, heffect⟩ := fsyncEffect hs
  have hsize' : s'.st.file.iSize = s'.content.length := by rw [hsize, hcontent, h.size]
  have hbuffer : ∀ buf, s'.st.file.layout.inlineData = some buf → buf = s'.content := by
    rw [hdata, hcontent]
    exact h.buffer
  obtain ⟨hun, hclean, hacked, hfiler⟩ | ⟨hacked, hfiler, hflag, -⟩ := heffect
  · refine ⟨hinline, hsize', hbuffer, fun hdirty => ?_, fun _ => ?_⟩
    · rw [hclean] at hdirty
      cases hdirty
    · rw [FilerHas, hsize, hcontent, hacked, hfiler, InlineFile.inlineLen, (h.dirty hun.1).1,
        h.size]
      exact ⟨rfl, rfl⟩
  · have hhas : s.st.file.layout.inlineDirty = false → FilerHas s' := by
      intro hclean
      obtain ⟨hsame, hpayload⟩ := h.clean hclean
      rw [FilerHas, hsize, hcontent, hacked]
      refine ⟨?_, hpayload⟩
      obtain hfiler | hfiler := hfiler
      · exact hfiler.trans hsame
      · exact hfiler
    have hsame : s'.st.file.layout.inlineDirty = s.st.file.layout.inlineDirty := by
      obtain hflag | ⟨hclean, hun⟩ := hflag
      · exact hflag
      · rw [hclean]
        by_contra hne
        have hdirty : s.st.file.layout.inlineDirty = true := by
          simpa using Ne.symm hne
        obtain ⟨hbuf, hne⟩ := h.dirty hdirty
        exact hun ⟨hdirty, by rw [hbuf]; exact hne⟩
    refine ⟨hinline, hsize', hbuffer, ?_, ?_⟩
    · rw [hsame, hdata, hcontent]
      exact h.dirty
    · rw [hsame]
      exact hhas

theorem SizedInv.fallocate {offset len : Nat} (hs : sizedExec s (.fallocate offset len) = some s')
    (hok : SizeOk s (.fallocate offset len)) : SizedInv s' := by
  obtain ⟨-, -, rfl⟩ := sizedExec_eq_some hs
  have hle : offset + len ≤ s.st.file.iSize := hok
  have hsame : sizedStep s (.fallocate offset len) = s := by
    rw [sizedStep, fallocateDefault, fallocateFile, if_neg (Nat.not_lt.mpr hle),
      padTo_of_le (h.size ▸ hle)]
  rw [hsame]
  exact h

theorem SizedInv.fallocate_ok {offset len : Nat}
    (hs : sizedExec s (.fallocate offset len) = some s')
    (haligned : s'.st.file.layoutAligned = true) (hsends : FsyncSends s') :
    SizeOk s (.fallocate offset len) := by
  by_contra hok
  have hlt : s.st.file.iSize < offset + len := Nat.lt_of_not_le hok
  obtain ⟨-, hinline, rfl⟩ := sizedExec_eq_some hs
  have hfile : (sizedStep s (.fallocate offset len)).st.file =
      { s.st.file with
        iSize := offset + len
        layout := { s.st.file.layout with inlineDirty := true } } := by
    simp only [sizedStep, fallocateDefault, fallocateFile, if_pos hlt, h.inline, if_true]
  have hlen : (sizedStep s (.fallocate offset len)).content.length = offset + len := by
    have := h.size
    rw [sizedStep, fallocateDefault, length_padTo]
    omega
  have hcontent := h.content_eq hsends hinline haligned (by rw [hfile, hlen])
    (by rw [hfile]; exact h.buffer) (fun _ => by rw [hfile]; exact ⟨rfl, rfl⟩) rfl
  rw [hcontent, ← h.size] at hlen
  omega

theorem SizedInv.truncate_zero {env : TruncateEnv} (hs : sizedExec s (.truncate env 0) = some s') :
    s'.st.file.layout.inlineData = none ∧ s'.st.file.layout.inlineDirty = false ∧
      s'.st.file.iSize = 0 ∧ s'.content = [] ∧
      (FilerHas s' ↔ SizeOk s (.truncate env 0)) := by
  obtain ⟨-, -, rfl⟩ := sizedExec_eq_some hs
  obtain ⟨connected, setattr, update⟩ := env
  have hempty : resize 0 s.content = [] := List.take_zero
  simp only [sizedStep, setattrSize, truncateFile, h.inline, hempty, FilerHas, SizeOk]
  cases connected <;> cases setattr <;> cases update <;> simp

end

variable {n : Nat}

theorem setattrSize_pos (hn : n ≠ 0) (env : TruncateEnv) (s : SizedFile) :
    setattrSize env s n =
      { st := { s.st with file := truncateFile s.st.file n }
        filerSize := if env.connected ∧ env.setattr then n else s.filerSize
        content := resize n s.content } := by
  simp only [setattrSize, hn, false_and, if_false]
  split <;> rfl

theorem SizedInv.truncate (h : SizedInv s) {env : TruncateEnv}
    (hs : sizedExec s (.truncate env n) = some s') (hok : SizeOk s (.truncate env n)) :
    SizedInv s' := by
  by_cases hn : n = 0
  · subst hn
    obtain ⟨hdata, hclean, hsize, hcontent, hiff⟩ := h.truncate_zero hs
    refine ⟨(sizedExec_eq_some hs).2.1, by rw [hsize, hcontent]; rfl, ?_, ?_, fun _ => hiff.mpr hok⟩
    · rw [hdata]
      exact fun _ hbuf => nomatch hbuf
    · rw [hclean]
      exact fun hdirty => nomatch hdirty
  · obtain ⟨-, hinline, rfl⟩ := sizedExec_eq_some hs
    simp only [sizedStep, setattrSize_pos hn] at hinline ⊢
    rw [SizeOk, if_neg hn] at hok
    obtain rfl | ⟨hlt, hsome⟩ := hok
    · -- The size was this already.
      have hcontent : resize s.st.file.iSize s.content = s.content := by
        rw [h.size, resize_of_le (Nat.le_refl _), List.take_length]
      have hfile : truncateFile s.st.file s.st.file.iSize = s.st.file := by
        apply truncateFile_keep hn h.inline
        intro buf hbuf
        exact Nat.le_of_eq (by rw [h.buffer buf hbuf, h.size])
      rw [hfile, hcontent]
      refine ⟨h.inline, h.size, h.buffer, h.dirty, fun hclean => ⟨?_, (h.clean hclean).2⟩⟩
      split
      · rfl
      · exact (h.clean hclean).1
    · obtain ⟨buf, hbuf⟩ := Option.isSome_iff_exists.mp hsome
      obtain rfl := h.buffer buf hbuf
      rw [h.size] at hlt
      rw [truncateFile_cut hn h.inline hbuf hlt, resize_of_le (Nat.le_of_lt hlt)]
      have hlen : (s.content.take n).length = n := by
        rw [List.length_take, Nat.min_eq_left (Nat.le_of_lt hlt)]
      refine ⟨h.inline, hlen.symm, ?_, ?_, fun hdirty => nomatch hdirty⟩
      · rintro _ ⟨rfl⟩
        rfl
      · refine fun _ => ⟨rfl, ?_⟩
        rw [← List.length_pos_iff, hlen]
        exact Nat.pos_of_ne_zero hn

theorem SizedInv.truncate_ok (h : SizedInv s) {env : TruncateEnv}
    (hs : sizedExec s (.truncate env n) = some s')
    (haligned : s'.st.file.layoutAligned = true) (hsends : FsyncSends s') :
    SizeOk s (.truncate env n) := by
  by_cases hn : n = 0
  · subst hn
    obtain ⟨-, hclean, hsize, hcontent, hiff⟩ := h.truncate_zero hs
    have hsent := ((fsyncSends_iff (sizedExec_eq_some hs).2.1 haligned
      (by rw [hsize, hcontent]; rfl)).mp hsends).2
    apply hiff.mp
    apply hsent
    intro hun
    have hdirty := hun.1
    rw [hclean] at hdirty
    cases hdirty
  · rw [SizeOk, if_neg hn]
    by_contra hok
    obtain ⟨-, hinline, rfl⟩ := sizedExec_eq_some hs
    simp only [sizedStep, setattrSize_pos hn] at hinline haligned hsends
    -- Neither the buffer nor the Filer's payload changes, but the contents do.
    have hfile : truncateFile s.st.file n = { s.st.file with iSize := n } := by
      apply truncateFile_keep hn h.inline
      intro buf hbuf
      rw [h.buffer buf hbuf, ← h.size]
      by_contra hlt
      exact hok (.inr ⟨Nat.lt_of_not_le hlt, by rw [hbuf]; rfl⟩)
    rw [hfile] at hinline haligned hsends
    have hcontent : resize n s.content = s.content :=
      h.content_eq hsends hinline haligned (length_resize n s.content).symm h.buffer
        (fun hdirty => ⟨hdirty, rfl⟩) rfl
    have hlen := length_resize n s.content
    rw [hcontent, ← h.size] at hlen
    exact hok (.inl hlen.symm)

variable {bytes : List UInt8}

variable {env : StageEnv} {pos : Nat}

section

variable (h : SizedInv s)
include h

theorem SizedInv.oldData_eq (hwithin : withinLimit s (.write env pos bytes) = true) :
    ∀ buf, oldData env s.st.file = some buf → buf = s.content := by
  intro buf hold
  rw [oldData] at hold
  cases hdata : s.st.file.layout.inlineData with
  | some buf' =>
    rw [hdata] at hold
    cases hold
    exact h.buffer buf hdata
  | none =>
    -- The buffer was dropped, so the Filer has the contents.
    rw [hdata] at hold
    split at hold <;> cases hold
    rename_i hne
    simp only [withinLimit, Bool.and_eq_true, Bool.or_eq_true, decide_eq_true_eq] at hwithin
    rw [hwithin.1.2.resolve_left hne]
    exact (h.clean (h.clean_of_none hdata)).2

theorem SizedInv.write_staged (hs : sizedExec s (.write env pos bytes) = some s')
    (hbuffer : Fits s.st.file pos bytes ∨ env.alloc = true) :
    s'.content = writeAt s.content pos bytes ∧
      s'.st.file.iSize = s'.content.length ∧
      s'.st.file.layout.inlineData =
        some (writeAt ((oldData env s.st.file).getD []) pos bytes) ∧
      s'.st.file.layout.inlineDirty = true ∧ bytes ≠ [] := by
  obtain ⟨hwithin, -, rfl⟩ := sizedExec_eq_some hs
  simp only [withinLimit, Bool.and_eq_true, decide_eq_true_eq] at hwithin
  obtain ⟨⟨⟨hne, hlimit⟩, -⟩, -⟩ := hwithin
  have hfile := (@stageWrite_file env s.st.file pos bytes h.inline hne hlimit).1 hbuffer
  simp only [sizedStep, hfile]
  exact ⟨trivial, by rw [length_writeAt, h.size], trivial, trivial, hne⟩

section

variable (hs : sizedExec s (.write env pos bytes) = some s')
include hs

/-- Without memory for a new buffer a write changes the size and, for the reader, the contents. -/
theorem SizedInv.write_unstaged (hfits : ¬ Fits s.st.file pos bytes) (halloc : env.alloc = false) :
    s'.content = writeAt s.content pos bytes ∧ s'.st.file.iSize = s'.content.length ∧
      (∀ buf, s'.st.file.layout.inlineData = some buf → buf = s.content) ∧
      (s.st.file.layout.inlineDirty = true →
        s'.st.file.layout.inlineData = s.st.file.layout.inlineData) ∧
      s'.st.file.layout.inlineDirty = s.st.file.layout.inlineDirty ∧
      s'.st.acked = s.st.acked ∧ s'.filerSize = s.filerSize := by
  obtain ⟨hwithin, -, rfl⟩ := sizedExec_eq_some hs
  have hold := h.oldData_eq hwithin
  simp only [withinLimit, Bool.and_eq_true, decide_eq_true_eq] at hwithin
  obtain ⟨⟨⟨hne, hlimit⟩, -⟩, -⟩ := hwithin
  have hfile := (@stageWrite_file env s.st.file pos bytes h.inline hne hlimit).2 hfits halloc
  simp only [sizedStep, hfile]
  refine ⟨trivial, by rw [length_writeAt, h.size], hold, fun hdirty => ?_, trivial, trivial,
    trivial⟩
  rw [oldData, (h.dirty hdirty).1, Option.some_or]

theorem SizedInv.write (hok : SizeOk s (.write env pos bytes)) :
    SizedInv s' := by
  have hinline := (sizedExec_eq_some hs).2.1
  by_cases hbuffer : Fits s.st.file pos bytes ∨ env.alloc = true
  · obtain ⟨hcontent, hsize, hdata, hdirty, hne⟩ := h.write_staged hs hbuffer
    have hold : writeAt ((oldData env s.st.file).getD []) pos bytes =
        writeAt s.content pos bytes := by
      cases hcase : s.st.file.layout.inlineData with
      | some buf => rw [oldData, hcase, Option.some_or, Option.getD_some, h.buffer buf hcase]
      | none =>
        have hno : ¬ Fits s.st.file pos bytes := by
          intro hfits
          rw [Fits, hcase] at hfits
          cases hfits.1
        have hok := hok.resolve_left hno
        rw [if_pos (hbuffer.resolve_left hno), hcase] at hok
        rw [oldData_of_none hcase]
        exact hok.resolve_left Bool.false_ne_true
    rw [hold, ← hcontent] at hdata
    refine ⟨hinline, hsize, ?_, fun _ => ⟨hdata, ?_⟩, fun hclean => ?_⟩
    · rw [hdata]
      rintro _ ⟨rfl⟩
      rfl
    · rw [hcontent]
      exact writeAt_ne_nil s.content pos hne
    · rw [hdirty] at hclean
      cases hclean
  · obtain ⟨hfits, halloc⟩ := not_or.mp hbuffer
    have hok := hok.resolve_left hfits
    rw [if_neg halloc] at hok
    obtain ⟨hcontent, hsize, hdata, hkept, hflag, hacked, hfiler⟩ :=
      h.write_unstaged hs hfits (Bool.eq_false_iff.mpr halloc)
    rw [hok] at hcontent
    refine ⟨hinline, hsize, ?_, fun hdirty => ?_, fun hclean => ?_⟩
    · rw [hcontent]
      exact hdata
    · rw [hflag] at hdirty
      rw [hkept hdirty, hcontent]
      exact h.dirty hdirty
    · rw [hflag] at hclean
      obtain ⟨hsame, hpayload⟩ := h.clean hclean
      rw [FilerHas, hsize, hcontent, hacked, hfiler, hsame, h.size]
      exact ⟨rfl, hpayload⟩

theorem SizedInv.write_ok (haligned : s'.st.file.layoutAligned = true) (hsends : FsyncSends s') :
    SizeOk s (.write env pos bytes) := by
  have hinline := (sizedExec_eq_some hs).2.1
  by_cases hfits : Fits s.st.file pos bytes
  · exact .inl hfits
  · refine .inr ?_
    split
    case isTrue halloc =>
      obtain ⟨hcontent, hsize, hdata, hdirty, hne⟩ := h.write_staged hs (.inr halloc)
      cases hcase : s.st.file.layout.inlineData with
      | some buf => exact .inl rfl
      | none =>
        have hun : Unsent s' := by
          refine ⟨hdirty, ?_⟩
          rw [hdata]
          exact writeAt_ne_nil _ pos hne
        have hsent := ((fsyncSends_iff hinline haligned hsize).mp hsends).1 hun
        rw [hdata, hcontent, oldData_of_none hcase] at hsent
        exact .inr hsent
    case isFalse halloc =>
      obtain ⟨hcontent, hsize, hdata, hkept, hflag, hacked, -⟩ :=
        h.write_unstaged hs hfits (Bool.eq_false_iff.mpr halloc)
      rw [← hcontent]
      exact h.content_eq hsends hinline haligned hsize hdata
        (fun hdirty => ⟨hflag.trans hdirty, hkept hdirty⟩) hacked

end

theorem SizedInv.step (hok : SizeOk s e) (hs : sizedExec s e = some s') : SizedInv s' := by
  cases e with
  | publish placementOut => exact h.publish hs
  | write env pos bytes => exact h.write hs hok
  | truncate env n => exact h.truncate hs hok
  | fallocate offset len => exact h.fallocate hs hok
  | fsync attr env => exact h.fsync hs

theorem SizedInv.step_ok (hs : sizedExec s e = some s')
    (haligned : s'.st.file.layoutAligned = true) (hsends : FsyncSends s') : SizeOk s e := by
  cases e with
  | publish placementOut => trivial
  | write env pos bytes => exact h.write_ok hs haligned hsends
  | truncate env n => exact h.truncate_ok hs haligned hsends
  | fallocate offset len => exact h.fallocate_ok hs haligned hsends
  | fsync attr env => trivial

end

/-! ### Size and contents at fsync -/

/-- In a run that keeps the condition every fsync that returns 0 leaves the Filer with size and
contents of the file. The condition is exact for a confirmed placement. -/
theorem fsyncSends_of_sizeOk (s : SizedFile)
    (h : Runs.Reach (fun s e s' => sizedExec s e = some s') SizeOk SizeInit s) :
    FsyncSends s ∧ ∀ e s', sizedExec s e = some s' → s'.st.file.layoutAligned = true →
      (FsyncSends s' ↔ SizeOk s e) := by
  have hinv : SizedInv s :=
    h.invariant (fun _ hinit => hinit.inv) fun _ _ _ hinv hok hs => hinv.step hok hs
  refine ⟨hinv.sends, fun e s' hs haligned => ?_⟩
  exact ⟨hinv.step_ok hs haligned, fun hok => (hinv.step hok hs).sends⟩

def SizedFile.created : SizedFile := ⟨.created true, 0, []⟩

theorem sizeInit_created : SizeInit .created :=
  ⟨rfl, rfl, rfl, ⟨rfl, rfl⟩, fun _ h => nomatch h⟩

/-- The Filer takes everything. -/
def reachable : TruncateEnv := ⟨true, true, true⟩

def writtenRun : List SizeEvent := [.publish .inline, .write quietEnv 0 [1]]

/-- Two more bytes are written and one is cut off again. -/
def shortenedRun : List SizeEvent :=
  writtenRun ++ [SizeEvent.write quietEnv 1 [2, 3], .truncate reachable 2]

theorem fsyncSends_of_sizeOk_shortened :
    (∃ s s', shortenedRun.foldlM sizedExec .created = some s ∧
      sizedExec s (.fsync false (plainFsync refusedMigration)) = some s' ∧
      (fsyncSized false (plainFsync refusedMigration) s).1 = .ok () ∧
      s.st.file.iSize = 2 ∧ s.content = [1, 2] ∧ FilerHas s') ∧
    ∃ s s', writtenRun.foldlM sizedExec .created = some s ∧
      sizedExec s (.fallocate 0 4) = some s' ∧ ¬ FsyncSends s' := by
  have hwritten : ∀ es, (∀ s, writtenRun.foldlM sizedExec .created = some s →
      Runs.OkAlong sizedExec SizeOk s es) →
      Runs.OkAlong sizedExec SizeOk .created (writtenRun ++ es) := by
    intro es hes
    refine .cons trivial rfl (.cons ?_ rfl ?_)
    · exact .inr (.inr rfl)
    · exact hes _ rfl
  constructor
  · have hok : Runs.OkAlong sizedExec SizeOk .created shortenedRun := by
      apply hwritten
      rintro _ ⟨rfl⟩
      refine .cons ?_ rfl (.cons ?_ rfl trivial)
      · exact .inr (.inl rfl)
      · exact .inr ⟨by decide, rfl⟩
    refine ⟨_, _, rfl, rfl, rfl, rfl, rfl, ?_⟩
    exact (fsyncSends_of_sizeOk _ (.of_run (.start sizeInit_created) hok rfl)).1 false
      (plainFsync refusedMigration) _ rfl rfl
  · have hok : Runs.OkAlong sizedExec SizeOk .created writtenRun := hwritten [] fun _ _ => trivial
    refine ⟨_, _, rfl, rfl, fun hsends => ?_⟩
    have hle : 0 + 4 ≤ 1 := ((fsyncSends_of_sizeOk _ (.of_run (.start sizeInit_created) hok rfl)).2
      (.fallocate 0 4) _ rfl rfl).mp hsends
    exact absurd hle (by decide)

def extendedRun : List SizeEvent := writtenRun ++ [SizeEvent.truncate reachable 4]

theorem not_fsyncSends_extended :
    ∃ s s', Runs.Reach (fun s e s' => sizedExec s e = some s') (fun _ _ => True) SizeInit s ∧
      s.st.file.iSize = 4 ∧ s.content = [1, 0, 0, 0] ∧
      sizedExec s (.fsync false (plainFsync refusedMigration)) = some s' ∧
      (fsyncSized false (plainFsync refusedMigration) s).1 = .ok () ∧
      s'.filerSize = 1 ∧ s'.st.acked = some [1] ∧ ¬ FsyncSends s := by
  refine ⟨_, _, .of_run (.start sizeInit_created) (Runs.okAlong_true _ extendedRun) rfl,
    rfl, rfl, rfl, rfl, rfl, rfl, fun hsends => ?_⟩
  obtain ⟨hsize, -⟩ := hsends false (plainFsync refusedMigration) _ rfl rfl
  cases hsize

end PowerFS.Inline
