import PowerFS.Caps.Lease
import Mathlib.Data.List.Basic
import Mathlib.Data.List.Induction

namespace PowerFS.Caps

/-! The messages of the Filer about one capability, in the order in which the client gets to
process them. -/

inductive CapMessage where
  | grant (reply : GrantReply)
  | upgrade (caps : UInt8) (epoch sn : UInt64)
  | recallNotify (retain : UInt8) (epoch : UInt64)

namespace CapMessage

/-- The stamp of the Filer. -/
def epoch : CapMessage → UInt64
  | .grant reply => reply.epoch
  | .upgrade _ epoch _ => epoch
  | .recallNotify _ epoch => epoch

def bits : CapMessage → CapMask
  | .grant reply => wireCapsetToKernelBits reply.caps
  | .upgrade caps _ _ => wireCapsetToKernelBits caps
  | .recallNotify retain _ => wireCapsetToKernelBits retain

def isRecall : CapMessage → Bool
  | .recallNotify _ _ => true
  | _ => false

/-- A grant or upgrade that names bit `b`. -/
def Gives (m : CapMessage) (b : Nat) : Prop := m.isRecall = false ∧ m.bits.getLsbD b = true

/-- Not a recall that takes bit `b` away. -/
def Keeps (m : CapMessage) (b : Nat) : Prop := m.isRecall = true → m.bits.getLsbD b = true

end CapMessage

section Process

variable (lease : Nat) (toJiffies : Nat → Nat)

/-- The processing of a message at a time: by the thread that waits for the reply, or by
`powerfs_cap_notify_work_func`. -/
def process (cap : Cap) (m : Nat × CapMessage) : Cap :=
  match m.2 with
  | .grant reply => applyReply lease toJiffies m.1 cap reply
  | .upgrade caps epoch sn => capUpgrade lease m.1 cap caps epoch sn
  | .recallNotify retain epoch => capRecall cap retain epoch

def processAll (cap : Cap) (msgs : List (Nat × CapMessage)) : Cap :=
  msgs.foldl (process lease toJiffies) cap

variable {lease toJiffies} {cap : Cap}

@[simp] theorem process_epoch (m : Nat × CapMessage) :
    (process lease toJiffies cap m).epoch = m.2.epoch := by
  rcases m with ⟨now, reply | ⟨caps, epoch, sn⟩ | ⟨retain, epoch⟩⟩ <;> rfl

theorem process_issued (m : Nat × CapMessage) : (process lease toJiffies cap m).issued =
    if m.2.isRecall then cap.issued &&& ~~~(cap.issued &&& ~~~m.2.bits)
    else cap.issued ||| m.2.bits := by
  rcases m with ⟨now, reply | ⟨caps, epoch, sn⟩ | ⟨retain, epoch⟩⟩ <;> rfl

theorem process_getLsbD (m : Nat × CapMessage) (b : Nat) :
    (process lease toJiffies cap m).issued.getLsbD b = true ↔
      m.2.Gives b ∨ cap.issued.getLsbD b = true ∧ m.2.Keeps b := by
  rw [process_issued, CapMessage.Gives, CapMessage.Keeps]
  cases m.2.isRecall with
  | true =>
    have hlt : cap.issued.getLsbD b = true → b < 32 := fun h => BitVec.lt_of_getLsbD h
    grind
  | false =>
    grind

@[simp] theorem processAll_nil : processAll lease toJiffies cap [] = cap := rfl

theorem processAll_concat (msgs : List (Nat × CapMessage)) (m : Nat × CapMessage) :
    processAll lease toJiffies cap (msgs ++ [m])
      = process lease toJiffies (processAll lease toJiffies cap msgs) m := by
  rw [processAll, List.foldl_append]
  rfl

/-- Some message gave bit `b` and no later recall took it away, or it was there before. -/
def Survives (cap : Cap) (msgs : List (Nat × CapMessage)) (b : Nat) : Prop :=
  (∃ front m back, msgs = front ++ m :: back ∧ m.2.Gives b ∧ ∀ m' ∈ back, m'.2.Keeps b) ∨
    cap.issued.getLsbD b = true ∧ ∀ m ∈ msgs, m.2.Keeps b

theorem survives_concat (msgs : List (Nat × CapMessage)) (m : Nat × CapMessage) (b : Nat) :
    Survives cap (msgs ++ [m]) b ↔ m.2.Gives b ∨ Survives cap msgs b ∧ m.2.Keeps b := by
  constructor
  · rintro (⟨front, g, back, hsplit, hgives, hkeeps⟩ | ⟨hissued, hkeeps⟩)
    · rcases List.eq_nil_or_concat' back with rfl | ⟨init, last, rfl⟩
      · obtain ⟨-, hlast⟩ := List.append_inj' hsplit rfl
        cases hlast
        exact .inl hgives
      · rw [← List.cons_append, ← List.append_assoc] at hsplit
        obtain ⟨hinit, hlast⟩ := List.append_inj' hsplit rfl
        cases hlast
        exact .inr ⟨.inl ⟨front, g, init, hinit, hgives,
          fun m' hm' => hkeeps m' (List.mem_append_left _ hm')⟩, hkeeps m (by simp)⟩
    · exact .inr ⟨.inr ⟨hissued, fun m' hm' => hkeeps m' (List.mem_append_left _ hm')⟩,
        hkeeps m (by simp)⟩
  · rintro (hgives | ⟨⟨front, g, back, rfl, hgives, hkeeps⟩ | ⟨hissued, hkeeps⟩, hm⟩)
    · exact .inl ⟨msgs, m, [], rfl, hgives, by simp⟩
    · refine .inl ⟨front, g, back ++ [m], by simp, hgives, fun m' hm' => ?_⟩
      rcases List.mem_append.mp hm' with h | h
      · exact hkeeps m' h
      · rw [List.mem_singleton.mp h]
        exact hm
    · refine .inr ⟨hissued, fun m' hm' => ?_⟩
      rcases List.mem_append.mp hm' with h | h
      · exact hkeeps m' h
      · rw [List.mem_singleton.mp h]
        exact hm

theorem processAll_issued (msgs : List (Nat × CapMessage)) (b : Nat) :
    (processAll lease toJiffies cap msgs).issued.getLsbD b = true ↔ Survives cap msgs b := by
  induction msgs using List.reverseRecOn with
  | nil => simp [Survives]
  | append_singleton msgs m ih =>
    rw [processAll_concat, process_getLsbD, survives_concat, ih]

end Process

/-- In the order of their epochs every message raises the epoch to its own, and the issued bits are
those given (or there) and not taken away later; a bit taken away comes back only by a message with
a larger epoch. -/
theorem processAll_inOrder (lease : Nat) (toJiffies : Nat → Nat) (cap : Cap)
    (msgs : List (Nat × CapMessage)) (hnew : ∀ m ∈ msgs, cap.epoch < m.2.epoch)
    (horder : msgs.Pairwise fun m m' => m.2.epoch < m'.2.epoch) :
    (∀ front m back, msgs = front ++ m :: back →
      (processAll lease toJiffies cap front).epoch < m.2.epoch ∧
      (processAll lease toJiffies cap (front ++ [m])).epoch = m.2.epoch) ∧
    (∀ b, (processAll lease toJiffies cap msgs).issued.getLsbD b = true ↔ Survives cap msgs b) ∧
    ∀ m ∈ msgs, ∀ b, ¬m.2.Keeps b →
      (processAll lease toJiffies cap msgs).issued.getLsbD b = true →
      ∃ m' ∈ msgs, m.2.epoch < m'.2.epoch ∧ m'.2.Gives b := by
  refine ⟨?_, processAll_issued msgs, ?_⟩
  · rintro front m back rfl
    refine ⟨?_, by rw [processAll_concat, process_epoch]⟩
    rcases List.eq_nil_or_concat' front with rfl | ⟨init, last, rfl⟩
    · exact hnew m (by simp)
    · rw [processAll_concat, process_epoch]
      exact (List.pairwise_append.mp horder).2.2 last (by simp) m (by simp)
  · intro m hm b hkeeps hissued
    rcases (processAll_issued msgs b).mp hissued with
      ⟨front, g, back, rfl, hgives, hlater⟩ | ⟨-, hall⟩
    · refine ⟨g, by simp, ?_, hgives⟩
      -- the recall is neither after `g` nor `g` itself
      rcases List.mem_append.mp hm with hfront | hrest
      · exact (List.pairwise_append.mp horder).2.2 m hfront g (by simp)
      · rcases List.mem_cons.mp hrest with rfl | hback
        · exact absurd (fun hrecall => by rw [hgives.1] at hrecall; cases hrecall) hkeeps
        · exact absurd (hlater m hback) hkeeps
    · exact absurd (hall m hm) hkeeps

/-- A grant of write caching and then, with a larger epoch, one of read caching. -/
def writeThenRead : List (Nat × CapMessage) :=
  [(0, .grant ⟨[1], 2, 1, 1, 0⟩), (10, .grant ⟨[1], 1, 2, 2, 0⟩)]

theorem processAll_inOrder_writeThenRead :
    ((∀ m ∈ writeThenRead, Cap.fresh.epoch < m.2.epoch) ∧
      writeThenRead.Pairwise fun m m' => m.2.epoch < m'.2.epoch) ∧
    (∀ front m back, writeThenRead = front ++ m :: back →
      (processAll 30 id .fresh front).epoch < m.2.epoch ∧
      (processAll 30 id .fresh (front ++ [m])).epoch = m.2.epoch) ∧
    (∀ b, (processAll 30 id .fresh writeThenRead).issued.getLsbD b = true ↔
      Survives .fresh writeThenRead b) ∧
    ∀ m ∈ writeThenRead, ∀ b, ¬m.2.Keeps b →
      (processAll 30 id .fresh writeThenRead).issued.getLsbD b = true →
      ∃ m' ∈ writeThenRead, m.2.epoch < m'.2.epoch ∧ m'.2.Gives b :=
  have hnew : ∀ m ∈ writeThenRead, Cap.fresh.epoch < m.2.epoch := by
    decide
  have horder : writeThenRead.Pairwise fun m m' => m.2.epoch < m'.2.epoch := by
    simp only [writeThenRead]
    simp [CapMessage.epoch]
  ⟨⟨hnew, horder⟩, processAll_inOrder 30 id .fresh writeThenRead hnew horder⟩

/-- The newer grant names the read bits only, and the write bit stays issued. -/
theorem not_newest_message_decides :
    ¬∀ (lease : Nat) (toJiffies : Nat → Nat) (cap : Cap) (msgs : List (Nat × CapMessage)),
      (∀ m ∈ msgs, cap.epoch < m.2.epoch) → (msgs.map fun m => m.2.epoch).Nodup →
      (∀ front m back, msgs = front ++ m :: back →
        (processAll lease toJiffies cap front).epoch
          ≤ (processAll lease toJiffies cap (front ++ [m])).epoch) ∧
      ∀ m ∈ msgs, (∀ m' ∈ msgs, m'.2.epoch ≤ m.2.epoch) →
        (processAll lease toJiffies cap msgs).issued = m.2.bits := by
  intro h
  have hnew : ∀ m ∈ writeThenRead, Cap.fresh.epoch < m.2.epoch := by
    decide
  have hbits := (h 30 id .fresh writeThenRead hnew (by decide)).2
    (10, .grant ⟨[1], 1, 2, 2, 0⟩) (by simp [writeThenRead])
    (by simp only [writeThenRead]; decide)
  exact absurd hbits (by decide)

end PowerFS.Caps
