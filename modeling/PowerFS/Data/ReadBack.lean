import PowerFS.Data.DirectIo

namespace PowerFS.Data

open Layout

/-! Whether a direct write can be read back. -/

/-- After every direct write of `count` bytes at `pos` that returns `n > 0`, the range reads as
the bytes written, and every other byte below the old size that had a value still has it. -/
def ReadYourWrites (st : Needles) (pi : Inode) (size pos count : Nat) : Prop :=
  ∀ (env : DioEnv) (req : DioRequest) (n : Nat), req.bytes.length = count → 0 < n →
    (directWrite env ⟨st, pi, size⟩ pos req).1 = .ok n →
    let after := (directWrite env ⟨st, pi, size⟩ pos req).2
    FileBytes after.needles after.inode pos n (req.bytes.take n) ∧
      ∀ o < size, o < pos ∨ pos + n ≤ o → ∀ b, FileBytes st pi o 1 [b] →
        FileBytes after.needles after.inode o 1 [b]

/-- Byte `x` of the target survives the write: a needle sent without reading the old one keeps
only zeros behind its end, and a merged one everything but the data and the gap in front of
it. -/
def Keeps (st : Needles) (pi : Inode) (size pos count : Nat) (s : Source) (x : Nat) : Prop :=
  if dioWriteCanSkipRead size pos count then
    s.strict = false ∧ count ≤ x ∧ (st.content (dioTarget pi pos)).getD x 0 = 0
  else
    pos % chunkSize + count ≤ x ∨
      x < pos % chunkSize ∧ x < (st.content (dioTarget pi pos)).length

/-- Reads of `pos` come from the target, and nothing they need stands in the way. -/
def ComesBack (st : Needles) (pi : Inode) (pos : Nat) : Prop :=
  ∃ s, source pi pos = some s ∧ s.main = dioTarget pi pos ∧
    ∀ e ∈ s.needles, if e.1 = dioTarget pi pos then e.2 = 0 else s.Accepts st e

/-- The byte of `o`, if it has a value, does not depend on what the write changes. -/
def Undisturbed (st : Needles) (pi : Inode) (size pos count o : Nat) : Prop :=
  ∀ s, source pi o = some s → (∀ e ∈ s.needles, s.Accepts st e) →
    (s.strict = true → o % chunkSize < (st.content s.main).length) →
    ∀ e ∈ s.needles, e.1 = dioTarget pi pos →
      e.2 = 0 ∧ (s.main = dioTarget pi pos → Keeps st pi size pos count s (o % chunkSize))

/-- The layouts, sizes, positions and contents for which direct writes are read back. -/
def DioSound (st : Needles) (pi : Inode) (size pos count : Nat) : Prop :=
  ComesBack st pi pos ∧
    ∀ o < size, o < pos ∨ pos + count ≤ o → Undisturbed st pi size pos count o

theorem crc_eq_zero_of_accepts {c : UInt32} {front rest back : List UInt8}
    (h : ∀ b : UInt8, crcMismatch c (front ++ b :: rest ++ back) = false) : c = 0 := by
  by_contra hc
  have hcrc : ∀ b : UInt8, crc32 (front ++ b :: (rest ++ back)) = c := fun b => by
    have hb := h b
    simpa [crcMismatch, hc] using hb
  have heq := (hcrc 0).trans (hcrc 1).symm
  simp only [crc32, UInt32.ofBitVec.injEq] at heq
  exact Crc.run_ne_of_byte_ne (by decide) (by decide : crc32Poly.getLsbD 31 = true) _ front
    (rest ++ back) (by decide) ((BitVec.xor_left_inj _).mp heq)

variable {b : UInt8}

theorem Source.Value.unique {s : Source} {st : Needles} {x : Nat} {c : UInt8}
    (hb : s.Value st x b) (hc : s.Value st x c) : b = c := by
  rw [Source.Value] at hb hc
  split at hb
  · rename_i hstrict
    rw [if_pos hstrict, hb] at hc
    exact Option.some.inj hc
  · rename_i hstrict
    rw [if_neg hstrict, hb] at hc
    exact hc

variable {o : Nat}

theorem source_main_mem {pi : Inode} {s : Source} (h : source pi o = some s) :
    ∃ e ∈ s.needles, e.1 = s.main := by
  cases hec : readsEc pi with
  | false =>
    obtain ⟨p, -, rfl⟩ := (source_plain hec).mp h
    exact ⟨_, List.mem_singleton_self _, rfl⟩
  | true =>
    obtain ⟨hk, -, -, e, he, rfl⟩ := (source_ec hec).mp h
    refine ⟨((e.volumeId, e.needleId), e.crc32),
      List.mem_iff_getElem?.mpr ⟨o % ecGroupSize pi / chunkSize, ?_⟩, rfl⟩
    rw [dataShards_getElem? (ecSlot_lt hk), he]
    rfl

variable {e : (UInt64 × UInt64) × UInt32}

section Update

variable {s : Source} {st : Needles} {t : UInt64 × UInt64} {needle : Needle}

theorem Source.accepts_update_of_ne (h : e.1 ≠ t) :
    s.Accepts (Function.update st t (some needle)) e ↔ s.Accepts st e := by
  rw [Source.Accepts, Source.Accepts, Needles.content_update_of_ne st h, Function.update_of_ne h]

theorem Source.accepts_update_self (h : e.1 = t) :
    s.Accepts (Function.update st t (some needle)) e ↔ crcMismatch e.2 needle.val = false := by
  subst h
  simp [Source.Accepts, Needles.content_update_self]

theorem Source.value_update_of_ne {x : Nat} (h : s.main ≠ t) :
    s.Value (Function.update st t (some needle)) x b ↔ s.Value st x b := by
  rw [Source.Value, Source.Value, Needles.content_update_of_ne st h]

theorem Source.value_update_self {x : Nat} (h : s.main = t) :
    s.Value (Function.update st t (some needle)) x b ↔
      if s.strict then needle.val[x]? = some b else needle.val.getD x 0 = b := by
  subst h
  rw [Source.Value, Needles.content_update_self]

end Update

section Sent

variable {uninit : Nat → UInt8} {st : Needles} {pi : Inode} {size pos x : Nat}
  {data : List UInt8}

theorem sent_front_length : (dioFront (dioWriteCanSkipRead size pos data.length) uninit
    (st.content (dioTarget pi pos)) (pos % chunkSize)).length = pos % chunkSize :=
  dioFront_length _ _ fun h => (dioWriteCanSkipRead_fits h).1

theorem sentBytes_drop :
    ((sentBytes uninit st pi size pos data).drop (pos % chunkSize)).take data.length = data := by
  rw [sentBytes, List.append_assoc, List.drop_append, sent_front_length, Nat.sub_self,
    List.drop_of_length_le (by rw [sent_front_length]), List.nil_append, List.drop_zero,
    List.take_left']
  rfl

theorem sentBytes_length_ge :
    pos % chunkSize + data.length ≤ (sentBytes uninit st pi size pos data).length := by
  rw [sentBytes, List.length_append, List.length_append, sent_front_length]
  exact Nat.le_add_right _ _

theorem sentBytes_data (hlo : pos % chunkSize ≤ x) (hhi : x < pos % chunkSize + data.length) :
    (sentBytes uninit st pi size pos data)[x]? = data[x - pos % chunkSize]? := by
  rw [sentBytes, List.append_assoc,
    List.getElem?_append_right (by rw [sent_front_length]; exact hlo), sent_front_length,
    List.getElem?_append_left (by omega)]

theorem sentBytes_skip (h : dioWriteCanSkipRead size pos data.length = true) :
    sentBytes uninit st pi size pos data = data := by
  simp only [sentBytes, h, dioFront, dioBack, if_true, List.nil_append, List.append_nil]

theorem sentBytes_behind (h : dioWriteCanSkipRead size pos data.length = false)
    (hx : pos % chunkSize + data.length ≤ x) :
    (sentBytes uninit st pi size pos data)[x]? = (st.content (dioTarget pi pos))[x]? := by
  have hlen := @sent_front_length uninit st pi size pos data
  rw [sentBytes, List.getElem?_append_right (by rw [List.length_append, hlen]; exact hx),
    List.length_append, hlen, h, dioBack, if_neg Bool.false_ne_true, List.getElem?_drop]
  congr 1
  omega

theorem sentBytes_before (h : dioWriteCanSkipRead size pos data.length = false)
    (hx : x < pos % chunkSize) : (sentBytes uninit st pi size pos data)[x]? =
      some ((st.content (dioTarget pi pos)).getD x (uninit x)) := by
  have hlen := @sent_front_length uninit st pi size pos data
  rw [sentBytes, List.append_assoc, List.getElem?_append_left (by rw [hlen]; exact hx), h, dioFront,
    if_neg Bool.false_ne_true, List.getD_eq_getElem?_getD]
  by_cases hold : x < (st.content (dioTarget pi pos)).length
  · rw [List.getElem?_append_left (by rw [List.length_take]; omega), List.getElem?_take_of_lt hx,
      List.getElem?_eq_getElem hold]
    rfl
  · have hmin : min (pos % chunkSize) (st.content (dioTarget pi pos)).length
        = (st.content (dioTarget pi pos)).length := by omega
    rw [List.getElem?_append_right (by rw [List.length_take]; omega), List.length_take,
      List.getElem?_map, List.getElem?_range' (by omega), List.getElem?_eq_none (by omega)]
    simp only [Option.map_some, Option.some.injEq]
    congr 1
    omega

end Sent

section Sufficient

variable {uninit : Nat → UInt8} {st : Needles} {pi : Inode} {size pos : Nat}
  {data : List UInt8} {needle : Needle}

theorem fileBytes_of_comesBack (h : ComesBack st pi pos) (hn : 0 < data.length)
    (hneedle : needle.val = sentBytes uninit st pi size pos data) :
    FileBytes (Function.update st (dioTarget pi pos) (some needle)) pi pos data.length data := by
  obtain ⟨s, hs, hmain, hneedles⟩ := h
  have hcontent : Needles.content (Function.update st (dioTarget pi pos) (some needle)) s.main
      = sentBytes uninit st pi size pos data := by
    rw [hmain, Needles.content_update_self, hneedle]
  have hread := @fileBytes_of_source (Function.update st (dioTarget pi pos) (some needle)) pi pos
    data.length s hs ?_ hn ?_
  · rwa [hcontent, sentBytes_drop] at hread
  · intro e he
    have hentry := hneedles e he
    split at hentry
    · next htarget =>
      rw [Source.accepts_update_self htarget, hentry]
      exact crcMismatch_zero _
    · next htarget => exact (Source.accepts_update_of_ne htarget).mpr hentry
  · rw [hcontent]
    exact sentBytes_length_ge

theorem fileBytes_of_undisturbed (h : Undisturbed st pi size pos data.length o)
    (hneedle : needle.val = sentBytes uninit st pi size pos data)
    (hbefore : FileBytes st pi o 1 [b]) :
    FileBytes (Function.update st (dioTarget pi pos) (some needle)) pi o 1 [b] := by
  obtain ⟨s, hs, hacc, hval⟩ := fileBytes_one_iff.mp hbefore
  have hrange : s.strict = true → o % chunkSize < (st.content s.main).length := by
    intro hstrict
    rw [Source.Value, if_pos hstrict] at hval
    exact (List.getElem?_eq_some_iff.mp hval).1
  have hkept := h s hs hacc hrange
  refine fileBytes_one_iff.mpr ⟨s, hs, ?_, ?_⟩
  · intro e he
    by_cases htarget : e.1 = dioTarget pi pos
    · rw [Source.accepts_update_self htarget, (hkept e he htarget).1]
      exact crcMismatch_zero _
    · exact (Source.accepts_update_of_ne htarget).mpr (hacc e he)
  · by_cases hmain : s.main = dioTarget pi pos
    · obtain ⟨e, he, hemain⟩ := source_main_mem hs
      have hkeeps := (hkept e he (hemain.trans hmain)).2 hmain
      rw [Source.value_update_self hmain, hneedle]
      rw [Source.Value, hmain] at hval
      rw [Keeps] at hkeeps
      split at hkeeps
      · next hskip =>
        obtain ⟨hstrict, hcount, hzero⟩ := hkeeps
        rw [hstrict] at hval ⊢
        rw [sentBytes_skip hskip, ← hval, hzero, List.getD_eq_getElem?_getD,
          List.getElem?_eq_none hcount]
        rfl
      · next hskip =>
        rw [Bool.not_eq_true] at hskip
        have hsame : (sentBytes uninit st pi size pos data)[o % chunkSize]?
            = (st.content (dioTarget pi pos))[o % chunkSize]? := by
          rcases hkeeps with hbehind | ⟨hfront, hold⟩
          · exact sentBytes_behind hskip hbehind
          · rw [sentBytes_before hskip hfront, List.getD_eq_getElem?_getD,
              List.getElem?_eq_getElem hold]
            rfl
        rwa [List.getD_eq_getElem?_getD, hsame]
    · exact (Source.value_update_of_ne hmain).mpr hval

theorem readYourWrites_of_sound {count : Nat} (hmap : hasMapping pi = true)
    (h : Writable pi size pos count → DioSound st pi size pos count) :
    ReadYourWrites st pi size pos count := by
  intro env req n hcount hn hret
  obtain ⟨rfl, hthrough, hinode⟩ := directWrite_ok (s := ⟨st, pi, size⟩) hmap hn hret
  obtain ⟨-, hwritable, needle, hneedle, hst⟩ := writeThrough_ok hthrough
  subst hcount
  obtain ⟨hback, hothers⟩ := h (hwritable (by omega))
  simp only
  rw [hinode, hst, List.take_length]
  exact ⟨fileBytes_of_comesBack hback hn hneedle, fun o ho hout b hb =>
    fileBytes_of_undisturbed (hothers o ho hout) hneedle hb⟩

end Sufficient

section Necessary

variable {st : Needles} {pi : Inode} {size pos count : Nat}

theorem ReadYourWrites.after (h : ReadYourWrites st pi size pos count)
    (hmap : hasMapping pi = true) (hw : Writable pi size pos count) (uninit : Nat → UInt8)
    {data : List UInt8} (hdata : data.length = count) :
    ∃ needle : Needle, needle.val = sentBytes uninit st pi size pos data ∧
      FileBytes (Function.update st (dioTarget pi pos) (some needle)) pi pos count data ∧
      ∀ o < size, o < pos ∨ pos + count ≤ o → ∀ b, FileBytes st pi o 1 [b] →
        FileBytes (Function.update st (dioTarget pi pos) (some needle)) pi o 1 [b] := by
  subst hdata
  obtain ⟨st', hthrough⟩ := @writeThrough_calm st pi size pos data uninit hw
  have hwrite := directWrite_calm (s := ⟨st, pi, size⟩) hmap hw.1 hthrough
  obtain ⟨-, -, needle, hneedle, rfl⟩ := writeThrough_ok hthrough
  have hread := h (.calm uninit) (.sync data) data.length rfl hw.1 (by rw [hwrite])
  rw [hwrite] at hread
  simp only [DioRequest.bytes, List.take_length] at hread
  exact ⟨needle, hneedle, hread⟩

/-- A needle that is accepted after every write either is not the target or has no recorded
check value. -/
theorem crc_eq_zero_of_writes {s : Source} (hn : 0 < count) (htarget : e.1 = dioTarget pi pos)
    (h : ∀ data : List UInt8, data.length = count → ∃ needle : Needle,
      needle.val = sentBytes (fun _ => 0) st pi size pos data ∧
      s.Accepts (Function.update st (dioTarget pi pos) (some needle)) e) : e.2 = 0 := by
  have hlen : ∀ b : UInt8, (b :: List.replicate (count - 1) 0).length = count := fun b => by
    rw [List.length_cons, List.length_replicate]
    omega
  have hall : ∀ b : UInt8, crcMismatch e.2 (dioFront (dioWriteCanSkipRead size pos count)
      (fun _ => 0) (st.content (dioTarget pi pos)) (pos % chunkSize) ++
      b :: List.replicate (count - 1) 0 ++ dioBack (dioWriteCanSkipRead size pos count)
        (st.content (dioTarget pi pos)) (pos % chunkSize + count)) = false := by
    intro b
    obtain ⟨needle, hneedle, hacc⟩ := h _ (hlen b)
    rw [Source.accepts_update_self htarget, hneedle, sentBytes, hlen b] at hacc
    exact hacc
  exact crc_eq_zero_of_accepts hall

theorem ReadYourWrites.comesBack (h : ReadYourWrites st pi size pos count)
    (hmap : hasMapping pi = true) (hw : Writable pi size pos count) : ComesBack st pi pos := by
  -- what a read of the first byte finds after the write of `data`
  have hfirst : ∀ data : List UInt8, data.length = count → ∀ b ∈ data.head?,
      ∃ needle : Needle, needle.val = sentBytes (fun _ => 0) st pi size pos data ∧
        ∃ s, source pi pos = some s ∧
          (∀ e ∈ s.needles,
            s.Accepts (Function.update st (dioTarget pi pos) (some needle)) e) ∧
          s.Value (Function.update st (dioTarget pi pos) (some needle)) (pos % chunkSize) b := by
    intro data hdata b hb
    obtain ⟨needle, hneedle, hread, -⟩ := h.after hmap hw (fun _ => 0) hdata
    obtain ⟨rest, rfl⟩ : ∃ rest, data = b :: rest := List.head?_eq_some_iff.mp hb
    exact ⟨needle, hneedle, fileBytes_one_iff.mp (hread.head hw.1)⟩
  have hlen : ∀ b : UInt8, (List.replicate count b).length = count := fun b =>
    List.length_replicate
  have hhead : ∀ b : UInt8, b ∈ (List.replicate count b).head? := fun b => by
    rw [List.head?_replicate, if_neg (by have := hw.1; omega)]
    rfl
  obtain ⟨needle0, -, s, hs, -, hval0⟩ := hfirst _ (hlen 0) 0 (hhead 0)
  obtain ⟨needle1, -, s1, hs1, -, hval1⟩ := hfirst _ (hlen 1) 1 (hhead 1)
  cases hs.symm.trans hs1
  have hall : ∀ e ∈ s.needles, ∀ data : List UInt8, data.length = count → ∃ needle : Needle,
      needle.val = sentBytes (fun _ => 0) st pi size pos data ∧
      s.Accepts (Function.update st (dioTarget pi pos) (some needle)) e := by
    intro e he data hdata
    obtain ⟨b, rest, rfl⟩ : ∃ b rest, data = b :: rest :=
      List.exists_cons_of_length_pos (by have := hw.1; omega)
    obtain ⟨needle, hneedle, s', hs', hacc, -⟩ := hfirst _ hdata b rfl
    cases hs.symm.trans hs'
    exact ⟨needle, hneedle, hacc e he⟩
  refine ⟨s, hs, ?_, ?_⟩
  · -- another needle would give the same byte after both writes
    by_contra hmain
    have h0 := (Source.value_update_of_ne hmain).mp hval0
    have h1 := (Source.value_update_of_ne hmain).mp hval1
    exact absurd (h0.unique h1) (by decide)
  · intro e he
    split
    · next htarget => exact crc_eq_zero_of_writes hw.1 htarget (hall e he)
    · next htarget =>
      obtain ⟨needle, -, hacc⟩ := hall e he _ (hlen 0)
      exact (Source.accepts_update_of_ne htarget).mp hacc

/-- A byte of the target that is sent as `b` whatever the data and the fresh memory are lies
where the write keeps it. -/
theorem keeps_of_sent {s : Source} {x : Nat} (hb : (st.content (dioTarget pi pos)).getD x 0 = b)
    (hsent : ∀ (uninit : Nat → UInt8) (data : List UInt8), data.length = count →
      if s.strict then (sentBytes uninit st pi size pos data)[x]? = some b
      else (sentBytes uninit st pi size pos data).getD x 0 = b) :
    Keeps st pi size pos count s x := by
  have hlen : ∀ c : UInt8, (List.replicate count c).length = count := fun c =>
    List.length_replicate
  have hfixed : ∀ (uninit : Nat → UInt8) (data : List UInt8), data.length = count → ∀ c,
      (sentBytes uninit st pi size pos data)[x]? = some c → c = b := by
    intro uninit data hdata c hc
    have hthis := hsent uninit data hdata
    rw [List.getD_eq_getElem?_getD, hc] at hthis
    split at hthis
    · exact Option.some.inj hthis
    · exact hthis
  have hnotdata : ¬(pos % chunkSize ≤ x ∧ x < pos % chunkSize + count) := by
    rintro ⟨hlo, hhi⟩
    have hc : ∀ c : UInt8, c = b := fun c => by
      refine hfixed (fun _ => 0) (List.replicate count c) (hlen c) c ?_
      rw [sentBytes_data hlo (by rw [hlen]; exact hhi), List.getElem?_replicate,
        if_pos (by omega)]
    exact absurd ((hc 0).trans (hc 1).symm) (by decide)
  rw [Keeps]
  split
  · next hskip =>
    have hzero := (dioWriteCanSkipRead_fits hskip).1
    have hbehind : count ≤ x := by omega
    have hthis := hsent (fun _ => 0) _ (hlen 0)
    rw [sentBytes_skip (by rw [hlen]; exact hskip), List.getD_eq_getElem?_getD,
      List.getElem?_eq_none (by rw [hlen]; exact hbehind)] at hthis
    split at hthis
    · cases hthis
    · next hstrict => exact ⟨Bool.eq_false_iff.mpr hstrict, hbehind, hb.trans hthis.symm⟩
  · next hskip =>
    rw [Bool.not_eq_true] at hskip
    by_cases hbehind : pos % chunkSize + count ≤ x
    · exact .inl hbehind
    · have hfront : x < pos % chunkSize := by omega
      refine .inr ⟨hfront, ?_⟩
      -- the gap in front of the data is filled from fresh memory
      by_contra hgap
      have hc : ∀ c : UInt8, c = b := fun c => by
        refine hfixed (fun _ => c) (List.replicate count 0) (hlen 0) c ?_
        rw [sentBytes_before (by rw [hlen]; exact hskip) hfront, List.getD_eq_getElem?_getD,
          List.getElem?_eq_none (by omega)]
        rfl
      exact absurd ((hc 0).trans (hc 1).symm) (by decide)

theorem ReadYourWrites.undisturbed (h : ReadYourWrites st pi size pos count)
    (hmap : hasMapping pi = true) (hw : Writable pi size pos count) (ho : o < size)
    (hout : o < pos ∨ pos + count ≤ o) : Undisturbed st pi size pos count o := by
  intro s hs hacc hrange e he htarget
  -- the value of the byte before the write
  set b := (st.content s.main).getD (o % chunkSize) 0 with hb
  have hval : s.Value st (o % chunkSize) b := by
    rw [Source.Value]
    split
    · next hstrict =>
      rw [hb, List.getD_eq_getElem?_getD, List.getElem?_eq_getElem (hrange hstrict)]
      rfl
    · rfl
  have hbefore := fileBytes_one_iff.mpr ⟨s, hs, hacc, hval⟩
  have hafter : ∀ (uninit : Nat → UInt8) (data : List UInt8), data.length = count →
      ∃ needle : Needle, needle.val = sentBytes uninit st pi size pos data ∧
        (∀ e ∈ s.needles, s.Accepts (Function.update st (dioTarget pi pos) (some needle)) e) ∧
        s.Value (Function.update st (dioTarget pi pos) (some needle)) (o % chunkSize) b := by
    intro uninit data hdata
    obtain ⟨needle, hneedle, -, hothers⟩ := h.after hmap hw uninit hdata
    obtain ⟨s', hs', hacc', hval'⟩ := fileBytes_one_iff.mp (hothers o ho hout b hbefore)
    cases hs.symm.trans hs'
    exact ⟨needle, hneedle, hacc', hval'⟩
  have haccepts : ∀ data : List UInt8, data.length = count → ∃ needle : Needle,
      needle.val = sentBytes (fun _ => 0) st pi size pos data ∧
      s.Accepts (Function.update st (dioTarget pi pos) (some needle)) e := by
    intro data hdata
    obtain ⟨needle, hneedle, hacc', -⟩ := hafter _ data hdata
    exact ⟨needle, hneedle, hacc' e he⟩
  refine ⟨crc_eq_zero_of_writes hw.1 htarget haccepts, fun hmain => ?_⟩
  have hold : (st.content (dioTarget pi pos)).getD (o % chunkSize) 0 = b := by rw [hb, hmain]
  refine keeps_of_sent hold fun uninit data hdata => ?_
  obtain ⟨needle, hneedle, -, hval'⟩ := hafter uninit data hdata
  rwa [Source.value_update_self hmain, hneedle] at hval'

end Necessary

/-- Direct writes are read back exactly where the condition holds. -/
theorem readYourWrites_iff (st : Needles) (pi : Inode) (size pos count : Nat)
    (hmap : hasMapping pi = true) :
    ReadYourWrites st pi size pos count ↔
      (Writable pi size pos count → DioSound st pi size pos count) := by
  constructor
  · intro h hw
    exact ⟨h.comesBack hmap hw, fun o ho hout => h.undisturbed hmap hw ho hout⟩
  · exact readYourWrites_of_sound hmap

/-- A Flat file whose chunk list says that chunk 0 is needle 500 of volume 2. -/
def listedInode : Inode :=
  { Inode.fresh with
    placement := .flat
    volumeId := 1
    fileKey := 100
    chunks := some ⟨[⟨0, 500, 2, 0, 0⟩], by decide⟩ }

theorem readYourWrites_iff_listedInode :
    hasMapping listedInode = true ∧
      (ReadYourWrites (fun _ => none) listedInode 0 0 1 ↔
        (Writable listedInode 0 0 1 → DioSound (fun _ => none) listedInode 0 0 1)) :=
  ⟨by decide, readYourWrites_iff _ listedInode 0 0 1 (by decide)⟩

/-- One byte written to the start of that file goes to needle 100 of volume 1, and is read from
needle 500 of volume 2. -/
theorem not_readYourWrites_listed :
    ¬∀ (st : Needles) (pi : Inode) (size pos count : Nat), hasMapping pi = true →
      ReadYourWrites st pi size pos count := by
  intro h
  have hryw := h (fun _ => none) listedInode 0 0 1 (by decide)
  obtain ⟨s, hs, hmain, -⟩ := hryw.comesBack (by decide) ⟨Nat.one_pos, .inl (by decide)⟩
  have hsource : source listedInode 0 = some ⟨[((2, 500), 0)], (2, 500), false⟩ := by
    rw [source_plain (by decide)]
    exact ⟨_, by decide, rfl⟩
  cases hsource.symm.trans hs
  exact absurd hmain (by decide)

end PowerFS.Data
