import PowerFS.Dir.Entries

namespace PowerFS.Dir

/-! What the calls of `powerfs_readdir` return from the cached entries while the lease is valid. The
position of a reader counts the two dots and then all entries of the list, deleted ones included. -/

/-- `d_type`. -/
inductive DType where
  | reg
  | dir
  | lnk
  | unknown
  deriving DecidableEq

/-- The `switch` over the type of an entry. -/
def dType (type : UInt32) : DType :=
  if type = 0o100000 then .reg
  else if type = 0o040000 then .dir
  else if type = 0o120000 then .lnk
  else .unknown

/-- What `dir_emit` hands to the user. -/
inductive Emitted where
  | dot
  | dotdot
  | entry (name : FileName) (ino : UInt64) (type : DType)
  deriving DecidableEq

def dirent (e : DirEntry) : Emitted := .entry e.name e.ino (dType e.type)

/-- `dir_context` with the buffer of the user: the room left in it, what was put into it, and
whether something did not fit. -/
structure DirContext where
  pos : Int
  room : Nat
  out : List Emitted
  full : Bool

/-- Entries that a call copies at most. -/
def readdirMax : Nat := 256

section Code

variable (reclen : Emitted → Nat)

/-- `dir_emit`; `reclen` is the room that an item takes in the buffer of the user. -/
def DirContext.emit (ctx : DirContext) (x : Emitted) : Bool × DirContext :=
  if reclen x ≤ ctx.room then
    (true, { ctx with room := ctx.room - reclen x, out := ctx.out ++ [x] })
  else (false, { ctx with full := true })

/-- `dir_emit_dots`, from position 0. -/
def DirContext.emitDots (ctx : DirContext) : Bool × DirContext :=
  match ctx.emit reclen .dot with
  | (false, ctx) => (false, ctx)
  | (true, ctx) =>
    match { ctx with pos := 1 }.emit reclen .dotdot with
    | (false, ctx) => (false, ctx)
    | (true, ctx) => (true, { ctx with pos := 2 })

/-- The loop that copies entries. A deleted entry moves `ctx->pos`, a copied one does not yet. -/
def copyEntries : List DirEntry → Int → Int → List DirEntry → Int × List DirEntry
  | [], _, ctxPos, buf => (ctxPos, buf)
  | e :: es, pos, ctxPos, buf =>
    if readdirMax ≤ buf.length then (ctxPos, buf)
    else if 0 < pos then copyEntries es (pos - 1) ctxPos buf
    else if e.deleted then copyEntries es pos (ctxPos + 1) buf
    else copyEntries es pos ctxPos (buf ++ [e])

/-- The loop that emits the copies, after `dir_mutex` was released. -/
def emitCopies : List DirEntry → DirContext → DirContext
  | [], ctx => ctx
  | e :: buf, ctx =>
    match ctx.emit reclen (dirent e) with
    | (false, ctx) => ctx
    | (true, ctx) => emitCopies buf { ctx with pos := ctx.pos + 1 }

/-- The loop that emits under `dir_mutex`, when there is no memory for copies. -/
def emitLocked : List DirEntry → Int → DirContext → DirContext
  | [], _, ctx => ctx
  | e :: es, pos, ctx =>
    if 0 < pos then emitLocked es (pos - 1) ctx
    else if e.deleted then emitLocked es pos { ctx with pos := ctx.pos + 1 }
    else
      match ctx.emit reclen (dirent e) with
      | (false, ctx) => ctx
      | (true, ctx) => emitLocked es pos { ctx with pos := ctx.pos + 1 }

/-- `powerfs_readdir` from `emit_cached` on; `alloc` is the allocation of the copies. -/
def emitCached (entries : List DirEntry) (alloc : Bool) (ctx : DirContext) : DirContext :=
  if alloc then
    let (ctxPos, buf) := copyEntries entries (ctx.pos - 2) ctx.pos []
    emitCopies reclen buf { ctx with pos := ctxPos }
  else emitLocked reclen entries (ctx.pos - 2) ctx

/-- `powerfs_readdir` while the lease is valid: the entries afterwards, and what was emitted. -/
def readdir (entries : List DirEntry) (alloc : Bool) (ctx : DirContext) :
    List DirEntry × DirContext :=
  if ctx.pos = 0 then
    let entries := compactDirEntries entries
    match ctx.emitDots reclen with
    | (false, ctx) => (entries, ctx)
    | (true, ctx) => (entries, emitCached reclen entries alloc ctx)
  else (entries, emitCached reclen entries alloc ctx)

/-- A call of a reader: the size of its buffer, and whether the copies could be allocated. -/
structure ReaddirCall where
  size : Nat
  alloc : Bool

/-- The calls of one reader until one returns nothing; `none` if these do not get that far. -/
def readPass : List DirEntry → Int → List ReaddirCall → Option (List Emitted)
  | _, _, [] => none
  | entries, pos, call :: calls =>
    let (entries', ctx) := readdir reclen entries call.alloc ⟨pos, call.size, [], false⟩
    if ctx.out = [] then some []
    else (readPass entries' ctx.pos calls).map (ctx.out ++ ·)

end Code

def activeEntries (entries : List DirEntry) : List DirEntry := entries.filter fun e => !e.deleted

/-- What a reader should get. -/
def listing (entries : List DirEntry) : List Emitted :=
  .dot :: .dotdot :: (activeEntries entries).map dirent

/-- Everything was returned once, and nothing else. -/
def Complete (entries : List DirEntry) (out : List Emitted) : Prop := out.Perm (listing entries)

/-- The entries that a call looks at: up to the `n`-th active one. -/
def lookedAt : Nat → List DirEntry → List DirEntry
  | 0, _ => []
  | _ + 1, [] => []
  | n + 1, e :: es => e :: lookedAt (if e.deleted then n + 1 else n) es

section Room

variable (reclen : Emitted → Nat)

/-- The entries up to the first active one that does not fit into the room. -/
def fitting : Nat → List DirEntry → List DirEntry
  | _, [] => []
  | room, e :: es =>
    if e.deleted then e :: fitting room es
    else if reclen (dirent e) ≤ room then e :: fitting (room - reclen (dirent e)) es
    else []

def unfit : Nat → List DirEntry → List DirEntry
  | _, [] => []
  | room, e :: es =>
    if e.deleted then unfit room es
    else if reclen (dirent e) ≤ room then unfit (room - reclen (dirent e)) es
    else e :: es

/-- A call that copies has not looked at a deleted entry behind the first one that does not fit. -/
def EmitOk (entries : List DirEntry) (pos : Int) (room : Nat) (alloc : Bool) : Prop :=
  alloc = true →
    ∀ e ∈ unfit reclen room (lookedAt readdirMax (entries.drop (pos - 2).toNat)), e.deleted = false

/-- The condition on one call. The first one has room for both dots. -/
def CallOk (entries : List DirEntry) (pos : Int) (call : ReaddirCall) : Prop :=
  if pos = 0 then
    reclen .dot + reclen .dotdot ≤ call.size ∧
      EmitOk reclen (compactDirEntries entries) 2 (call.size - reclen .dot - reclen .dotdot)
        call.alloc
  else EmitOk reclen entries pos call.size call.alloc

/-- Every call of the reader, up to the one that returns nothing, meets the condition. -/
def PassOk : List DirEntry → Int → List ReaddirCall → Prop
  | _, _, [] => True
  | entries, pos, call :: calls =>
    CallOk reclen entries pos call ∧
      let r := readdir reclen entries call.alloc ⟨pos, call.size, [], false⟩
      r.2.out ≠ [] → PassOk r.1 r.2.pos calls

end Room

variable {reclen : Emitted → Nat} {entries es : List DirEntry} {ctx : DirContext}

theorem activeEntries_append (a b : List DirEntry) :
    activeEntries (a ++ b) = activeEntries a ++ activeEntries b :=
  List.filter_append a b

theorem activeEntries_cons_deleted {e : DirEntry} (h : e.deleted = true) :
    activeEntries (e :: es) = activeEntries es := by
  simp [activeEntries, h]

theorem activeEntries_cons_active {e : DirEntry} (h : e.deleted = false) :
    activeEntries (e :: es) = e :: activeEntries es := by
  simp [activeEntries, h]

theorem activeEntries_compact (entries : List DirEntry) :
    activeEntries (compactDirEntries entries) = activeEntries entries := by
  simp only [compactDirEntries]
  split_ifs
  · rfl
  · simp [activeEntries]

theorem length_compact_le (entries : List DirEntry) :
    (compactDirEntries entries).length ≤ entries.length := by
  simp only [compactDirEntries]
  split_ifs
  · exact Nat.le_refl _
  · exact List.length_filter_le ..

/-! ### The loops -/

theorem fitting_append_unfit (reclen : Emitted → Nat) (room : Nat) (es : List DirEntry) :
    fitting reclen room es ++ unfit reclen room es = es := by
  induction es generalizing room with
  | nil => rfl
  | cons e es ih =>
    simp only [fitting, unfit]
    split_ifs
    · rw [List.cons_append, ih]
    · rw [List.cons_append, ih]
    · rfl

theorem unfit_head {room : Nat} {e : DirEntry} {rest : List DirEntry}
    (h : unfit reclen room es = e :: rest) : e.deleted = false := by
  induction es generalizing room with
  | nil => cases h
  | cons d es ih =>
    simp only [unfit] at h
    split_ifs at h with hdel hfit
    · exact ih h
    · exact ih h
    · cases h
      simpa using hdel

theorem activeEntries_eq_nil_of_fitting {room : Nat}
    (hroom : ∀ e ∈ activeEntries es, reclen (dirent e) ≤ room)
    (h : activeEntries (fitting reclen room es) = []) : activeEntries es = [] := by
  induction es with
  | nil => rfl
  | cons e es ih =>
    simp only [fitting] at h
    cases hdel : e.deleted with
    | true =>
      rw [activeEntries_cons_deleted hdel] at hroom ⊢
      rw [if_pos hdel, activeEntries_cons_deleted hdel] at h
      exact ih hroom h
    | false =>
      rw [activeEntries_cons_active hdel] at hroom
      rw [if_neg (by simp [hdel]), if_pos (hroom e List.mem_cons_self),
        activeEntries_cons_active hdel] at h
      cases h

theorem lookedAt_prefix (n : Nat) (es : List DirEntry) : lookedAt n es <+: es := by
  induction es generalizing n with
  | nil => cases n <;> exact List.nil_prefix
  | cons e es ih =>
    cases n with
    | zero => exact List.nil_prefix
    | succ n => exact (List.prefix_cons_inj e).mpr (ih _)

theorem activeEntries_eq_nil_of_lookedAt {n : Nat} (h : activeEntries (lookedAt (n + 1) es) = []) :
    activeEntries es = [] := by
  induction es with
  | nil => rfl
  | cons e es ih =>
    simp only [lookedAt] at h
    cases hdel : e.deleted with
    | true =>
      rw [if_pos hdel, activeEntries_cons_deleted hdel] at h
      rw [activeEntries_cons_deleted hdel]
      exact ih h
    | false =>
      rw [activeEntries_cons_active hdel] at h
      cases h

theorem copyEntries_of_le {pos : Int} (hpos : pos ≤ 0) (ctxPos : Int) (buf : List DirEntry) :
    copyEntries es pos ctxPos buf =
      (ctxPos + (lookedAt (readdirMax - buf.length) es).countP (·.deleted),
        buf ++ activeEntries (lookedAt (readdirMax - buf.length) es)) := by
  induction es generalizing ctxPos buf with
  | nil => cases readdirMax - buf.length <;> simp [copyEntries, lookedAt, activeEntries]
  | cons e es ih =>
    rw [copyEntries]
    split_ifs with hmax hlt hdel
    · rw [Nat.sub_eq_zero_of_le hmax]
      simp [lookedAt, activeEntries]
    · omega
    · obtain ⟨n, hn⟩ : ∃ n, readdirMax - buf.length = n + 1 := ⟨_, (by omega :
        readdirMax - buf.length = readdirMax - buf.length - 1 + 1)⟩
      rw [ih, hn, lookedAt, if_pos hdel, List.countP_cons_of_pos hdel,
        activeEntries_cons_deleted hdel]
      rw [Int.natCast_add, Int.natCast_one, Int.add_assoc, Int.add_comm 1]
    · have hact : e.deleted = false := by simpa using hdel
      obtain ⟨n, hn⟩ : ∃ n, readdirMax - buf.length = n + 1 := ⟨_, (by omega :
        readdirMax - buf.length = readdirMax - buf.length - 1 + 1)⟩
      have hlen : readdirMax - (buf ++ [e]).length = n := by
        rw [List.length_append, List.length_singleton]
        omega
      rw [ih, hlen, hn, lookedAt, if_neg hdel, List.countP_cons_of_neg hdel,
        activeEntries_cons_active hact, List.append_assoc, List.singleton_append]

/-- The copies, and how far `ctx->pos` has moved when they are taken. -/
theorem copyEntries_eq (es : List DirEntry) (pos ctxPos : Int) :
    copyEntries es pos ctxPos [] =
      (ctxPos + (lookedAt readdirMax (es.drop pos.toNat)).countP (·.deleted),
        activeEntries (lookedAt readdirMax (es.drop pos.toNat))) := by
  induction es generalizing pos with
  | nil => simp [copyEntries, lookedAt, readdirMax, activeEntries]
  | cons e es ih =>
    by_cases hpos : 0 < pos
    · have hdrop : pos.toNat = (pos - 1).toNat + 1 := by omega
      rw [copyEntries, if_neg (by decide), if_pos hpos, hdrop, List.drop_succ_cons, ih]
    · have hdrop : pos.toNat = 0 := by omega
      rw [copyEntries_of_le (by omega), hdrop]
      rfl

theorem emitCopies_eq (reclen : Emitted → Nat) (es : List DirEntry) (ctx : DirContext) :
    (emitCopies reclen (activeEntries es) ctx).pos =
        ctx.pos + (activeEntries (fitting reclen ctx.room es)).length ∧
      (emitCopies reclen (activeEntries es) ctx).out =
        ctx.out ++ (activeEntries (fitting reclen ctx.room es)).map dirent ∧
      ((emitCopies reclen (activeEntries es) ctx).full = false ↔
        ctx.full = false ∧ unfit reclen ctx.room es = []) := by
  induction es generalizing ctx with
  | nil => simp [emitCopies, activeEntries, fitting, unfit]
  | cons e es ih =>
    simp only [fitting, unfit]
    cases hdel : e.deleted with
    | true =>
      rw [activeEntries_cons_deleted hdel, if_pos rfl, activeEntries_cons_deleted hdel]
      exact ih ctx
    | false =>
      rw [activeEntries_cons_active hdel, emitCopies, DirContext.emit]
      rw [if_neg Bool.false_ne_true, if_neg Bool.false_ne_true]
      split_ifs with hfit
      · obtain ⟨hpos, hout, hfull⟩ := ih
          { ctx with
            pos := ctx.pos + 1
            room := ctx.room - reclen (dirent e)
            out := ctx.out ++ [dirent e] }
        rw [activeEntries_cons_active hdel]
        refine ⟨hpos.trans ?_, hout.trans ?_, hfull⟩
        · simp only [List.length_cons]
          omega
        · rw [List.append_assoc, List.map_cons, List.singleton_append]
      · simp [activeEntries]

theorem emitLocked_of_le (reclen : Emitted → Nat) (es : List DirEntry) {pos : Int} (hpos : pos ≤ 0)
    (ctx : DirContext) :
    (emitLocked reclen es pos ctx).pos = ctx.pos + (fitting reclen ctx.room es).length ∧
      (emitLocked reclen es pos ctx).out =
        ctx.out ++ (activeEntries (fitting reclen ctx.room es)).map dirent ∧
      ((emitLocked reclen es pos ctx).full = false ↔
        ctx.full = false ∧ unfit reclen ctx.room es = []) := by
  induction es generalizing ctx with
  | nil => simp [emitLocked, activeEntries, fitting, unfit]
  | cons e es ih =>
    rw [emitLocked, if_neg (by omega)]
    simp only [fitting, unfit]
    cases hdel : e.deleted with
    | true =>
      rw [if_pos rfl, if_pos rfl, activeEntries_cons_deleted hdel]
      obtain ⟨hpos', hout, hfull⟩ := ih { ctx with pos := ctx.pos + 1 }
      refine ⟨hpos'.trans ?_, hout, hfull⟩
      simp only [List.length_cons]
      omega
    | false =>
      rw [if_neg Bool.false_ne_true, if_neg Bool.false_ne_true, if_neg Bool.false_ne_true,
        DirContext.emit]
      split_ifs with hfit
      · obtain ⟨hpos', hout, hfull⟩ := ih
          { ctx with
            pos := ctx.pos + 1
            room := ctx.room - reclen (dirent e)
            out := ctx.out ++ [dirent e] }
        rw [activeEntries_cons_active hdel]
        refine ⟨hpos'.trans ?_, hout.trans ?_, hfull⟩
        · simp only [List.length_cons]
          omega
        · rw [List.append_assoc, List.map_cons, List.singleton_append]
      · simp [activeEntries]

theorem emitLocked_skip (es : List DirEntry) (pos : Int) (ctx : DirContext) :
    emitLocked reclen es pos ctx = emitLocked reclen (es.drop pos.toNat) (min pos 0) ctx := by
  induction es generalizing pos with
  | nil => simp [emitLocked]
  | cons e es ih =>
    by_cases hpos : 0 < pos
    · have hdrop : pos.toNat = (pos - 1).toNat + 1 := by omega
      rw [emitLocked, if_pos hpos, hdrop, ih]
      congr 1
      omega
    · have hdrop : pos.toNat = 0 := by omega
      have hmin : min pos 0 = pos := by omega
      rw [hdrop, List.drop_zero, hmin]

/-! ### One call -/

/-- A call from position `ctx->pos` has returned the active ones of the next `m` entries, and has
gone `k` entries further: too far, over the entry that did not fit. -/
structure EmitCase (reclen : Emitted → Nat) (entries : List DirEntry) (alloc : Bool)
    (ctx ctx' : DirContext) (m k : Nat) : Prop where
  out : ctx'.out =
    ctx.out ++ (activeEntries ((entries.drop (ctx.pos - 2).toNat).take m)).map dirent
  pos : ctx'.pos = ctx.pos + m + k
  exact_iff : k = 0 ↔ EmitOk reclen entries ctx.pos ctx.room alloc
  passed : k ≠ 0 → ∃ e tail, (entries.drop (ctx.pos - 2).toNat).drop m = e :: tail ∧
    e.deleted = false
  exact_of_not_full : ctx'.full = false → k = 0
  ended : (∀ e ∈ activeEntries entries, reclen (dirent e) ≤ ctx.room) ∨ ctx'.full = false →
    activeEntries ((entries.drop (ctx.pos - 2).toNat).take m) = [] →
      activeEntries (entries.drop (ctx.pos - 2).toNat) = []

section Window

variable {room : Nat} {w rest : List DirEntry}

theorem take_fitting (reclen : Emitted → Nat) (room : Nat) (hw : w <+: rest) :
    rest.take (fitting reclen room w).length = fitting reclen room w ∧
      ∃ t, rest.drop (fitting reclen room w).length = unfit reclen room w ++ t := by
  obtain ⟨t, rfl⟩ := hw
  have hsplit : w ++ t = fitting reclen room w ++ (unfit reclen room w ++ t) := by
    rw [← List.append_assoc, fitting_append_unfit]
  constructor
  · rw [hsplit, List.take_left]
  · exact ⟨t, by rw [hsplit, List.drop_left]⟩

theorem activeEntries_eq_nil_of_window {full : Bool}
    (hfull : full = false → unfit reclen room w = [])
    (hroom : (∀ e ∈ activeEntries w, reclen (dirent e) ≤ room) ∨ full = false)
    (h : activeEntries (fitting reclen room w) = []) : activeEntries w = [] := by
  obtain hroom | hnot := hroom
  · exact activeEntries_eq_nil_of_fitting hroom h
  · have hsplit := fitting_append_unfit reclen room w
    rw [hfull hnot, List.append_nil] at hsplit
    rwa [hsplit] at h

theorem countP_deleted_add (es : List DirEntry) :
    es.countP (·.deleted) + (activeEntries es).length = es.length := by
  rw [activeEntries, ← List.countP_eq_length_filter,
    List.length_eq_countP_add_countP (l := es) (·.deleted)]
  congr 2
  funext e
  cases e.deleted <;> rfl

end Window

theorem mem_activeEntries_of_drop {n : Nat} {e : DirEntry}
    (h : e ∈ activeEntries (entries.drop n)) : e ∈ activeEntries entries :=
  ((List.drop_sublist n entries).filter _).subset h

theorem emitCached_true (reclen : Emitted → Nat) (ctx : DirContext) {w : List DirEntry}
    (hw : lookedAt readdirMax (entries.drop (ctx.pos - 2).toNat) = w) :
    (emitCached reclen entries true ctx).pos =
        ctx.pos + w.countP (·.deleted) + (activeEntries (fitting reclen ctx.room w)).length ∧
      (emitCached reclen entries true ctx).out =
        ctx.out ++ (activeEntries (fitting reclen ctx.room w)).map dirent ∧
      ((emitCached reclen entries true ctx).full = false ↔
        ctx.full = false ∧ unfit reclen ctx.room w = []) := by
  rw [emitCached, copyEntries_eq, hw]
  exact emitCopies_eq reclen w { ctx with pos := ctx.pos + w.countP (·.deleted) }

theorem emitCached_copies (ctx : DirContext) : ∃ m k,
    EmitCase reclen entries true ctx (emitCached reclen entries true ctx) m k := by
  have hpre := lookedAt_prefix readdirMax (entries.drop (ctx.pos - 2).toNat)
  obtain ⟨htake, t, hdrop⟩ := take_fitting reclen ctx.room hpre
  have hended : activeEntries (lookedAt readdirMax (entries.drop (ctx.pos - 2).toNat)) = [] →
      activeEntries (entries.drop (ctx.pos - 2).toNat) = [] :=
    activeEntries_eq_nil_of_lookedAt (n := 255)
  have hsub : ∀ e ∈ activeEntries (lookedAt readdirMax (entries.drop (ctx.pos - 2).toNat)),
      e ∈ activeEntries entries :=
    fun e he => mem_activeEntries_of_drop ((hpre.sublist.filter _).subset he)
  have hok : EmitOk reclen entries ctx.pos ctx.room true ↔ ∀ e ∈ unfit reclen ctx.room
      (lookedAt readdirMax (entries.drop (ctx.pos - 2).toNat)), e.deleted = false :=
    ⟨fun h => h rfl, fun h _ => h⟩
  generalize hw : lookedAt readdirMax (entries.drop (ctx.pos - 2).toNat) = w at *
  obtain ⟨hpos, hout, hfull⟩ := emitCached_true reclen ctx hw
  have hzero : (unfit reclen ctx.room w).countP (·.deleted) = 0 ↔
      ∀ e ∈ unfit reclen ctx.room w, e.deleted = false := by
    simp [List.countP_eq_zero]
  refine ⟨(fitting reclen ctx.room w).length, (unfit reclen ctx.room w).countP (·.deleted),
    ?_, ?_, hzero.trans hok.symm, fun hk => ?_, fun hnot => ?_, fun hroom hnil => ?_⟩
  · rw [hout, htake]
  · have hsplit := congrArg (List.countP (·.deleted))
      (fitting_append_unfit reclen ctx.room w)
    have hlen := countP_deleted_add (fitting reclen ctx.room w)
    rw [List.countP_append] at hsplit
    omega
  · cases hunfit : unfit reclen ctx.room w with
    | nil => simp [hunfit] at hk
    | cons e r => exact ⟨e, r ++ t, by rw [hdrop, hunfit, List.cons_append], unfit_head hunfit⟩
  · simp [(hfull.mp hnot).2]
  · rw [htake] at hnil
    refine hended (activeEntries_eq_nil_of_window (fun hnot => (hfull.mp hnot).2) ?_ hnil)
    exact hroom.imp_left fun hall e he => hall e (hsub e he)

theorem emitCached_locked (ctx : DirContext) : ∃ m k,
    EmitCase reclen entries false ctx (emitCached reclen entries false ctx) m k := by
  have hcached : emitCached reclen entries false ctx =
      emitLocked reclen (entries.drop (ctx.pos - 2).toNat) (min (ctx.pos - 2) 0) ctx := by
    rw [emitCached, if_neg Bool.false_ne_true, emitLocked_skip]
  rw [hcached]
  obtain ⟨htake, -⟩ := take_fitting reclen ctx.room
    (List.prefix_refl (entries.drop (ctx.pos - 2).toNat))
  obtain ⟨hpos, hout, hfull⟩ := emitLocked_of_le reclen
    (entries.drop (ctx.pos - 2).toNat) (Int.min_le_right (ctx.pos - 2) 0) ctx
  refine ⟨(fitting reclen ctx.room (entries.drop (ctx.pos - 2).toNat)).length, 0, ?_, ?_,
    iff_of_true rfl (fun h => absurd h Bool.false_ne_true), absurd rfl, fun _ => rfl,
    fun hroom hnil => ?_⟩
  · rw [hout, htake]
  · omega
  · rw [htake] at hnil
    refine activeEntries_eq_nil_of_window (fun hnot => (hfull.mp hnot).2) ?_ hnil
    exact hroom.imp_left fun hall e he => hall e (mem_activeEntries_of_drop he)

theorem emitCached_case (reclen : Emitted → Nat) (entries : List DirEntry) (alloc : Bool)
    (ctx : DirContext) : ∃ m k,
    EmitCase reclen entries alloc ctx (emitCached reclen entries alloc ctx) m k := by
  cases alloc with
  | true => exact emitCached_copies ctx
  | false => exact emitCached_locked ctx

/-! ### The calls of a reader -/

theorem readdir_of_pos {pos : Int} (hpos : 1 ≤ pos) (call : ReaddirCall) :
    readdir reclen entries call.alloc ⟨pos, call.size, [], false⟩ =
      (entries, emitCached reclen entries call.alloc ⟨pos, call.size, [], false⟩) := by
  rw [readdir, if_neg]
  show ¬ pos = 0
  omega

theorem callOk_of_pos {pos : Int} (hpos : 1 ≤ pos) (call : ReaddirCall) :
    CallOk reclen entries pos call ↔ EmitOk reclen entries pos call.size call.alloc := by
  rw [CallOk, if_neg (by omega)]

section Pass

variable {pos : Int} {calls : List ReaddirCall} {out : List Emitted}

theorem dotdot_not_mem_readPass (hpos : 1 ≤ pos)
    (h : readPass reclen entries pos calls = some out) : .dotdot ∉ out := by
  induction calls generalizing pos out with
  | nil => cases h
  | cons call calls ih =>
    rw [readPass, readdir_of_pos hpos] at h
    obtain ⟨m, k, hcase⟩ :=
      emitCached_case reclen entries call.alloc ⟨pos, call.size, [], false⟩
    have hpos' := hcase.pos
    simp only at h hpos'
    split_ifs at h with hnil
    · cases h
      exact List.not_mem_nil
    · obtain ⟨out', hout', rfl⟩ := Option.map_eq_some_iff.mp h
      rw [hcase.out, List.mem_append]
      rintro (hmem | hmem)
      · obtain ⟨e, -, he⟩ := List.mem_map.mp hmem
        cases he
      · exact ih (by omega) hout' hmem

theorem readPass_ends (hpos : 1 ≤ pos) (hne : calls ≠ [])
    (hcalls : (entries.length : Int) + 3 ≤ calls.length + pos) :
    (readPass reclen entries pos calls).isSome := by
  induction calls generalizing pos with
  | nil => exact absurd rfl hne
  | cons call calls ih =>
    rw [readPass, readdir_of_pos hpos]
    obtain ⟨m, k, hcase⟩ :=
      emitCached_case reclen entries call.alloc ⟨pos, call.size, [], false⟩
    have hpos' := hcase.pos
    have hout := hcase.out
    simp only [List.nil_append] at hpos' hout ⊢
    rw [List.length_cons] at hcalls
    split_ifs with hnil
    · rfl
    · have hrest : (entries.drop (pos - 2).toNat).take m ≠ [] := by
        intro hrest
        rw [hrest] at hout
        exact hnil hout
      obtain ⟨hm, hdrop⟩ := not_or.mp (mt List.take_eq_nil_iff.mpr hrest)
      have hlt : (pos - 2).toNat < entries.length :=
        Nat.lt_of_not_le (mt List.drop_eq_nil_of_le hdrop)
      rw [Option.isSome_map]
      apply ih (by omega)
      · rintro rfl
        rw [List.length_nil] at hcalls
        omega
      · omega

/-- A call and what comes after it: nothing else than the entries from the position on, and all of
them just if the call meets the condition and the rest is complete. -/
theorem EmitCase.append {alloc : Bool} {ctx ctx' : DirContext} {m k : Nat} {rest : Prop}
    (hcase : EmitCase reclen entries alloc ctx ctx' m k) (hpos : 2 ≤ ctx.pos)
    (hsub : out.Sublist ((activeEntries (entries.drop (ctx'.pos - 2).toNat)).map dirent))
    (hiff : out = (activeEntries (entries.drop (ctx'.pos - 2).toNat)).map dirent ↔ rest) :
    let here := entries.drop (ctx.pos - 2).toNat
    let got := (activeEntries (here.take m)).map dirent ++ out
    got.Sublist ((activeEntries here).map dirent) ∧
      (got = (activeEntries here).map dirent ↔
        EmitOk reclen entries ctx.pos ctx.room alloc ∧ rest) := by
  intro here got
  have hdrop : (ctx'.pos - 2).toNat = (ctx.pos - 2).toNat + (m + k) := by
    rw [hcase.pos]
    omega
  have hsplit : activeEntries here =
      activeEntries (here.take m) ++ activeEntries (here.drop m) := by
    rw [← activeEntries_append, List.take_append_drop]
  have hhere : (entries.drop (ctx.pos - 2).toNat).drop m = here.drop m := rfl
  rw [hdrop, ← List.drop_drop, ← List.drop_drop] at hsub hiff
  rw [hsplit, List.map_append]
  by_cases hk : k = 0
  · rw [hk, List.drop_zero] at hsub hiff
    refine ⟨hsub.append_left _, ?_⟩
    rw [List.append_cancel_left_eq, hiff]
    exact (and_iff_right (hcase.exact_iff.mp hk)).symm
  · -- The entry that did not fit is passed over, and so never returned.
    obtain ⟨e, tail, htail, he⟩ := hcase.passed hk
    obtain ⟨k, rfl⟩ := Nat.exists_eq_succ_of_ne_zero hk
    rw [htail] at hsub
    rw [htail, activeEntries_cons_active he, List.map_cons]
    have hlost : out.Sublist ((activeEntries tail).map dirent) :=
      hsub.trans (((List.drop_sublist k tail).filter _).map dirent)
    refine ⟨(hlost.cons _).append_left _, iff_of_false (fun heq => ?_) fun hpass => ?_⟩
    · have hlen := congrArg List.length (List.append_cancel_left heq)
      have hle := hlost.length_le
      rw [List.length_cons] at hlen
      omega
    · exact hk (hcase.exact_iff.mpr hpass.1)

theorem EmitCase.emitOk_of_nil {alloc : Bool} {ctx ctx' : DirContext} {m k : Nat}
    (hcase : EmitCase reclen entries alloc ctx ctx' m k)
    (hnone : activeEntries (entries.drop (ctx.pos - 2).toNat) = []) :
    EmitOk reclen entries ctx.pos ctx.room alloc := by
  apply hcase.exact_iff.mp
  by_contra hk
  obtain ⟨e, tail, htail, he⟩ := hcase.passed hk
  have hmem : e ∈ activeEntries (entries.drop (ctx.pos - 2).toNat) := by
    refine List.mem_filter.mpr ⟨List.mem_of_mem_drop (i := m) ?_, by simp [he]⟩
    rw [htail]
    exact List.mem_cons_self
  rw [hnone] at hmem
  cases hmem

/-- What a reader gets from its position on is in the list from there on, and it is all of it just
if every call meets the condition. -/
theorem readPass_sublist (hpos : 2 ≤ pos) (hroom : ∀ call ∈ calls, ∀ e ∈ activeEntries entries,
      reclen (dirent e) ≤ call.size)
    (h : readPass reclen entries pos calls = some out) :
    out.Sublist ((activeEntries (entries.drop (pos - 2).toNat)).map dirent) ∧
      (out = (activeEntries (entries.drop (pos - 2).toNat)).map dirent ↔
        PassOk reclen entries pos calls) := by
  induction calls generalizing pos out with
  | nil => cases h
  | cons call calls ih =>
    rw [readPass, readdir_of_pos (by omega)] at h
    rw [PassOk, callOk_of_pos (by omega), readdir_of_pos (by omega)]
    obtain ⟨m, k, hcase⟩ :=
      emitCached_case reclen entries call.alloc ⟨pos, call.size, [], false⟩
    have hpos' := hcase.pos
    have hout := hcase.out
    simp only [List.nil_append] at h hpos' hout ⊢
    split_ifs at h with hnil
    · cases h
      have hnone : activeEntries (entries.drop (pos - 2).toNat) = [] :=
        hcase.ended (.inl (hroom call List.mem_cons_self))
          (List.map_eq_nil_iff.mp (hout.symm.trans hnil))
      rw [hnone]
      exact ⟨List.Sublist.slnil, iff_of_true rfl ⟨hcase.emitOk_of_nil hnone, absurd hnil⟩⟩
    · obtain ⟨out', hout', rfl⟩ := Option.map_eq_some_iff.mp h
      obtain ⟨hsub, hiff⟩ := ih (by omega) (fun c hc => hroom c (List.mem_cons_of_mem _ hc)) hout'
      rw [imp_iff_right hnil, hout]
      exact hcase.append hpos hsub hiff

end Pass

/-! ### From the start -/

theorem emitDots_both {size : Nat} (h : reclen .dot + reclen .dotdot ≤ size) :
    DirContext.emitDots reclen ⟨0, size, [], false⟩ =
      (true, ⟨2, size - reclen .dot - reclen .dotdot, [.dot, .dotdot], false⟩) := by
  have hdot : reclen .dot ≤ size := by omega
  have hdotdot : reclen .dotdot ≤ size - reclen .dot := by omega
  simp [DirContext.emitDots, DirContext.emit, hdot, hdotdot]

theorem emitDots_one {size : Nat} (hdot : reclen .dot ≤ size)
    (h : ¬ reclen .dot + reclen .dotdot ≤ size) :
    DirContext.emitDots reclen ⟨0, size, [], false⟩ =
      (false, ⟨1, size - reclen .dot, [.dot], true⟩) := by
  have hdotdot : ¬ reclen .dotdot ≤ size - reclen .dot := by omega
  simp [DirContext.emitDots, DirContext.emit, hdot, hdotdot]

section Start

variable {call : ReaddirCall} {calls : List ReaddirCall} {out : List Emitted}

theorem readPass_first_isSome (hdot : reclen .dot ≤ call.size)
    (hlen : entries.length + 2 ≤ calls.length) :
    (readPass reclen entries 0 (call :: calls)).isSome := by
  have hcompact := length_compact_le entries
  have hne : calls ≠ [] := by
    rintro rfl
    simp at hlen
  rw [readPass, readdir, if_pos rfl]
  by_cases hboth : reclen .dot + reclen .dotdot ≤ call.size
  · rw [emitDots_both hboth]
    obtain ⟨m, k, hcase⟩ := emitCached_case reclen (compactDirEntries entries)
      call.alloc ⟨2, call.size - reclen .dot - reclen .dotdot, [.dot, .dotdot], false⟩
    have hpos := hcase.pos
    simp only at hpos ⊢
    split_ifs with hnil
    · rfl
    · rw [Option.isSome_map]
      exact readPass_ends (by omega) hne (by omega)
  · rw [emitDots_one hdot hboth]
    simp only [List.cons_ne_nil, if_false, Option.isSome_map]
    exact readPass_ends (Int.le_refl 1) hne (by omega)

theorem not_complete_of_one_dot (hdot : reclen .dot ≤ call.size)
    (hone : ¬ reclen .dot + reclen .dotdot ≤ call.size)
    (h : readPass reclen entries 0 (call :: calls) = some out) : ¬ Complete entries out := by
  rw [readPass, readdir, emitDots_one hdot hone] at h
  obtain ⟨out', hout', rfl⟩ := Option.map_eq_some_iff.mp h
  intro hcomplete
  have hmem : Emitted.dotdot ∈ [Emitted.dot] ++ out' :=
    hcomplete.mem_iff.mpr (List.mem_cons_of_mem _ List.mem_cons_self)
  obtain hmem | hmem := List.mem_append.mp hmem
  · cases List.mem_singleton.mp hmem
  · exact dotdot_not_mem_readPass (Int.le_refl 1) hout' hmem

theorem complete_iff_of_both_dots (hboth : reclen .dot + reclen .dotdot ≤ call.size)
    (hroom : ∀ c ∈ calls, ∀ e ∈ activeEntries entries, reclen (dirent e) ≤ c.size)
    (h : readPass reclen entries 0 (call :: calls) = some out) :
    Complete entries out ↔ PassOk reclen entries 0 (call :: calls) := by
  rw [readPass, readdir, if_pos rfl, emitDots_both hboth] at h
  rw [PassOk, CallOk, if_pos rfl, readdir, if_pos rfl, emitDots_both hboth]
  obtain ⟨m, k, hcase⟩ := emitCached_case reclen (compactDirEntries entries) call.alloc
    ⟨2, call.size - reclen .dot - reclen .dotdot, [.dot, .dotdot], false⟩
  have hpos := hcase.pos
  have hout := hcase.out
  rw [← activeEntries_compact] at hroom
  rw [Complete, listing, ← activeEntries_compact]
  simp only at h hpos hout ⊢
  have hne : (emitCached reclen (compactDirEntries entries) call.alloc
      ⟨2, call.size - reclen .dot - reclen .dotdot, [.dot, .dotdot], false⟩).out ≠ [] := by
    rw [hout]
    exact List.cons_ne_nil _ _
  rw [if_neg hne] at h
  obtain ⟨out', hout', rfl⟩ := Option.map_eq_some_iff.mp h
  obtain ⟨hsub, hiff⟩ := readPass_sublist (by omega) hroom hout'
  obtain ⟨hsub, hiff⟩ := hcase.append (Int.le_refl 2) hsub hiff
  rw [and_iff_right hboth, imp_iff_right hne, ← hiff, hout]
  simp only [List.cons_append, List.perm_cons]
  constructor
  · intro hperm
    exact hsub.eq_of_length hperm.length_eq
  · intro heq
    exact .of_eq heq

end Start

/-- The calls of one reader from the start come to the end, and they return everything once just if
each of them meets the condition. -/
theorem complete_iff_passOk (entries : List DirEntry) (calls : List ReaddirCall)
    (hroom : ∀ call ∈ calls, ∀ x ∈ listing entries, reclen x ≤ call.size) :
    (entries.length + 3 ≤ calls.length → (readPass reclen entries 0 calls).isSome) ∧
      ∀ out, readPass reclen entries 0 calls = some out →
        (Complete entries out ↔ PassOk reclen entries 0 calls) := by
  cases calls with
  | nil => exact ⟨fun h => absurd h (by simp), fun out h => nomatch h⟩
  | cons call calls =>
    have hdot : reclen .dot ≤ call.size := hroom call List.mem_cons_self _ List.mem_cons_self
    have hentries : ∀ c ∈ calls, ∀ e ∈ activeEntries entries, reclen (dirent e) ≤ c.size :=
      fun c hc e he => hroom c (List.mem_cons_of_mem _ hc) _
        (List.mem_cons_of_mem _ (List.mem_cons_of_mem _ (List.mem_map_of_mem he)))
    refine ⟨fun hlen => ?_, fun out h => ?_⟩
    · exact readPass_first_isSome hdot (by simpa using hlen)
    · by_cases hboth : reclen .dot + reclen .dotdot ≤ call.size
      · exact complete_iff_of_both_dots hboth hentries h
      · refine iff_of_false (not_complete_of_one_dot hdot hboth h) fun hok => hboth ?_
        exact hok.1.1

def cachedEntry (letter : UInt8) (deleted : Bool) : DirEntry := ⟨[letter], 5, 0o100000, deleted, 1⟩

/-- Buffers for two items each, where the deleted entry comes before what does not fit. -/
theorem complete_iff_passOk_deletedFirst :
    ∃ out, readPass (fun _ => 24) [cachedEntry 97 true, cachedEntry 98 false, cachedEntry 99 false,
        cachedEntry 100 false] 0 (List.replicate 7 ⟨50, true⟩) = some out ∧
      Complete [cachedEntry 97 true, cachedEntry 98 false, cachedEntry 99 false,
        cachedEntry 100 false] out := by
  have hroom : ∀ call ∈ List.replicate 7 (⟨50, true⟩ : ReaddirCall), ∀ x ∈ listing
      [cachedEntry 97 true, cachedEntry 98 false, cachedEntry 99 false, cachedEntry 100 false],
      (fun _ : Emitted => 24) x ≤ call.size := by
    intro call hcall _ _
    rw [List.eq_of_mem_replicate hcall]
    show 24 ≤ 50
    decide
  refine ⟨_, rfl, ((complete_iff_passOk _ _ hroom).2 _ rfl).mpr ?_⟩
  simp [PassOk, CallOk, EmitOk, readdir, emitCached, copyEntries, emitCopies, DirContext.emitDots,
    DirContext.emit, compactDirEntries, cachedEntry, readdirMax, lookedAt, unfit]

/-- Buffers for two items each. The first call returns the dots and has moved its position for the
deleted entry at the end of the list, so the second one begins behind `a`. -/
theorem not_complete_deletedLast :
    ¬ ∀ (reclen : Emitted → Nat) (entries : List DirEntry) (calls : List ReaddirCall)
      (out : List Emitted),
      (∀ call ∈ calls, ∀ x ∈ listing entries, reclen x ≤ call.size) →
        readPass reclen entries 0 calls = some out → Complete entries out := by
  intro h
  have hcomplete := h (fun _ => 24) [cachedEntry 97 false, cachedEntry 98 false,
    cachedEntry 99 false, cachedEntry 100 true] (List.replicate 7 ⟨50, true⟩)
    [.dot, .dotdot, dirent (cachedEntry 98 false), dirent (cachedEntry 99 false)] ?_ rfl
  · have hlisted : dirent (cachedEntry 97 false) ∈ listing [cachedEntry 97 false,
        cachedEntry 98 false, cachedEntry 99 false, cachedEntry 100 true] := by decide
    exact absurd (hcomplete.mem_iff.mpr hlisted) (by decide)
  · intro call hcall _ _
    rw [List.eq_of_mem_replicate hcall]
    decide

end PowerFS.Dir