import PowerFS.Net.Submit

namespace PowerFS.Net

/-! The search of `powerfs_request_submit` for the leader of a shard when every other filer answers
with a redirect to itself. -/

/-- One filer of the pool accepts the request, and every other one names itself. Filers have different
addresses. -/
structure OneLeader (env : SubmitEnv) (leader : Nat) : Prop where
  usable : ∀ i < env.filers.length, usableAt env.filers i = true
  distinct : ∀ (i j : Nat) (f g : Filer), env.filers[i]? = some f → env.filers[j]? = some g →
    f.server = g.server → i = j
  leader_lt : leader < env.filers.length
  accepts : ∀ k, ∃ status, env.send k leader = .answered status
  refuses : ∀ (k i : Nat) (f : Filer), env.filers[i]? = some f → i ≠ leader →
    ∃ body, env.send k i = .redirect body ∧ parseRedirect body = .ok f.server

/-- The request comes to the leader, with at most `m` sends and no deadline in the way. -/
def DeliversWithin (env : SubmitEnv) (leader : Nat) (route : LeaderRoute) (m : Nat) : Prop :=
  ∃ sends, sends.length ≤ m ∧ sends.getLast? = some leader ∧
    ∃ fuel, requestSubmit env (fun _ => false) fuel route = some ⟨sends, none⟩

/-- The filer that the route names, if it is valid. -/
def SubmitEnv.firstChoice (env : SubmitEnv) (route : LeaderRoute) : Option Nat :=
  if env.inTable ∧ route.state = .valid then route.leader else none

/-- The order of the search: the first choice, then the other filers from the lowest index on. -/
def visit : Option Nat → Nat → Nat
  | none, t => t
  | some k, t => if t = 0 then k else if t ≤ k then t - 1 else t

/-- The place of a filer in this order. -/
def searchRank : Option Nat → Nat → Nat
  | none, i => i
  | some k, i => if i = k then 0 else if i < k then i + 1 else i

theorem visit_searchRank (first : Option Nat) (i : Nat) : visit first (searchRank first i) = i := by
  cases first with
  | none => rfl
  | some k =>
    simp only [visit, searchRank]
    grind

theorem searchRank_visit (first : Option Nat) (t : Nat) : searchRank first (visit first t) = t := by
  cases first with
  | none => rfl
  | some k =>
    simp only [visit, searchRank]
    grind

variable {first : Option Nat} {t i : Nat}

/-- What comes before the `t`-th filer in the pool comes before it in the search. -/
theorem searchRank_lt_of_lt (ht : first = none ∨ 0 < t)
    (h : i < visit first t) : searchRank first i < t := by
  cases first with
  | none => exact h
  | some k =>
    have hpos : 0 < t := ht.resolve_left nofun
    simp only [visit, searchRank] at h ⊢
    grind

theorem searchRank_lt {n : Nat} (hfirst : ∀ k ∈ first, k < n) (hi : i < n) :
    searchRank first i < n := by
  cases first with
  | none => exact hi
  | some k =>
    have hk := hfirst k rfl
    simp only [searchRank]
    grind

theorem visit_lt {n : Nat} (hfirst : ∀ k ∈ first, k < n) (hi : i < n)
    (ht : t ≤ searchRank first i) : visit first t < n := by
  cases first with
  | none => exact Nat.lt_of_le_of_lt ht hi
  | some k =>
    have hk := hfirst k rfl
    simp only [visit, searchRank] at ht ⊢
    grind

/-- The place in the order that round `j` comes to. With the list full, the search goes to and fro
between two filers. -/
def turn (j : Nat) : Nat := if j < maxBlacklisted then j else maxBlacklisted + j % 2

variable {j : Nat}

theorem turn_of_le (h : j ≤ 9) : turn j = j := by
  simp only [turn, maxBlacklisted]
  grind

theorem turn_le (j : Nat) : turn j ≤ 9 := by
  simp only [turn, maxBlacklisted]
  grind

/-- The filers that round `j + 1` passes over are the known ones and the one tried last. -/
theorem turn_succ {m : Nat} (h : m < turn (j + 1)) : m < min (j + 1) maxBlacklisted ∨ m = turn j := by
  simp only [turn, maxBlacklisted] at h ⊢
  grind

theorem turn_succ_ne (j : Nat) : turn j ≠ turn (j + 1) := by
  simp only [turn]
  grind

theorem min_le_turn (j : Nat) : min j maxBlacklisted ≤ turn j := by
  simp only [turn]
  grind

section Search

variable (env : SubmitEnv) (route : LeaderRoute)

def SubmitEnv.serverAt (i : Nat) : Server := (env.filers[i]?.map (·.server)).getD ⟨[], 0⟩

/-- The addresses of the first `b` filers of the search. -/
def known (b : Nat) : List Server :=
  (List.range b).map fun t => env.serverAt (visit (env.firstChoice route) t)

/-- The search before round `j`, if no filer so far was the leader. -/
def searchState (j : Nat) : Search where
  route := if j = 0 then route else env.demote route
  lastTried := if j = 0 then none else some (visit (env.firstChoice route) (turn (j - 1)))
  badSelf := known env route (min j maxBlacklisted)
  staleCount := 0
  eagainRetries := 0

theorem searchState_zero : searchState env route 0 = .start route := rfl

end Search

section Rounds

variable {env : SubmitEnv} {leader : Nat} {route : LeaderRoute}

theorem OneLeader.serverAt_inj (h : OneLeader env leader)
    (hi : i < env.filers.length) (hj : j < env.filers.length)
    (heq : env.serverAt i = env.serverAt j) : i = j := by
  refine h.distinct i j _ _ (List.getElem?_eq_getElem hi) (List.getElem?_eq_getElem hj) ?_
  simpa [SubmitEnv.serverAt, hi, hj] using heq

variable {b : Nat}

section

variable (h : OneLeader env leader)
  (hb : ∀ t < b, visit (env.firstChoice route) t < env.filers.length) (hi : i < env.filers.length)
include h hb hi

theorem OneLeader.mem_known_iff :
    env.serverAt i ∈ known env route b ↔ searchRank (env.firstChoice route) i < b := by
  simp only [known, List.mem_map, List.mem_range]
  constructor
  · rintro ⟨t, ht, heq⟩
    rw [← h.serverAt_inj (hb t ht) hi heq, searchRank_visit]
    exact ht
  · intro hlt
    exact ⟨_, hlt, by rw [visit_searchRank]⟩

theorem OneLeader.blacklistedAt_iff :
    blacklistedAt env.filers (known env route b) i = true ↔
      searchRank (env.firstChoice route) i < b := by
  rw [← h.mem_known_iff hb hi]
  simp [blacklistedAt, SubmitEnv.serverAt, hi]

end

/-- The search finds the `t`-th filer of the order, if it passes over those before it. -/
theorem OneLeader.searchFiler_eq (h : OneLeader env leader) {lastTried : Option Nat}
    (hb : ∀ m ≤ t, visit (env.firstChoice route) m < env.filers.length) (hbt : b ≤ t)
    (hstart : env.firstChoice route = none ∨ 0 < t)
    (hpass : ∀ m < t, m < b ∨ lastTried = some (visit (env.firstChoice route) m))
    (hlast : lastTried ≠ some (visit (env.firstChoice route) t)) :
    searchFiler env.filers lastTried (known env route b)
      = some (visit (env.firstChoice route) t) := by
  have hknown : ∀ m < b, visit (env.firstChoice route) m < env.filers.length := fun m hm =>
    hb m (by omega)
  have hlt := hb t (Nat.le_refl t)
  have hfresh : (List.range env.filers.length).find? (fun i => usableAt env.filers i &&
      lastTried ≠ some i && !blacklistedAt env.filers (known env route b) i)
        = some (visit (env.firstChoice route) t) := by
    rw [List.find?_range_eq_some]
    refine ⟨?_, List.mem_range.mpr hlt, fun i hi => ?_⟩
    · have hnot : ¬ blacklistedAt env.filers (known env route b)
          (visit (env.firstChoice route) t) = true := by
        rw [h.blacklistedAt_iff hknown hlt, searchRank_visit]
        omega
      simp [h.usable _ hlt, hlast, hnot]
    · -- everything below has had its turn
      have hrank := searchRank_lt_of_lt hstart hi
      obtain hlow | htried := hpass _ hrank
      · have hblack := (h.blacklistedAt_iff hknown (by omega)).mpr hlow
        simp [hblack]
      · rw [visit_searchRank] at htried
        simp [htried]
  rw [searchFiler, hfresh]

theorem seen_demote_state : (env.seen (env.demote route)).state ≠ .valid := by
  simp only [SubmitEnv.seen, SubmitEnv.demote]
  cases env.inTable with
  | false => simp
  | true =>
    cases hstate : route.state <;> simp [hstate]

theorem OneLeader.choose_zero (h : OneLeader env leader)
    (hroute : ∀ k ∈ env.firstChoice route, k < env.filers.length)
    (hvalid : route.state = .valid → route.leader ≠ none) :
    (env.choose (searchState env route 0)).1 = some (visit (env.firstChoice route) 0) := by
  have hpos : 0 < env.filers.length := Nat.lt_of_le_of_lt (Nat.zero_le _) h.leader_lt
  have hchoose : (env.choose (searchState env route 0)).1 =
      (selectFiler env.filers (env.seen route).leader (env.seen route).state none []).1 := rfl
  rw [hchoose]
  by_cases hfirst : env.inTable = true ∧ route.state = .valid
  · obtain ⟨k, hk⟩ := Option.ne_none_iff_exists'.mp (hvalid hfirst.2)
    have hchoice : env.firstChoice route = some k := by
      rw [SubmitEnv.firstChoice, if_pos hfirst, hk]
    have hlt := hroute k hchoice
    have huse := h.usable k hlt
    have hconn : connectedAt env.filers k = true := by
      rw [usableAt, List.getElem?_eq_getElem hlt, Option.any_some, Bool.and_eq_true] at huse
      rw [connectedAt, List.getElem?_eq_getElem hlt]
      exact huse.2
    have hblack : blacklistedAt env.filers [] k = false := by simp [blacklistedAt]
    rw [SubmitEnv.seen, if_pos hfirst.1, hfirst.2, hk, selectFiler_valid hconn hblack, hchoice]
    rfl
  · have hchoice : env.firstChoice route = none := by rw [SubmitEnv.firstChoice, if_neg hfirst]
    have hstate : (env.seen route).state ≠ .valid := by
      simp only [SubmitEnv.seen]
      cases htable : env.inTable with
      | false => simp
      | true => simpa [htable] using hfirst
    have hsearch : searchFiler env.filers none (known env route 0)
        = some (visit (env.firstChoice route) 0) := by
      refine h.searchFiler_eq (fun m hm => ?_) (Nat.le_refl 0) (.inl hchoice)
        (fun m hm => absurd hm (Nat.not_lt_zero m)) (by simp)
      rw [hchoice]
      exact Nat.lt_of_le_of_lt hm hpos
    rw [selectFiler_search hstate]
    exact hsearch

theorem OneLeader.choose_succ (h : OneLeader env leader)
    (hb : ∀ m ≤ turn (j + 1), visit (env.firstChoice route) m < env.filers.length)
    (hpos : 0 < turn (j + 1)) : (env.choose (searchState env route (j + 1))).1
      = some (visit (env.firstChoice route) (turn (j + 1))) := by
  have hchoose : (env.choose (searchState env route (j + 1))).1 =
      (selectFiler env.filers (env.seen (env.demote route)).leader
        (env.seen (env.demote route)).state (some (visit (env.firstChoice route) (turn j)))
        (known env route (min (j + 1) maxBlacklisted))).1 := rfl
  rw [hchoose, selectFiler_search seen_demote_state]
  apply h.searchFiler_eq hb (min_le_turn (j + 1)) (.inr hpos)
  · intro m hm
    obtain hlow | rfl := turn_succ hm
    · exact .inl hlow
    · exact .inr rfl
  · intro heq
    -- two turns in a row are different filers
    have hrank := congrArg (searchRank (env.firstChoice route)) (Option.some.inj heq)
    rw [searchRank_visit, searchRank_visit] at hrank
    exact turn_succ_ne j hrank

theorem OneLeader.choose (h : OneLeader env leader)
    (hroute : ∀ k ∈ env.firstChoice route, k < env.filers.length)
    (hvalid : route.state = .valid → route.leader ≠ none)
    (hturn : turn j ≤ searchRank (env.firstChoice route) leader) :
    (env.choose (searchState env route j)).1
      = some (visit (env.firstChoice route) (turn j)) := by
  cases j with
  | zero => exact h.choose_zero hroute hvalid
  | succ j =>
    refine h.choose_succ (fun m hm => visit_lt hroute h.leader_lt (by omega)) ?_
    have hle := min_le_turn (j + 1)
    simp only [maxBlacklisted] at hle
    omega

theorem demote_demote : env.demote (env.demote route) = env.demote route := by
  simp only [SubmitEnv.demote]
  grind

section

variable (h : OneLeader env leader) (hroute : ∀ k ∈ env.firstChoice route, k < env.filers.length)
include h hroute

theorem OneLeader.selfRedirect (hturn : turn j ≤ searchRank (env.firstChoice route) leader) :
    env.selfRedirect { searchState env route j with
        lastTried := some (visit (env.firstChoice route) (turn j)) }
      (env.serverAt (visit (env.firstChoice route) (turn j))) = searchState env route (j + 1) := by
  have hlt : ∀ m ≤ turn j, visit (env.firstChoice route) m < env.filers.length := fun m hm =>
    visit_lt hroute h.leader_lt (by omega)
  have hnew : env.serverAt (visit (env.firstChoice route) (turn j)) ∉
      known env route (min j maxBlacklisted) := by
    have hle := min_le_turn j
    rw [h.mem_known_iff (fun m hm => hlt m (by omega)) (hlt _ (Nat.le_refl _)), searchRank_visit]
    omega
  have hdemote : env.demote (searchState env route j).route = env.demote route := by
    simp only [searchState]
    split
    · rfl
    · exact demote_demote
  have hlen : (known env route (min j maxBlacklisted)).length = min j maxBlacklisted := by
    simp [known]
  rw [selfRedirect_new hnew]
  show Search.mk (env.demote (searchState env route j).route) _
    (if (known env route (min j maxBlacklisted)).length < maxBlacklisted then _ else _) 0 0 = _
  rw [hdemote, hlen]
  by_cases hj : j < maxBlacklisted
  · have hmin : min j maxBlacklisted = j := Nat.min_eq_left (Nat.le_of_lt hj)
    have hmin' : min (j + 1) maxBlacklisted = j + 1 := Nat.min_eq_left hj
    have hturnj : turn j = j := by rw [turn, if_pos hj]
    simp only [searchState, hmin, hmin']
    simp [hj, hturnj, known, List.range_succ]
  · have hmin : min j maxBlacklisted = maxBlacklisted := Nat.min_eq_right (by omega)
    have hmin' : min (j + 1) maxBlacklisted = maxBlacklisted := Nat.min_eq_right (by omega)
    simp [searchState, hmin, hmin']

section

variable (hvalid : route.state = .valid → route.leader ≠ none)
include hvalid

theorem OneLeader.round_again (hturn : turn j < searchRank (env.firstChoice route) leader) :
    env.round j (searchState env route j) =
      (some (visit (env.firstChoice route) (turn j)), .again (searchState env route (j + 1))) := by
  have hchoose := h.choose hroute hvalid (Nat.le_of_lt hturn)
  have hlt : visit (env.firstChoice route) (turn j) < env.filers.length :=
    visit_lt hroute h.leader_lt (Nat.le_of_lt hturn)
  obtain ⟨f, hf⟩ : ∃ f, env.filers[visit (env.firstChoice route) (turn j)]? = some f :=
    ⟨_, List.getElem?_eq_getElem hlt⟩
  have hserver : f.server = env.serverAt (visit (env.firstChoice route) (turn j)) := by
    simp [SubmitEnv.serverAt, hf]
  have hne : visit (env.firstChoice route) (turn j) ≠ leader := by
    intro heq
    rw [← heq, searchRank_visit] at hturn
    omega
  obtain ⟨body, hsend, hparse⟩ := h.refuses j _ f hf hne
  have hself := h.selfRedirect hroute (Nat.le_of_lt hturn)
  simp only [SubmitEnv.round, hchoose, choose_snd hchoose, hf, hsend, SubmitEnv.onReply, hparse,
    SubmitEnv.onRedirect, if_true]
  rw [hserver, hself]

theorem OneLeader.round_done (hturn : turn j = searchRank (env.firstChoice route) leader) :
    env.round j (searchState env route j) = (some leader, .done none) := by
  have hchoose := h.choose hroute hvalid (Nat.le_of_eq hturn)
  rw [hturn, visit_searchRank] at hchoose
  obtain ⟨status, hsend⟩ := h.accepts j
  simp only [SubmitEnv.round, hchoose, List.getElem?_eq_getElem h.leader_lt, hsend,
    SubmitEnv.onReply]

theorem OneLeader.rounds {m : Nat}
    (hturn : ∀ j < m, turn j < searchRank (env.firstChoice route) leader) (fuel : Nat) :
    requestSubmit env (fun _ => false) (m + fuel) route =
      (submitLoop env (fun _ => false) fuel m (searchState env route m)).map fun out =>
        { out with sends := (List.range m).map (fun j => visit (env.firstChoice route) (turn j))
            ++ out.sends } := by
  exact submitLoop_again (fun j hj => ⟨rfl, h.round_again hroute hvalid (hturn j hj)⟩) fuel

theorem OneLeader.never (hrank : 9 < searchRank (env.firstChoice route) leader) (fuel : Nat) :
    requestSubmit env (fun _ => false) fuel route = none := by
  have hturn : ∀ j < fuel, turn j < searchRank (env.firstChoice route) leader := fun j _ =>
    Nat.lt_of_le_of_lt (turn_le j) hrank
  exact h.rounds hroute hvalid hturn 0

end

end

end Rounds

/-- The leader is found exactly when it is among the first ten filers of the search; then it takes no
more sends than there are filers. -/
theorem deliversWithin_iff {env : SubmitEnv} {leader : Nat} {route : LeaderRoute}
    (h : OneLeader env leader)
    (hroute : route.state = .valid → ∃ k < env.filers.length, route.leader = some k) {c : Nat}
    (hc : 0 < c) : DeliversWithin env leader route (c * env.filers.length) ↔
      searchRank (env.firstChoice route) leader ≤ 9 := by
  have hfirst : ∀ k ∈ env.firstChoice route, k < env.filers.length := by
    intro k hk
    rw [SubmitEnv.firstChoice] at hk
    split at hk
    · next hvalid =>
      obtain ⟨k', hlt, heq⟩ := hroute hvalid.2
      cases heq.symm.trans hk
      exact hlt
    · cases hk
  have hvalid : route.state = .valid → route.leader ≠ none := by
    intro hstate hnone
    obtain ⟨k, -, heq⟩ := hroute hstate
    cases hnone.symm.trans heq
  constructor
  · rintro ⟨sends, -, -, fuel, hrun⟩
    by_contra hlate
    cases (h.never hfirst hvalid (by omega) fuel).symm.trans hrun
  · intro hrank
    generalize hp : searchRank (env.firstChoice route) leader = p at hrank
    have hlt : p < env.filers.length := hp ▸ searchRank_lt hfirst h.leader_lt
    have hturn : ∀ j < p, turn j < searchRank (env.firstChoice route) leader := by
      intro j hj
      rw [turn_of_le (by omega), hp]
      exact hj
    have hlast := h.round_done hfirst hvalid (show turn p = _ by rw [turn_of_le hrank, hp])
    have hrounds := h.rounds hfirst hvalid hturn 1
    rw [submitLoop, hlast] at hrounds
    refine ⟨_, ?_, ?_, p + 1, hrounds⟩
    · simp only [List.length_append, List.length_map, List.length_range]
      exact Nat.le_trans hlt (Nat.le_mul_of_pos_left _ hc)
    · simp

/-- Eleven filers `a:1` to `k:1`, of which the one with index `leader` accepts requests. -/
def elevenFilers (leader : Nat) : SubmitEnv where
  filers := (List.range 11).map fun i => ⟨⟨[97 + UInt8.ofNat i], 1⟩, true, .connected⟩
  inTable := true
  send := fun _ i =>
    if i = leader then .answered 0
    else .redirect [fldOwner, 0, 0, 0, 3, 97 + UInt8.ofNat i, 58, 49]
  park := fun _ => .timedOut

theorem elevenFilers_get {leader : Nat} {f : Filer}
    (h : (elevenFilers leader).filers[i]? = some f) :
    i < 11 ∧ f.server = ⟨[97 + UInt8.ofNat i], 1⟩ := by
  obtain ⟨hlt, rfl⟩ := List.getElem?_eq_some_iff.mp h
  have hi : i < 11 := hlt
  exact ⟨hi, by simp [elevenFilers]⟩

theorem elevenFilers_oneLeader {leader : Nat} (h : leader < 11) :
    OneLeader (elevenFilers leader) leader where
  usable i hi := by
    have hlt : i < 11 := hi
    simp [usableAt, elevenFilers, hlt]
  distinct i j f g hf hg heq := by
    obtain ⟨hi, hfs⟩ := elevenFilers_get hf
    obtain ⟨hj, hgs⟩ := elevenFilers_get hg
    rw [hfs, hgs] at heq
    have hinj : ∀ i < 11, ∀ j < 11,
        (⟨[97 + UInt8.ofNat i], 1⟩ : Server) = ⟨[97 + UInt8.ofNat j], 1⟩ → i = j := by decide
    exact hinj i hi j hj heq
  leader_lt := h
  accepts k := ⟨0, by simp [elevenFilers]⟩
  refuses k i f hf hne := by
    obtain ⟨hi, hserver⟩ := elevenFilers_get hf
    have hparse : ∀ i < 11, parseRedirect [fldOwner, 0, 0, 0, 3, 97 + UInt8.ofNat i, 58, 49]
        = .ok ⟨[97 + UInt8.ofNat i], 1⟩ := by decide
    exact ⟨_, by simp [elevenFilers, hne]; rfl, by rw [hserver]; exact hparse i hi⟩

theorem deliversWithin_tenth : DeliversWithin (elevenFilers 9) 9 ⟨none, .unknown⟩ (1 * 11) := by
  have hroute : (⟨none, .unknown⟩ : LeaderRoute).state = .valid →
      ∃ k < (elevenFilers 9).filers.length, (⟨none, .unknown⟩ : LeaderRoute).leader = some k :=
    nofun
  exact (deliversWithin_iff (elevenFilers_oneLeader (by decide)) hroute (by decide)).mpr
    (by decide)

/-- The eleventh filer is not found, in any number of rounds. -/
theorem not_deliversWithin_all : ¬ ∃ c, ∀ env leader route, env.filers.length ≤ maxFilers →
    OneLeader env leader →
    (route.state = .valid → ∃ k < env.filers.length, route.leader = some k) →
    DeliversWithin env leader route (c * env.filers.length) := by
  rintro ⟨c, hall⟩
  obtain ⟨sends, -, -, fuel, hrun⟩ :=
    hall (elevenFilers 10) 10 ⟨none, .unknown⟩ (by decide) (elevenFilers_oneLeader (by decide)) nofun
  have hfirst : (elevenFilers 10).firstChoice ⟨none, .unknown⟩ = none := by decide
  have hnever : requestSubmit (elevenFilers 10) (fun _ => false) fuel ⟨none, .unknown⟩ = none :=
    (elevenFilers_oneLeader (by decide)).never (fun k hk => nomatch hfirst.symm.trans hk) nofun
      (by decide) fuel
  cases hnever.symm.trans hrun

end PowerFS.Net
