import SvpChain.Consensus.Restart

/-!
# Random stake voting

With the strategy `RandomVote` a validator votes with a random quota that fills its window to between one
half and three quarters of its stake, and after height 50 with what is left of its stake.  Everything is
computed with unsigned integers, where a difference below zero is found by a cast.  As long as the sum of
the window stays within the stake, this is the computation with natural numbers.
-/

namespace SvpChain.Consensus

open Core Program

/-- The quota of `vote` as natural numbers, where a difference below zero is zero. -/
def randomQuota (limit pre rand height : ℕ) : ℕ :=
  if 50 < height then limit - pre
  else
    let max := (3 * limit + 3) / 4 - pre
    let min := (limit + 1) / 2 - pre
    rand % (max - min + 1) + min

theorem draw_le (rand high low : ℕ) : rand % (high - low + 1) + low ≤ max high low := by
  have drawn := Nat.mod_lt rand (show 0 < high - low + 1 by omega)
  omega

theorem randomQuota_late {limit pre height : ℕ} (rand : ℕ) (within : pre ≤ limit) (late : 50 < height) :
    pre + randomQuota limit pre rand height = limit := by
  rw [randomQuota, if_pos late]
  omega

/-- While the height is at most 50, the quota fills the window to at least one half of the stake, and to
at most three quarters where it was not fuller before. -/
theorem randomQuota_early {limit pre height : ℕ} (rand : ℕ) (early : height ≤ 50) :
    (limit + 1) / 2 ≤ pre + randomQuota limit pre rand height ∧
      pre + randomQuota limit pre rand height ≤ max pre ((3 * limit + 3) / 4) := by
  rw [randomQuota, if_neg (not_lt.mpr early)]
  have drawn := draw_le rand ((3 * limit + 3) / 4 - pre) ((limit + 1) / 2 - pre)
  simp only
  omega

theorem randomQuota_le {limit pre : ℕ} (rand height : ℕ) (within : pre ≤ limit) :
    pre + randomQuota limit pre rand height ≤ limit := by
  rcases Nat.lt_or_ge 50 height with late | early
  · exact (randomQuota_late rand within late).le
  · have filled : pre + randomQuota limit pre rand height ≤ max pre ((3 * limit + 3) / 4) :=
      (randomQuota_early rand early).2
    omega

namespace Window

/-! ## Machine arithmetic -/

/-- The cast finds every difference below zero, where the numbers are below `2 ^ 63`. -/
theorem toNat_clamp_sub {x pre : UInt64} (x_lt : x.toNat < 2 ^ 63) (pre_lt : pre.toNat < 2 ^ 63) :
    (clamp (x - pre)).toNat = x.toNat - pre.toNat := by
  rw [clamp, UInt64.toNat_sub]
  split
  · rw [UInt64.toNat_zero]
    omega
  · rw [UInt64.toNat_sub]
    omega

theorem toNat_half {limit : UInt64} (small : 3 * limit.toNat + 3 < 2 ^ 64) :
    ((limit + 1) / 2).toNat = (limit.toNat + 1) / 2 := by
  simp only [UInt64.toNat_div, UInt64.toNat_add, UInt64.toNat_ofNat, Nat.reducePow, Nat.reduceMod]
  omega

theorem toNat_threeQuarters {limit : UInt64} (small : 3 * limit.toNat + 3 < 2 ^ 64) :
    ((3 * limit + 3) / 4).toNat = (3 * limit.toNat + 3) / 4 := by
  simp only [UInt64.toNat_div, UInt64.toNat_add, UInt64.toNat_mul, UInt64.toNat_ofNat, Nat.reducePow,
    Nat.reduceMod]
  omega

/-! ## A window within the stake -/

/-- The votes in a random-vote window add up to at most the stake. -/
structure Within (w : Window) : Prop where
  strategy_eq : w.strategy = 1
  small : 3 * w.limit.toNat + 3 < 2 ^ 64
  nonempty : w.voteQuotas ≠ []
  voteAcc_eq : w.voteAcc.toNat = (w.voteQuotas.map UInt64.toNat).sum
  voteAcc_le : w.voteAcc.toNat ≤ w.limit.toNat

variable {w : Window} {first : UInt64} {rest : List UInt64}

theorem Within.first_le (within : w.Within) (votes_eq : w.voteQuotas = first :: rest) :
    first.toNat ≤ w.voteAcc.toNat := by
  rw [within.voteAcc_eq, votes_eq, List.map_cons, List.sum_cons]
  omega

theorem vote_late (strategy_eq : w.strategy = 1) (votes_eq : w.voteQuotas = first :: rest)
    (late : 50 < w.height) (rand : UInt64) : w.vote false rand = .ok (w.limit - w.voteAcc + first, true) := by
  simp [Window.vote, strategy_eq, votes_eq, Window.first, bind, Except.bind, late, pure, Except.pure]

theorem vote_early (strategy_eq : w.strategy = 1) (votes_eq : w.voteQuotas = first :: rest)
    (early : ¬50 < w.height) {high low : UInt64} (high_eq : clamp ((3 * w.limit + 3) / 4 - (w.voteAcc - first)) = high)
    (low_eq : clamp ((w.limit + 1) / 2 - (w.voteAcc - first)) = low) (nonzero : high - low + 1 ≠ 0)
    (rand : UInt64) : w.vote false rand = .ok (rand % (high - low + 1) + low, true) := by
  simp [Window.vote, strategy_eq, votes_eq, Window.first, bind, Except.bind, early, pure, Except.pure,
    high_eq, low_eq, remainder, nonzero]

/-- `vote` returns what it would return with natural numbers. -/
theorem Within.vote_eq (within : w.Within) (votes_eq : w.voteQuotas = first :: rest) (rand : UInt64) :
    ∃ quota, w.vote false rand = .ok (quota, true) ∧
      quota.toNat = randomQuota w.limit.toNat (w.voteAcc.toNat - first.toNat) rand.toNat w.height.toNat := by
  obtain ⟨strategy_eq, small, -, -, voteAcc_le⟩ := id within
  have first_le := within.first_le votes_eq
  have late_iff : 50 < w.height ↔ 50 < w.height.toNat := UInt64.lt_iff_toNat_lt
  rw [randomQuota]
  by_cases late : 50 < w.height
  · refine ⟨_, vote_late strategy_eq votes_eq late rand, ?_⟩
    rw [if_pos (late_iff.mp late)]
    simp only [UInt64.toNat_add, UInt64.toNat_sub]
    omega
  · have pre_eq : (w.voteAcc - first).toNat = w.voteAcc.toNat - first.toNat :=
      UInt64.toNat_sub_of_le _ _ (UInt64.le_iff_toNat_le.mpr first_le)
    have pre_lt : (w.voteAcc - first).toNat < 2 ^ 63 := by omega
    have high_eq := toNat_clamp_sub (x := (3 * w.limit + 3) / 4) (by rw [toNat_threeQuarters small]; omega) pre_lt
    have low_eq := toNat_clamp_sub (x := (w.limit + 1) / 2) (by rw [toNat_half small]; omega) pre_lt
    rw [toNat_threeQuarters small, pre_eq] at high_eq
    rw [toNat_half small, pre_eq] at low_eq
    generalize high_def : clamp ((3 * w.limit + 3) / 4 - (w.voteAcc - first)) = high at high_eq
    generalize low_def : clamp ((w.limit + 1) / 2 - (w.voteAcc - first)) = low at low_eq
    -- The bounds do not cross, so the divisor is what it is for natural numbers.
    have divisor_eq : (high - low + 1).toNat = high.toNat - low.toNat + 1 := by
      simp only [UInt64.toNat_add, UInt64.toNat_sub, UInt64.toNat_one]
      omega
    have nonzero : high - low + 1 ≠ 0 := fun zero => by
      rw [zero, UInt64.toNat_zero] at divisor_eq
      omega
    refine ⟨_, vote_early strategy_eq votes_eq late high_def low_def nonzero rand, ?_⟩
    rw [if_neg (mt late_iff.mpr late), UInt64.toNat_add, UInt64.toNat_mod, divisor_eq, high_eq, low_eq]
    apply Nat.mod_eq_of_lt
    refine (draw_le _ _ _).trans_lt ?_
    omega

theorem Within.update {w' : Window} (within : w.Within) (votes_eq : w.voteQuotas = first :: rest)
    {qc vote height : UInt64} (room : w.voteAcc.toNat - first.toNat + vote.toNat ≤ w.limit.toNat)
    (updated : w.update qc vote height = .ok w') : w'.Within ∧ w'.limit = w.limit := by
  have first_le := within.first_le votes_eq
  by_cases higher : w.height < height
  · obtain ⟨-, -, voted, votes, -, votes_eq', rfl⟩ := (update_eq_ok_iff higher).mp updated
    obtain ⟨rfl, rfl⟩ := List.cons.inj (votes_eq.symm.trans votes_eq')
    obtain ⟨strategy_eq, small, -, voteAcc_eq, voteAcc_le⟩ := within
    have moved : (w.voteAcc - first + vote).toNat = w.voteAcc.toNat - first.toNat + vote.toNat := by
      simp only [UInt64.toNat_add, UInt64.toNat_sub]
      omega
    rw [votes_eq, List.map_cons, List.sum_cons] at voteAcc_eq
    refine ⟨⟨strategy_eq, small, by simp, ?_, ?_⟩, rfl⟩
    · rw [moved]
      simp only [List.map_append, List.sum_append, List.map_cons, List.map_nil, List.sum_cons, List.sum_nil]
      omega
    · rw [moved]
      exact room
  · rw [update_of_not_lt higher] at updated
    exact Except.ok.inj updated ▸ ⟨within, rfl⟩

/-! ## Runs -/

/-- The window that `setupWindow` makes of the genesis certificate, with the own entry in it. -/
structure AtGenesis (w : Window) (own : UInt64) : Prop where
  size_pos : 1 ≤ w.size
  strategy_eq : w.strategy = 1
  height_eq : w.height = 0
  qcQuotas_length : w.qcQuotas.length = w.size
  voteQuotas_eq : w.voteQuotas = List.replicate (w.size - 1) 0 ++ [own]
  voteAcc_eq : w.voteAcc = own

/-- Updates with increasing heights, each with no own vote or with the one that `vote` gave before. -/
inductive Voted (start : Window) : Window → Prop where
  | refl : Voted start start
  | update {w w' : Window} {qc vote height : UInt64} (voted : Voted start w)
      (recorded : vote = 0 ∨ ∃ rand, w.vote false rand = .ok (vote, true)) (higher : w.height < height)
      (updated : w.update qc vote height = .ok w') : Voted start w'

theorem AtGenesis.within {own : UInt64} (start : w.AtGenesis own) (small : 3 * w.limit.toNat + 3 < 2 ^ 64)
    (half : own = 0 ∨ own = (w.limit + 1) / 2) : w.Within := by
  have own_le : own.toNat ≤ w.limit.toNat := by
    rcases half with rfl | rfl
    · exact Nat.zero_le _
    · rw [toNat_half small]
      omega
  have sum_eq : ((List.replicate (w.size - 1) (0 : UInt64) ++ [own]).map UInt64.toNat).sum = own.toNat := by
    simp
  refine ⟨start.strategy_eq, small, ?_, ?_, ?_⟩
  · simp [start.voteQuotas_eq]
  · rw [start.voteAcc_eq, start.voteQuotas_eq, sum_eq]
  · rw [start.voteAcc_eq]
    exact own_le

theorem Voted.within {start : Window} (voted : Voted start w) (within : start.Within) :
    w.Within ∧ w.limit = start.limit := by
  induction voted with
  | refl => exact ⟨within, rfl⟩
  | @update w w' qc vote height _ recorded higher updated ih =>
      obtain ⟨before, limit_eq⟩ := ih
      obtain ⟨first, rest, votes_eq⟩ := List.exists_cons_of_ne_nil before.nonempty
      have pre_le : w.voteAcc.toNat - first.toNat ≤ w.limit.toNat :=
        (Nat.sub_le _ _).trans before.voteAcc_le
      have room : w.voteAcc.toNat - first.toNat + vote.toNat ≤ w.limit.toNat := by
        rcases recorded with rfl | ⟨rand, returned⟩
        · exact pre_le
        · obtain ⟨quota, returned', quota_eq⟩ := before.vote_eq votes_eq rand
          have same : vote = quota := by simpa [returned] using returned'
          rw [same, quota_eq]
          exact randomQuota_le _ _ pre_le
      obtain ⟨after, limit_eq'⟩ := before.update votes_eq room updated
      exact ⟨after, limit_eq'.trans limit_eq⟩

end Window

/-- In every window that updates make of the genesis window, the votes stay within the stake `L`, and
`vote` returns for every random number a quota that is computed without wrapping: with the votes that
stay in the window it lies between `(L + 1) / 2` and `(3 * L + 3) / 4`, or is zero where they are more
already, up to height 50, and fills the window to `L` after that. -/
theorem random_vote_within_stake {start w : Window} {own : UInt64} (genesis : start.AtGenesis own)
    (small : 3 * start.limit.toNat + 3 < 2 ^ 64) (half : own = 0 ∨ own = (start.limit + 1) / 2)
    (voted : Window.Voted start w) (rand : UInt64) :
    w.limit = start.limit ∧ w.voteAcc.toNat ≤ w.limit.toNat ∧
    ∃ first rest quota, w.voteQuotas = first :: rest ∧ first.toNat ≤ w.voteAcc.toNat ∧
      w.vote false rand = .ok (quota, true) ∧
      let pre := w.voteAcc.toNat - first.toNat
      quota.toNat = randomQuota w.limit.toNat pre rand.toNat w.height.toNat ∧
      (w.height.toNat ≤ 50 → (w.limit.toNat + 1) / 2 ≤ pre + quota.toNat ∧
        pre + quota.toNat ≤ max pre ((3 * w.limit.toNat + 3) / 4)) ∧
      (50 < w.height.toNat → pre + quota.toNat = w.limit.toNat) := by
  obtain ⟨within, limit_eq⟩ := voted.within (genesis.within small half)
  obtain ⟨first, rest, votes_eq⟩ := List.exists_cons_of_ne_nil within.nonempty
  obtain ⟨quota, returned, quota_eq⟩ := within.vote_eq votes_eq rand
  refine ⟨limit_eq, within.voteAcc_le, first, rest, quota, votes_eq, within.first_le votes_eq, returned,
    quota_eq, fun early => ?_, fun late => ?_⟩
  · rw [quota_eq]
    exact randomQuota_early _ early
  · rw [quota_eq]
    exact randomQuota_late _ ((Nat.sub_le _ _).trans within.voteAcc_le) late

/-- A window of two places for a stake of 9, at genesis and after a vote of 2. -/
theorem random_vote_within_nine :
    let start : Window := ⟨[0, 5], 5, [0, 5], 5, 7, 9, 0, 2, 1, false⟩
    let w : Window := ⟨[5, 7], 12, [5, 2], 7, 7, 9, 1, 2, 1, false⟩
    start.AtGenesis 5 ∧ start.Voted w ∧ w.limit = start.limit ∧ w.voteAcc.toNat ≤ w.limit.toNat := by
  intro start w
  have genesis : start.AtGenesis 5 := ⟨by decide, rfl, rfl, rfl, rfl, rfl⟩
  have voted : start.Voted w :=
    .update .refl (.inr ⟨2, by decide +kernel⟩) (by decide) (by decide +kernel : start.update 7 2 1 = .ok w)
  obtain ⟨limit_eq, voteAcc_le, -⟩ :=
    random_vote_within_stake genesis (by decide +kernel) (.inr (by decide +kernel)) voted 0
  exact ⟨genesis, voted, limit_eq, voteAcc_le⟩

end SvpChain.Consensus
