/-
**The lock period over all stakes and supplies.**

The lock period depends on the staked percentage alone, which is zero where there is no supply, and
falls as the percentage rises.  The percentage rises with the stake and falls with a positive
supply, rounding and cutting off included, so that the period moves the other way; it starts at the
longest period where nothing is staked and never falls below the shortest.  The numbers on the way
fit the words that hold them: the gap to the reward point is at most a hundred, and so the span of
the periods grows by two factors of at most a hundred before it is divided again.

Main definitions:

* `StakeLedger.Params.lockPeriod?` — **the lock period with every single result checked**;
* `StakeLedger.Params.periodAt` — the lock period at a staked percentage.

Main results:

* `StakeLedger.Params.validate_eq_ok_iff` — consistent parameters;
* `StakeLedger.Params.lockPeriod_eq_periodAt`, `StakeLedger.Params.periodAt_anti` — the period falls
  with the percentage;
* `StakeLedger.Params.lockPeriod?_eq` — no result on the way fails to fit;
* `StakeLedger.Params.lockPeriod_bounded` — **the lock period is bounded and monotone**.
-/
import StakeLedger.Amount
import StakeLedger.Params
import StakeLedger.Words

set_option autoImplicit false

namespace StakeLedger

namespace Params

open Words

/-- The lock period, where every number on the way has to fit its word, every difference has to be
there, and nothing is divided by zero. -/
def lockPeriod? (params : Params) (totalStake totalSupply : Int) : Option Nat :=
  let lockMax := max params.lockMax params.lockMin
  if totalSupply ≤ 0 ∨ params.rewardPoint = 0 then some lockMax
  else do
    let stake ← within? size128 totalStake.toNat
    let supply ← within? size128 totalSupply.toNat
    -- the hundredfold stake is cut off and so always fits
    let rate ← div? (min (stake * 100) (size128 - 1)) supply
    if params.rewardPoint ≤ rate then some params.lockMin
    else do
      let gap ← sub? params.rewardPoint rate
      let span ← sub? lockMax params.lockMin
      let scaled ← within? size128 (span * gap)
      let weighted ← within? size128 (scaled * gap)
      let square ← within? size128 (params.rewardPoint * params.rewardPoint)
      let extra ← div? weighted square
      let extra ← within? size64 extra
      within? size64 (params.lockMin + extra)

/-- The lock period at a staked percentage of the supply. -/
def periodAt (params : Params) (rate : Nat) : Nat :=
  let gap := params.rewardPoint - rate
  params.lockMin + (max params.lockMax params.lockMin - params.lockMin) * gap * gap /
    (params.rewardPoint * params.rewardPoint)

variable {params : Params} {totalStake otherStake totalSupply otherSupply : Int}

/-! ### Parameters -/

/-- Consistent parameters: there is a slot, the periods are in order, and the reward point is a
percentage above zero. -/
theorem validate_eq_ok_iff : params.validate = .ok () ↔
    0 < params.slotMax ∧ params.lockMin ≤ params.lockMax ∧
      0 < params.rewardPoint ∧ params.rewardPoint ≤ 100 := by
  unfold validate
  split
  · exact ⟨nofun, fun h => absurd h.1 (by omega)⟩
  split
  · exact ⟨nofun, fun h => absurd h.2.1 (by omega)⟩
  split
  · exact ⟨nofun, fun h => absurd h.2.2 (by omega)⟩
  · exact ⟨fun _ => by omega, fun _ => rfl⟩

/-! ### The staked percentage -/

/-- More stake is no smaller a part of the supply. -/
theorem stakeRate_mono (h : totalStake ≤ otherStake) (totalSupply : Int) :
    stakeRate totalStake totalSupply ≤ stakeRate otherStake totalSupply := by
  refine Nat.div_le_div_right ?_
  have hstake : totalStake.toNat ≤ otherStake.toNat := Int.toNat_le_toNat h
  omega

/-- Of a larger supply the same stake is no larger a part. -/
theorem stakeRate_anti (positive : 0 < totalSupply) (h : totalSupply ≤ otherSupply)
    (totalStake : Int) : stakeRate totalStake otherSupply ≤ stakeRate totalStake totalSupply :=
  Nat.div_le_div_left (Int.toNat_le_toNat h) (by omega)

/-- Nothing is staked where there is no stake, nor of no supply. -/
theorem stakeRate_of_nonpos (h : totalSupply ≤ 0 ∨ totalStake ≤ 0) :
    stakeRate totalStake totalSupply = 0 := by
  rw [stakeRate]
  obtain h | h := h
  · rw [Int.toNat_of_nonpos h, Nat.div_zero]
  · rw [Int.toNat_of_nonpos h, Nat.zero_mul, Nat.zero_min, Nat.zero_div]

/-! ### The period at a percentage -/

/-- The period falls as the percentage rises. -/
theorem periodAt_anti {rate higher : Nat} (h : rate ≤ higher) :
    params.periodAt higher ≤ params.periodAt rate := by
  have hgap : params.rewardPoint - higher ≤ params.rewardPoint - rate :=
    Nat.sub_le_sub_left h params.rewardPoint
  refine Nat.add_le_add_left (Nat.div_le_div_right ?_) params.lockMin
  exact Nat.mul_le_mul (Nat.mul_le_mul_left _ hgap) hgap

/-- Where nothing is staked the period is the longest. -/
theorem periodAt_zero (point : 0 < params.rewardPoint) :
    params.periodAt 0 = max params.lockMax params.lockMin := by
  rw [periodAt, Nat.sub_zero, Nat.mul_assoc, Nat.mul_div_cancel _ (Nat.mul_pos point point)]
  omega

/-- From the reward point on it is the shortest. -/
theorem periodAt_of_le {rate : Nat} (h : params.rewardPoint ≤ rate) :
    params.periodAt rate = params.lockMin := by
  rw [periodAt, Nat.sub_eq_zero_of_le h, Nat.mul_zero, Nat.zero_div, Nat.add_zero]

theorem lockMin_le_periodAt (params : Params) (rate : Nat) :
    params.lockMin ≤ params.periodAt rate := Nat.le_add_right _ _

/-! ### The lock period -/

/-- **The lock period depends on the staked percentage alone.** -/
theorem lockPeriod_eq_periodAt (point : 0 < params.rewardPoint) (totalStake totalSupply : Int) :
    params.lockPeriod totalStake totalSupply =
      params.periodAt (stakeRate totalStake totalSupply) := by
  unfold lockPeriod
  by_cases hsupply : totalSupply ≤ 0
  · rw [stakeRate_of_nonpos (Or.inl hsupply), periodAt_zero point]
    exact if_pos (Or.inl hsupply)
  have hproper : ¬ (totalSupply ≤ 0 ∨ params.rewardPoint = 0) := by omega
  rw [if_neg hproper]
  by_cases hrate : params.rewardPoint ≤ stakeRate totalStake totalSupply
  · rw [periodAt_of_le hrate]
    exact if_pos hrate
  · exact if_neg hrate

/-- Scaling by two gaps of at most a hundred keeps a number of 64 bits within 128. -/
theorem weighted_lt {span gap : Nat} (hspan : span < size64) (hgap : gap ≤ 100) :
    span * gap < size128 ∧ span * gap * gap < size128 := by
  have hscaled : span * gap ≤ size64 * 100 := Nat.mul_le_mul (Nat.le_of_lt hspan) hgap
  have hweighted : span * gap * gap ≤ size64 * 100 * 100 := Nat.mul_le_mul hscaled hgap
  have hroom : size64 * 100 * 100 < size128 := by decide
  have hless : size64 * 100 ≤ size64 * 100 * 100 := by decide
  omega

/-- **No result on the way fails to fit.** -/
theorem lockPeriod?_eq (valid : params.validate = .ok ()) (word : params.lockMax < size64)
    (stake_inRange : Amount.InRange totalStake) (supply_inRange : Amount.InRange totalSupply) :
    params.lockPeriod? totalStake totalSupply =
      some (params.lockPeriod totalStake totalSupply) := by
  obtain ⟨-, hbounds, point, hpoint⟩ := validate_eq_ok_iff.1 valid
  by_cases hsupply : totalSupply ≤ 0
  · have hlongest : params.lockPeriod totalStake totalSupply =
        max params.lockMax params.lockMin := if_pos (Or.inl hsupply)
    rw [hlongest]
    exact if_pos (Or.inl hsupply)
  have hgreatest : Amount.greatest.toNat < size128 := by decide
  have hstake := Nat.lt_of_le_of_lt (Int.toNat_le_toNat stake_inRange.2) hgreatest
  have htotal := Nat.lt_of_le_of_lt (Int.toNat_le_toNat supply_inRange.2) hgreatest
  have hproper : ¬ (totalSupply ≤ 0 ∨ params.rewardPoint = 0) := by omega
  have hrate : div? (min (totalStake.toNat * 100) (size128 - 1)) totalSupply.toNat =
      some (stakeRate totalStake totalSupply) := div?_of_pos (by omega)
  unfold lockPeriod?
  rw [if_neg hproper, within?_of_lt hstake, within?_of_lt htotal,
    lockPeriod_eq_periodAt point]
  simp only [Option.bind_eq_bind, Option.bind_some, hrate]
  by_cases hreached : params.rewardPoint ≤ stakeRate totalStake totalSupply
  · rw [if_pos hreached, periodAt_of_le hreached]
  · have hgap : params.rewardPoint - stakeRate totalStake totalSupply ≤ 100 := by omega
    have hmax : max params.lockMax params.lockMin = params.lockMax := Nat.max_eq_left hbounds
    have hspan : params.lockMax - params.lockMin < size64 := by omega
    obtain ⟨hscaled, hweighted⟩ := weighted_lt hspan hgap
    have hsquare : params.rewardPoint * params.rewardPoint < size128 :=
      Nat.lt_of_le_of_lt (Nat.mul_le_mul hpoint hpoint) (by decide)
    have hperiod : params.periodAt (stakeRate totalStake totalSupply) < size64 := by
      have hlongest := @periodAt_anti params 0 _ (Nat.zero_le (stakeRate totalStake totalSupply))
      rw [periodAt_zero point, hmax] at hlongest
      omega
    rw [periodAt, hmax] at hperiod ⊢
    have hextra := Nat.lt_of_le_of_lt (Nat.le_add_left _ params.lockMin) hperiod
    simp only [if_neg hreached, sub?_of_le (Nat.le_of_not_le hreached), sub?_of_le hbounds,
      Option.bind_some, within?_of_lt hscaled, within?_of_lt hweighted, within?_of_lt hsquare,
      div?_of_pos (Nat.mul_pos point point), within?_of_lt hextra, within?_of_lt hperiod]

/-- **The lock period is bounded and monotone.**  At consistent parameters it lies between the two
periods, and every number on the way to it fits its word; it never rises with the stake and never
falls with the supply; where nothing is staked or there is no supply it is the longest. -/
theorem lockPeriod_bounded (valid : params.validate = .ok ()) (word : params.lockMax < size64) :
    (∀ totalStake totalSupply,
      params.lockMin ≤ params.lockPeriod totalStake totalSupply ∧
        params.lockPeriod totalStake totalSupply ≤ params.lockMax) ∧
    (∀ totalStake totalSupply, Amount.InRange totalStake → Amount.InRange totalSupply →
      params.lockPeriod? totalStake totalSupply =
        some (params.lockPeriod totalStake totalSupply)) ∧
    (∀ totalStake otherStake totalSupply, totalStake ≤ otherStake →
      params.lockPeriod otherStake totalSupply ≤ params.lockPeriod totalStake totalSupply) ∧
    (∀ totalStake totalSupply otherSupply, 0 < totalSupply → totalSupply ≤ otherSupply →
      params.lockPeriod totalStake totalSupply ≤ params.lockPeriod totalStake otherSupply) ∧
    ∀ totalStake totalSupply, totalSupply ≤ 0 ∨ totalStake ≤ 0 →
      params.lockPeriod totalStake totalSupply = params.lockMax := by
  obtain ⟨-, hbounds, point, -⟩ := validate_eq_ok_iff.1 valid
  have hmax : max params.lockMax params.lockMin = params.lockMax := Nat.max_eq_left hbounds
  have hzero : params.periodAt 0 = params.lockMax := (periodAt_zero point).trans hmax
  have hperiod := @lockPeriod_eq_periodAt params point
  refine ⟨?_, fun totalStake totalSupply => lockPeriod?_eq valid word, ?_, ?_, ?_⟩
  · intro totalStake totalSupply
    rw [hperiod]
    exact ⟨lockMin_le_periodAt params _, hzero ▸ periodAt_anti (Nat.zero_le _)⟩
  · intro totalStake otherStake totalSupply h
    rw [hperiod, hperiod]
    exact periodAt_anti (stakeRate_mono h totalSupply)
  · intro totalStake totalSupply otherSupply positive h
    rw [hperiod, hperiod]
    exact periodAt_anti (stakeRate_anti positive h totalStake)
  · intro totalStake totalSupply h
    rw [hperiod, stakeRate_of_nonpos h, hzero]

/-- The main network, where the hundredfold stake is cut off and where a rounded percentage changes
with one unit of stake or of supply. -/
theorem lockPeriod_bounded_mainNetwork :
    mainNetwork.lockPeriod? Amount.greatest Amount.greatest =
        some (mainNetwork.lockPeriod Amount.greatest Amount.greatest) ∧
      mainNetwork.lockPeriod 350 1000 ≤ mainNetwork.lockPeriod 349 1000 ∧
      mainNetwork.lockPeriod 350 1000 ≤ mainNetwork.lockPeriod 350 1001 ∧
      mainNetwork.lockPeriod (-1) 1000 = 864000 := by
  obtain ⟨-, hfits, hstake, hsupply, hlongest⟩ :=
    @lockPeriod_bounded mainNetwork rfl (by decide)
  exact ⟨hfits _ _ (by decide) (by decide), hstake 349 350 1000 (by decide),
    hsupply 350 1000 1001 (by decide) (by decide), hlongest (-1) 1000 (by decide)⟩

end Params

end StakeLedger
