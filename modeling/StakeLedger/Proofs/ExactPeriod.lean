/-
**The lock period against its formula.**

The formula of the lock period takes the staked percentage of the supply, rounded down, whatever the
sizes of the two are.  The lock period itself cuts the hundredfold stake off at the greatest word of
128 bits.  Nothing comes of that as long as the hundredfold stake fits, or as long as the supply is
so small that the greatest word still is the reward point of it.  Otherwise the stake no longer
counts: the period is the one at the percentage that the greatest word is of the supply.  That
percentage is below the reward point and below the true one, and so the period is never too short.

Main definitions:

* `StakeLedger.Params.formula` — the formula at a percentage;
* `StakeLedger.Params.exactRate`, `StakeLedger.Params.exactPeriod` — the percentage and the period
  over unbounded integers.

Main results:

* `StakeLedger.Params.lockPeriod_eq_formula` — the lock period is the formula at the percentage that
  is cut off;
* `StakeLedger.Params.lockPeriod_cut_off` — **where the lock period is that of the formula, and what
  it is elsewhere**;
* `StakeLedger.Params.lockPeriod_ne_exactPeriod` — everything staked, and nearly the longest period.
-/
import StakeLedger.Proofs.LockPeriod

set_option autoImplicit false

namespace StakeLedger.Params

open Words

/-- The shortest period from the reward point on, and below it as much longer as the square of the
gap is of the square of the reward point. -/
def formula (params : Params) (rate : Int) : Int :=
  let point : Int := params.rewardPoint
  if point ≤ rate then params.lockMin
  else
    ((params.lockMax : Int) - params.lockMin) * ((point - rate) * (point - rate)) /
      (point * point) + params.lockMin

/-- The staked percentage of the supply, rounded down. -/
def exactRate (totalStake totalSupply : Int) : Int := totalStake * 100 / totalSupply

/-- The lock period by its formula. -/
def exactPeriod (params : Params) (totalStake totalSupply : Int) : Int :=
  params.formula (exactRate totalStake totalSupply)

variable {params : Params} {totalStake totalSupply : Int}

/-! ### The formula in natural numbers -/

theorem formula_of_le {rate : Int} (h : (params.rewardPoint : Int) ≤ rate) :
    params.formula rate = params.lockMin := if_pos h

/-- At a percentage that is not negative the formula is the period at it. -/
theorem formula_natCast (bounds : params.lockMin ≤ params.lockMax) (rate : Nat) :
    params.formula rate = params.periodAt rate := by
  by_cases hreached : params.rewardPoint ≤ rate
  · rw [formula_of_le (Int.ofNat_le.2 hreached), periodAt_of_le hreached]
  · have hless : rate ≤ params.rewardPoint := Nat.le_of_not_le hreached
    have hopen : ¬ (params.rewardPoint : Int) ≤ rate := by omega
    have hmax : max params.lockMax params.lockMin = params.lockMax := Nat.max_eq_left bounds
    have hformula : params.formula rate =
        ((params.lockMax : Int) - params.lockMin) *
          ((params.rewardPoint - rate) * (params.rewardPoint - rate)) /
            (params.rewardPoint * params.rewardPoint) + params.lockMin := if_neg hopen
    rw [hformula, periodAt, hmax, Nat.mul_assoc, Int.natCast_add, Int.natCast_ediv,
      Int.natCast_mul, Int.natCast_mul, Int.natCast_mul, Int.natCast_sub hless,
      Int.natCast_sub bounds]
    exact Int.add_comm _ _

/-! ### The percentage that is cut off -/

/-- The hundredfold stake is cut off at the greatest word of 128 bits. -/
theorem natCast_stakeRate (stake_nonneg : 0 ≤ totalStake) (supply_nonneg : 0 ≤ totalSupply) :
    (stakeRate totalStake totalSupply : Int) =
      min (totalStake * 100) (size128 - 1) / totalSupply := by
  have hgreatest : ((0xffffffffffffffffffffffffffffffff : Nat) : Int) = size128 - 1 := by decide
  have hmin : ((min (totalStake.toNat * 100) 0xffffffffffffffffffffffffffffffff : Nat) : Int) =
      min (totalStake * 100) (size128 - 1) := by omega
  rw [stakeRate, Int.natCast_ediv, hmin, Int.toNat_of_nonneg supply_nonneg]

/-- **The lock period is the formula at the percentage that is cut off.** -/
theorem lockPeriod_eq_formula (valid : params.validate = .ok ()) (stake_nonneg : 0 ≤ totalStake)
    (supply_nonneg : 0 ≤ totalSupply) :
    (params.lockPeriod totalStake totalSupply : Int) =
      params.formula (min (totalStake * 100) (size128 - 1) / totalSupply) := by
  obtain ⟨-, bounds, point, -⟩ := validate_eq_ok_iff.1 valid
  rw [lockPeriod_eq_periodAt point, ← formula_natCast bounds,
    natCast_stakeRate stake_nonneg supply_nonneg]

/-- The formula falls as the percentage rises. -/
theorem formula_anti (bounds : params.lockMin ≤ params.lockMax) {rate higher : Int}
    (nonneg : 0 ≤ rate) (h : rate ≤ higher) : params.formula higher ≤ params.formula rate := by
  obtain ⟨low, rfl⟩ := Int.eq_ofNat_of_zero_le nonneg
  obtain ⟨high, rfl⟩ := Int.eq_ofNat_of_zero_le (Int.le_trans nonneg h)
  rw [formula_natCast bounds, formula_natCast bounds]
  exact Int.ofNat_le.2 (periodAt_anti (Int.ofNat_le.1 h))

/-- Whether the greatest word is as large a part of the supply as the reward point. -/
theorem le_cut_off_iff (supply_pos : 0 < totalSupply) :
    (params.rewardPoint : Int) ≤ (size128 - 1) / totalSupply ↔
      totalSupply * params.rewardPoint < size128 := by
  rw [Int.le_ediv_iff_mul_le supply_pos, Int.mul_comm totalSupply]
  omega

/-! ### Where the period is that of the formula -/

/-- **The lock period is that of the formula where the hundredfold stake fits in 128 bits, and also
where the supply is small enough for the greatest word to reach the reward point.**  Elsewhere it
does not depend on the stake: it is the formula at a percentage below the true one, and no shorter
than the period should be. -/
theorem lockPeriod_cut_off (valid : params.validate = .ok ()) (stake_nonneg : 0 ≤ totalStake)
    (supply_pos : 0 < totalSupply) :
    (totalStake * 100 < size128 ∨ totalSupply * params.rewardPoint < size128 →
      (params.lockPeriod totalStake totalSupply : Int) =
        params.exactPeriod totalStake totalSupply) ∧
    (size128 ≤ totalStake * 100 → size128 ≤ totalSupply * params.rewardPoint →
      (params.lockPeriod totalStake totalSupply : Int) =
          params.formula ((size128 - 1) / totalSupply) ∧
        (size128 - 1) / totalSupply < params.rewardPoint ∧
        (size128 - 1) / totalSupply ≤ exactRate totalStake totalSupply ∧
        params.exactPeriod totalStake totalSupply ≤
          params.lockPeriod totalStake totalSupply) := by
  obtain ⟨-, bounds, -, -⟩ := validate_eq_ok_iff.1 valid
  have hperiod := lockPeriod_eq_formula valid stake_nonneg (Int.le_of_lt supply_pos)
  -- what is cut off is less than the hundredfold stake, and so is its part of the supply
  have hless : size128 ≤ totalStake * 100 →
      (size128 - 1) / totalSupply ≤ exactRate totalStake totalSupply := fun hcut =>
    Int.ediv_le_ediv supply_pos (by omega)
  by_cases hcut : totalStake * 100 < size128
  · have hmin : min (totalStake * 100) (size128 - 1) = totalStake * 100 := by omega
    rw [hmin] at hperiod
    exact ⟨fun _ => hperiod, fun hover => absurd hcut (Int.not_lt.2 hover)⟩
  have hmin : min (totalStake * 100) (size128 - 1) = (size128 : Int) - 1 := by omega
  rw [hmin] at hperiod
  have hrate := hless (Int.not_lt.1 hcut)
  constructor
  · rintro (hfits | hsmall)
    · exact absurd hfits hcut
    · have hreached := (le_cut_off_iff supply_pos).2 hsmall
      rw [hperiod, exactPeriod, formula_of_le hreached,
        formula_of_le (Int.le_trans hreached hrate)]
  · intro _ hlarge
    have hbelow : (size128 - 1) / totalSupply < (params.rewardPoint : Int) :=
      Int.not_le.1 fun hreached =>
        absurd ((le_cut_off_iff supply_pos).1 hreached) (Int.not_lt.2 hlarge)
    have hnonneg : 0 ≤ ((size128 : Int) - 1) / totalSupply :=
      Int.ediv_nonneg (by decide) (Int.le_of_lt supply_pos)
    refine ⟨hperiod, hbelow, hrate, ?_⟩
    rw [hperiod]
    exact formula_anti bounds hnonneg hrate

/-- The main network with a stake whose hundredfold just fits, with one that does not beside a small
supply, and with one that does not beside the greatest supply. -/
theorem lockPeriod_cut_off_mainNetwork :
    mainNetwork.lockPeriod 3402823669209384634633746074317682114 Amount.greatest =
        mainNetwork.exactPeriod 3402823669209384634633746074317682114 Amount.greatest ∧
      mainNetwork.lockPeriod Amount.greatest 1000 =
        mainNetwork.exactPeriod Amount.greatest 1000 ∧
      mainNetwork.lockPeriod 3402823669209384634633746074317682115 Amount.greatest =
        mainNetwork.formula 2 := by
  refine ⟨?_, ?_, ?_⟩
  · exact (@lockPeriod_cut_off mainNetwork 3402823669209384634633746074317682114 Amount.greatest
      rfl (by decide) (by decide)).1 (Or.inl (by decide))
  · exact (@lockPeriod_cut_off mainNetwork Amount.greatest 1000 rfl (by decide) (by decide)).1
      (Or.inr (by decide))
  · exact ((@lockPeriod_cut_off mainNetwork 3402823669209384634633746074317682115 Amount.greatest
      rfl (by decide) (by decide)).2 (by decide) (by decide)).1

/-- **Everything is staked, and the period is not the shortest**: with stake and supply at the
greatest amount the percentage is a hundred, but is taken for two. -/
theorem lockPeriod_ne_exactPeriod :
    mainNetwork.validate = .ok () ∧ exactRate Amount.greatest Amount.greatest = 100 ∧
      mainNetwork.exactPeriod Amount.greatest Amount.greatest = 216000 ∧
      mainNetwork.lockPeriod Amount.greatest Amount.greatest = 827500 :=
  ⟨rfl, by decide, by decide, by decide⟩

end StakeLedger.Params
