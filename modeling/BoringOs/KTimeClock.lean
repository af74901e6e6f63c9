import BoringOs.KTime

/-! The running clock of `sys/kern/ktime.c`: seconds and nanoseconds since the epoch. -/

namespace BoringOs.Time

section

variable {clock : Clock} {tsc : Nat}

theorem tscDiff_eq (after : clock.ktimeLastTSC ≤ tsc) (small : tsc < word64) :
    clock.tscDiff tsc = tsc - clock.ktimeLastTSC := by
  unfold Clock.tscDiff add64 word64 at *
  omega

theorem nanoseconds_fit {epoch micro : Nat} (boot : epoch < 2 ^ 33) (bound : micro < 2 ^ 33 * 1000000) :
    epoch * 1000000000 < word64 ∧ micro * 1000 < word64 ∧
      epoch * 1000000000 + micro * 1000 < word64 := by
  unfold word64
  omega

/-- The product of the ticks and a million wraps around before the division. -/
theorem kTime_GetEpochNS_eq (after : clock.ktimeLastTSC ≤ tsc) (small : tsc < word64)
    (boot : clock.ktimeLastEpoch < 2 ^ 33) (ticks : 1 ≤ clock.ticksPerSecond)
    (near : tsc - clock.ktimeLastTSC < 2 ^ 33 * clock.ticksPerSecond) :
    kTime_GetEpochNS clock tsc = clock.ktimeLastEpoch * 1000000000 +
      (tsc - clock.ktimeLastTSC) * 1000000 % word64 / clock.ticksPerSecond * 1000 := by
  have micro : (tsc - clock.ktimeLastTSC) * 1000000 % word64 / clock.ticksPerSecond < 2 ^ 33 * 1000000 := by
    rw [Nat.div_lt_iff_lt_mul (by omega)]
    calc (tsc - clock.ktimeLastTSC) * 1000000 % word64
        ≤ (tsc - clock.ktimeLastTSC) * 1000000 := Nat.mod_le _ _
      _ < 2 ^ 33 * clock.ticksPerSecond * 1000000 := Nat.mul_lt_mul_of_pos_right near (by decide)
      _ = 2 ^ 33 * 1000000 * clock.ticksPerSecond := mul_right_comm _ _ _
  obtain ⟨base, part, sum⟩ := nanoseconds_fit boot micro
  unfold kTime_GetEpochNS
  rw [tscDiff_eq after small, mul64_of_lt base]
  change add64 _ (mul64 ((tsc - clock.ktimeLastTSC) * 1000000 % word64 / clock.ticksPerSecond) 1000) = _
  rw [mul64_of_lt part, add64_of_lt sum]

theorem kTime_GetEpoch_eq (after : clock.ktimeLastTSC ≤ tsc) (small : tsc < word64)
    (boot : clock.ktimeLastEpoch < 2 ^ 33) (ticks : 1 ≤ clock.ticksPerSecond)
    (near : tsc - clock.ktimeLastTSC < 2 ^ 33 * clock.ticksPerSecond) :
    kTime_GetEpoch clock tsc =
      clock.ktimeLastEpoch + (tsc - clock.ktimeLastTSC) / clock.ticksPerSecond := by
  have secs : (tsc - clock.ktimeLastTSC) / clock.ticksPerSecond < 2 ^ 33 := by
    rw [Nat.div_lt_iff_lt_mul (by omega)]
    exact near
  unfold kTime_GetEpoch
  rw [tscDiff_eq after small, add64_of_lt]
  unfold word64
  omega

end

/-- What the product of a number of ticks and a million loses when it wraps around. -/
def lost (diff : Nat) : Nat := diff * 1000000 / word64 * word64

/-- The loss is made up for by the ticks of the running second. -/
def Covered (ticks diff : Nat) : Prop := lost diff ≤ diff % ticks * 1000000

/-- Within one second the later reading is no smaller. -/
def Ordered (ticks first second : Nat) : Prop :=
  first / ticks = second / ticks →
    (first % ticks * 1000000 - lost first) / ticks ≤ (second % ticks * 1000000 - lost second) / ticks

section

variable {ticks diff first second : Nat}

theorem wrapped_add_lost (diff : Nat) : diff * 1000000 % word64 + lost diff = diff * 1000000 :=
  Nat.mod_add_div' _ _

theorem million_split (ticks diff : Nat) :
    diff * 1000000 = diff / ticks * (1000000 * ticks) + diff % ticks * 1000000 := by
  nth_rewrite 1 [← Nat.div_add_mod' diff ticks]
  rw [Nat.add_mul, Nat.mul_assoc, Nat.mul_comm ticks]

theorem seconds_eq_iff (positive : 1 ≤ ticks) (epoch : Nat) :
    (epoch * 1000000000 + diff * 1000000 % word64 / ticks * 1000) / 1000000000 = epoch + diff / ticks ↔
      Covered ticks diff := by
  have micro : (epoch * 1000000000 + diff * 1000000 % word64 / ticks * 1000) / 1000000000 =
      epoch + diff * 1000000 % word64 / (1000000 * ticks) := by
    rw [Nat.mul_comm 1000000, ← Nat.div_div_eq_div_mul]
    omega
  have whole := million_split ticks diff
  have wrapped := wrapped_add_lost diff
  have upper : diff * 1000000 % word64 / (1000000 * ticks) ≤ diff / ticks := by
    rw [← Nat.mul_div_mul_left diff ticks (show 0 < 1000000 by decide), Nat.mul_comm 1000000 diff]
    exact Nat.div_le_div_right (Nat.mod_le _ _)
  rw [micro, Nat.add_left_cancel_iff, Nat.le_antisymm_iff, and_iff_right upper,
    Nat.le_div_iff_mul_le (by omega), Covered]
  omega

theorem Covered.micro (positive : 1 ≤ ticks) (covered : Covered ticks diff) :
    diff * 1000000 % word64 / ticks =
      diff / ticks * 1000000 + (diff % ticks * 1000000 - lost diff) / ticks := by
  have whole := million_split ticks diff
  have wrapped := wrapped_add_lost diff
  have value : diff * 1000000 % word64 =
      ticks * (diff / ticks * 1000000) + (diff % ticks * 1000000 - lost diff) := by
    unfold Covered at covered
    rw [Nat.mul_comm ticks, Nat.mul_assoc]
    omega
  rw [value, Nat.mul_add_div positive]

theorem micro_le_iff (positive : 1 ≤ ticks) (order : first ≤ second) (one : Covered ticks first)
    (two : Covered ticks second) :
    first * 1000000 % word64 / ticks ≤ second * 1000000 % word64 / ticks ↔
      Ordered ticks first second := by
  have seconds : first / ticks ≤ second / ticks := Nat.div_le_div_right order
  have part : (first % ticks * 1000000 - lost first) / ticks < 1000000 := by
    have rest := Nat.mod_lt first positive
    rw [Nat.div_lt_iff_lt_mul positive]
    omega
  rw [one.micro positive, two.micro positive, Ordered]
  rcases Nat.eq_or_lt_of_le seconds with same | later
  · rw [same]
    simp
  · refine iff_of_true ?_ (fun same => absurd same later.ne)
    have next : first / ticks * 1000000 + 1000000 ≤ second / ticks * 1000000 :=
      Nat.succ_mul .. ▸ Nat.mul_le_mul_right 1000000 later
    exact (Nat.add_le_add_left part.le _).trans (next.trans (Nat.le_add_right _ _))

theorem covered_iff (slow : ticks * 1000000 ≤ word64) (positive : 1 ≤ ticks) :
    Covered ticks diff ↔ diff * 1000000 < word64 := by
  have rest : diff % ticks < ticks := Nat.mod_lt diff positive
  refine ⟨fun covered => Nat.lt_of_not_le fun wraps => ?_, fun fits => ?_⟩
  · have once : 1 * word64 ≤ lost diff :=
      Nat.mul_le_mul_right _ ((Nat.one_le_div_iff (by decide)).mpr wraps)
    unfold Covered at covered
    omega
  · rw [Covered, lost, Nat.div_eq_of_lt fits, Nat.zero_mul]
    exact Nat.zero_le _

end

/-- The nanosecond clock does not run back between the readings and agrees with the seconds. -/
def Consistent (clock : Clock) (t1 t2 : Nat) : Prop :=
  kTime_GetEpochNS clock t1 ≤ kTime_GetEpochNS clock t2 ∧
    kTime_GetEpochNS clock t1 / 1000000000 = kTime_GetEpoch clock t1 ∧
    kTime_GetEpochNS clock t2 / 1000000000 = kTime_GetEpoch clock t2

theorem consistent_iff {clock : Clock} {t1 t2 : Nat} (boot : clock.ktimeLastEpoch < 2 ^ 33)
    (ticks : 1 ≤ clock.ticksPerSecond) (after : clock.ktimeLastTSC ≤ t1) (order : t1 ≤ t2)
    (small : t2 < word64) (near : t2 - clock.ktimeLastTSC < 2 ^ 33 * clock.ticksPerSecond) :
    Consistent clock t1 t2 ↔ Covered clock.ticksPerSecond (t1 - clock.ktimeLastTSC) ∧
      Covered clock.ticksPerSecond (t2 - clock.ktimeLastTSC) ∧
      Ordered clock.ticksPerSecond (t1 - clock.ktimeLastTSC) (t2 - clock.ktimeLastTSC) := by
  have less : t1 - clock.ktimeLastTSC ≤ t2 - clock.ktimeLastTSC := Nat.sub_le_sub_right order _
  have small' : t1 < word64 := Nat.lt_of_le_of_lt order small
  have near' := Nat.lt_of_le_of_lt less near
  rw [Consistent, kTime_GetEpochNS_eq after small' boot ticks near',
    kTime_GetEpochNS_eq (after.trans order) small boot ticks near,
    kTime_GetEpoch_eq after small' boot ticks near',
    kTime_GetEpoch_eq (after.trans order) small boot ticks near, seconds_eq_iff ticks,
    seconds_eq_iff ticks, Nat.add_le_add_iff_left, Nat.mul_le_mul_right_iff (by decide), and_comm,
    and_assoc]
  exact and_congr_right fun one => and_congr_right fun two => micro_le_iff ticks less one two

/-- The clock is right exactly if what the product loses is covered at both readings, with no step back
within one second; for rates up to a millionth of 2 ^ 64, exactly as long as the product fits. -/
theorem kTime_GetEpochNS_iff (clock : Clock) (t1 t2 : Nat) (boot : clock.ktimeLastEpoch < 2 ^ 33)
    (ticks : 1 ≤ clock.ticksPerSecond) (after : clock.ktimeLastTSC ≤ t1) (order : t1 ≤ t2)
    (small : t2 < word64) (near : t2 - clock.ktimeLastTSC < 2 ^ 33 * clock.ticksPerSecond) :
    let (tps, d1, d2) := (clock.ticksPerSecond, t1 - clock.ktimeLastTSC, t2 - clock.ktimeLastTSC)
    (Consistent clock t1 t2 ↔ Covered tps d1 ∧ Covered tps d2 ∧ Ordered tps d1 d2) ∧
    (tps * 1000000 ≤ word64 → (Consistent clock t1 t2 ↔ d2 * 1000000 < word64)) := by
  dsimp only
  have less : t1 - clock.ktimeLastTSC ≤ t2 - clock.ktimeLastTSC := Nat.sub_le_sub_right order _
  have exactly := consistent_iff boot ticks after order small near
  refine ⟨exactly, fun slow => ?_⟩
  rw [exactly, covered_iff slow ticks, covered_iff slow ticks]
  refine ⟨fun right => right.2.1, fun fits => ?_⟩
  have fits' := Nat.lt_of_le_of_lt (Nat.mul_le_mul_right 1000000 less) fits
  refine ⟨fits', fits, fun same => Nat.div_le_div_right ?_⟩
  rw [lost, lost, Nat.div_eq_of_lt fits, Nat.div_eq_of_lt fits']
  have one := Nat.div_add_mod' (t1 - clock.ktimeLastTSC) clock.ticksPerSecond
  have two := Nat.div_add_mod' (t2 - clock.ktimeLastTSC) clock.ticksPerSecond
  rw [same] at one
  omega

theorem kTime_GetEpochNS_two_hours :
    Consistent ⟨1700000000, 5, 2500000000⟩ 9000000000005 18000000000005 :=
  ((kTime_GetEpochNS_iff ⟨1700000000, 5, 2500000000⟩ 9000000000005 18000000000005 (by decide)
    (by decide) (by decide) (by decide) (by decide) (by decide)).2 (by decide)).mpr (by decide)

/-- At 2.5 GHz the product wraps 7379 seconds after boot: the clock goes back by two hours and no longer
agrees with the seconds. -/
theorem kTime_GetEpochNS_runs_back :
    kTime_GetEpochNS ⟨1700000000, 0, 2500000000⟩ 18500000000000 <
        kTime_GetEpochNS ⟨1700000000, 0, 2500000000⟩ 18400000000000 ∧
      kTime_GetEpochNS ⟨1700000000, 0, 2500000000⟩ 18500000000000 / 1000000000 ≠
        kTime_GetEpoch ⟨1700000000, 0, 2500000000⟩ 18500000000000 := by
  decide +kernel

end BoringOs.Time
