import BoringOs.Lib.Runs

/-! The receive ring of `sys/dev/e1000.c`. -/

namespace BoringOs.E1000

open Function

/-- `E1000RXDesc`, with the bytes at `addr` for the address and the length. -/
structure RXDesc where
  data : List UInt8
  status : UInt8
  errors : UInt8

/-- `RDESC_STATUS_DD` is set. -/
def RXDesc.Done (desc : RXDesc) : Prop := desc.status &&& 1 ≠ 0

/-- `RDESC_STATUS_EOP` is set and there is no error. -/
def RXDesc.Packet (desc : RXDesc) : Prop := desc.status &&& 2 ≠ 0 ∧ desc.errors = 0

instance (desc : RXDesc) : Decidable desc.Done := inferInstanceAs (Decidable (_ ≠ _))

instance (desc : RXDesc) : Decidable desc.Packet := inferInstanceAs (Decidable (_ ∧ _))

def RXDesc.clear (desc : RXDesc) : RXDesc := { desc with status := 0, errors := 0 }

/-- `E1000Dev`: the ring of `E1000_RX_QLEN` descriptors, the register `E1000_REG_RDT` and the
count of `ioSema`. -/
structure E1000Dev where
  rxDesc : Fin 128 → RXDesc
  rxTail : Fin 128
  rdt : Nat
  ioSema : Nat

/-- The descriptor a number of places behind `rxTail`. -/
def E1000Dev.ahead (dev : E1000Dev) (places : Nat) : RXDesc :=
  dev.rxDesc (Fin.ofNat 128 (dev.rxTail + places))

/-- A descriptor is given back to the card. -/
def E1000Dev.give (dev : E1000Dev) : E1000Dev :=
  { dev with
    rxDesc := update dev.rxDesc dev.rxTail (dev.rxDesc dev.rxTail).clear
    rdt := dev.rxTail
    rxTail := Fin.ofNat 128 (dev.rxTail + 1) }

/-- The body of the loop of `E1000_RXPoll`. -/
def rxBody (dev : E1000Dev) : E1000Dev :=
  let desc := dev.rxDesc dev.rxTail
  let dev := if desc.Packet then { dev with ioSema := dev.ioSema + 1 } else dev
  if desc.errors ≠ 0 then dev.give else dev

def rxPoll : Nat → E1000Dev → Option E1000Dev
  | 0, _ => none
  | fuel + 1, dev => if (dev.rxDesc dev.rxTail).Done then rxPoll fuel (rxBody dev) else some dev

/-- `E1000_Dequeue` from a count of `ioSema`; it sleeps when the count is used up. -/
def dequeue : Nat → E1000Dev → Option (List UInt8 × E1000Dev)
  | 0, _ => none
  | count + 1, dev =>
    let dev := { dev with ioSema := count }
    let desc := dev.rxDesc dev.rxTail
    if desc.Packet then some (desc.data, dev.give) else dequeue count dev

/-- What happens to the ring: the card fills descriptors, and calls return. -/
inductive Event where
  | receive
  | poll
  | dequeue

inductive Step : E1000Dev → Event → E1000Dev → Prop where
  | receive (dev : E1000Dev) (rxDesc : Fin 128 → RXDesc) : Step dev .receive { dev with rxDesc }
  | poll {dev after : E1000Dev} {fuel : Nat} : rxPoll fuel dev = some after → Step dev .poll after
  | dequeue {dev after : E1000Dev} {data : List UInt8} :
    dequeue dev.ioSema dev = some (data, after) → Step dev .dequeue after

/-- The descriptors from `rxTail` on are done and failed, up to one that is not done or around the
ring. -/
def Clears (dev : E1000Dev) (count : Nat) : Prop :=
  (∀ place < count, (dev.ahead place).Done ∧ (dev.ahead place).errors ≠ 0) ∧
    (count < 128 → ¬(dev.ahead count).Done)

variable {dev after : E1000Dev}

theorem ahead_zero (dev : E1000Dev) : dev.ahead 0 = dev.rxDesc dev.rxTail :=
  congrArg dev.rxDesc (Fin.ofNat_val_eq_self dev.rxTail)

theorem ahead_give {place : Nat} (near : place < 127) : dev.give.ahead place = dev.ahead (place + 1) := by
  have other : Fin.ofNat 128 (dev.give.rxTail + place) = Fin.ofNat 128 (dev.rxTail + (place + 1)) := by
    refine Fin.ext ?_
    simp only [E1000Dev.give, Fin.val_ofNat]
    omega
  rw [E1000Dev.ahead, other]
  refine update_of_ne (fun same => ?_) ..
  have := congrArg Fin.val same
  rw [Fin.val_ofNat] at this
  omega

theorem ahead_give_last : ¬(dev.give.ahead 127).Done := by
  have around : Fin.ofNat 128 (dev.give.rxTail + 127) = dev.rxTail := by
    refine Fin.ext ?_
    simp only [E1000Dev.give, Fin.val_ofNat]
    omega
  have cleared : dev.give.ahead 127 = (dev.rxDesc dev.rxTail).clear := by
    rw [E1000Dev.ahead, around]
    exact update_self ..
  rw [cleared]
  change ¬(0 : UInt8) &&& 1 ≠ 0
  decide

theorem rxBody_failed (failed : (dev.ahead 0).errors ≠ 0) : rxBody dev = dev.give := by
  rw [ahead_zero] at failed
  rw [rxBody]
  exact (if_pos failed).trans (congrArg _ (if_neg fun packet => failed packet.2))

-- The next round of the loop is at the same descriptor.
theorem ahead_rxBody (fine : (dev.ahead 0).errors = 0) : (rxBody dev).ahead 0 = dev.ahead 0 := by
  rw [ahead_zero dev] at fine ⊢
  rw [rxBody, if_neg (not_not.mpr fine)]
  split <;> exact ahead_zero dev

theorem clears_succ_iff {count : Nat} (failed : (dev.ahead 0).Done ∧ (dev.ahead 0).errors ≠ 0)
    (near : count ≤ 127) : Clears dev (count + 1) ↔ Clears dev.give count := by
  refine and_congr ⟨fun all place low => ?_, fun all place low => ?_⟩ ⟨fun ends _ => ?_, fun ends low => ?_⟩
  · rw [ahead_give (by omega)]
    exact all (place + 1) (by omega)
  · obtain _ | place := place
    · exact failed
    · rw [← ahead_give (by omega)]
      exact all place (by omega)
  · obtain rfl | low := Nat.eq_or_lt_of_le near
    · exact ahead_give_last
    · rw [ahead_give low]
      exact ends (by omega)
  · rw [← ahead_give (by omega)]
    exact ends (by omega)

theorem rxPoll_clears {fuel : Nat} (returned : rxPoll fuel dev = some after) :
    (∃ count ≤ 128, Clears dev count) ∧ after.ioSema = dev.ioSema := by
  induction fuel generalizing dev with
  | zero => exact nomatch returned
  | succ fuel ih =>
    rw [rxPoll, ← ahead_zero] at returned
    split at returned
    case isFalse idle =>
      cases returned
      exact ⟨⟨0, Nat.zero_le _, fun _ => nofun, fun _ => idle⟩, rfl⟩
    case isTrue done =>
      by_cases failed : (dev.ahead 0).errors = 0
      · obtain ⟨⟨count, -, all, ends⟩, -⟩ := ih returned
        have same := ahead_rxBody failed
        obtain _ | count := count
        · exact absurd (same ▸ done) (ends (by decide))
        · exact absurd (same ▸ failed) (all 0 (by omega)).2
      · rw [rxBody_failed failed] at returned
        obtain ⟨⟨count, near, clears⟩, sema⟩ := ih returned
        have near : count ≤ 127 := by
          by_contra far
          exact ahead_give_last (clears.1 127 (by omega)).1
        exact ⟨⟨count + 1, by omega, (clears_succ_iff ⟨done, failed⟩ near).mpr clears⟩, sema⟩

theorem rxPoll_returns {count : Nat} (near : count ≤ 128) (clears : Clears dev count) :
    ∃ fuel after, rxPoll fuel dev = some after := by
  induction count generalizing dev with
  | zero =>
    refine ⟨1, dev, if_neg ?_⟩
    rw [← ahead_zero]
    exact clears.2 (by decide)
  | succ count ih =>
    have failed := clears.1 0 (by omega)
    obtain ⟨fuel, after, returned⟩ := ih (by omega) ((clears_succ_iff failed (by omega)).mp clears)
    refine ⟨fuel + 1, after, ?_⟩
    rw [rxPoll, ← ahead_zero, if_pos failed.1, rxBody_failed failed.2, returned]

/-- The poll returns unless it meets an error-free descriptor. A run of calls that return leaves the
count at zero. -/
theorem rxPoll_returns_iff (dev : E1000Dev) :
    ((∃ fuel after, rxPoll fuel dev = some after) ↔ ∃ count ≤ 128, Clears dev count) ∧
    ∀ events after, dev.ioSema = 0 → Runs.Run Step dev events after → after.ioSema = 0 := by
  refine ⟨⟨fun ⟨_, _, returned⟩ => (rxPoll_clears returned).1,
    fun ⟨_, near, clears⟩ => rxPoll_returns near clears⟩, fun events after start ran => ?_⟩
  refine ran.invariant (·.ioSema = 0) (fun s event t zero step => ?_) start
  cases step with
  | receive => exact zero
  | poll returned => exact (rxPoll_clears returned).2.trans zero
  | dequeue returned =>
    rw [zero] at returned
    exact nomatch returned

/-- One packet at `rxTail` keeps the poll from returning, and is counted in every round. -/
theorem rxPoll_packet_loops :
    let dev : E1000Dev := ⟨fun place => ⟨[], if place = 0 then 3 else 0, 0⟩, 0, 0, 0⟩
    (∀ fuel, rxPoll fuel dev = none) ∧ (rxBody (rxBody dev)).ioSema = 2 := by
  refine ⟨fun fuel => Option.eq_none_iff_forall_ne_some.mpr fun after returned => ?_, by decide⟩
  obtain ⟨⟨count, -, all, ends⟩, -⟩ := rxPoll_clears returned
  obtain _ | count := count
  · exact ends (by decide) (by decide)
  · exact (all 0 (by omega)).2 (by decide)

end BoringOs.E1000
