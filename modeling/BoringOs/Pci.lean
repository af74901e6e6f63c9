import Mathlib.Data.List.Nodup

/-! The enumeration of PCI functions at boot, after `sys/dev/pci.c`. A scan is the list of its calls
of `PCICheckFunction`. -/

namespace BoringOs.Pci

open List

/-- The registers that the scan reads, by bus, device and function. -/
structure Config where
  vendorId : Nat → Nat → Nat → UInt16
  headerType : Nat → Nat → Nat → UInt8

def Present (c : Config) (bus device func : Nat) : Prop := c.vendorId bus device func ≠ 0xFFFF

def Multi (c : Config) (bus device : Nat) : Prop := c.headerType bus device 0 &&& 0x80 ≠ 0

instance (c : Config) (bus device func : Nat) : Decidable (Present c bus device func) :=
  inferInstanceAs (Decidable (_ ≠ _))

instance (c : Config) (bus device : Nat) : Decidable (Multi c bus device) :=
  inferInstanceAs (Decidable (_ ≠ _))

/-- A pass of the loop of `PCIScanDevice`. -/
def checkPresent (c : Config) (bus device func : Nat) : List (Nat × Nat × Nat) :=
  if Present c bus device func then [(bus, device, func)] else []

def pciScanDevice (c : Config) (bus device : Nat) : List (Nat × Nat × Nat) :=
  if Present c bus device 0 then
    (bus, device, 0) ::
      if Multi c bus device then (List.range 8).flatMap (checkPresent c bus device) else []
  else []

def pciScanBus (c : Config) (bus : Nat) : List (Nat × Nat × Nat) :=
  (List.range 32).flatMap (pciScanDevice c bus)

/-- The loop of `PCIScan`, with `left` passes to go. -/
def scanBuses (c : Config) : Nat → Nat → List (Nat × Nat × Nat)
  | 0, _ => []
  | left + 1, busNo =>
    if Present c 0 0 busNo then [] else pciScanBus c busNo ++ scanBuses c left (busNo + 1)

def pciScan (c : Config) : List (Nat × Nat × Nat) :=
  if Multi c 0 0 then scanBuses c 8 0 else pciScanBus c 0

def busCount (c : Config) : Nat :=
  if Multi c 0 0 then ((List.range 8).find? (fun func => ¬ Present c 0 0 func)).getD 8 else 1

def Expected (c : Config) (bus device func : Nat) : Prop :=
  bus < busCount c ∧ device < 32 ∧ Present c bus device 0 ∧
    (func = 0 ∨ Multi c bus device ∧ func < 8 ∧ Present c bus device func)

instance (c : Config) (bus device func : Nat) : Decidable (Expected c bus device func) :=
  inferInstanceAs (Decidable (_ ∧ _))

/-- Every function that should be checked is checked once, and no other one is. -/
def Enumerates (c : Config) : Prop := ∀ bus device func,
  (pciScan c).count (bus, device, func) = if Expected c bus device func then 1 else 0

theorem passes_plain {c : Config} {n : Nat}
    (plain : ∀ device < n, Present c 0 device 0 → ¬ Multi c 0 device) :
    (range n).flatMap (pciScanDevice c 0) =
      ((range n).filter (Present c 0 · 0)).map (fun device => (0, device, 0)) := by
  induction n with
  | zero => rfl
  | succ n ih =>
    have before := ih (fun device below => plain device (Nat.lt_succ_of_lt below))
    rw [range_succ, flatMap_append, filter_append, map_append, before,
      flatMap_singleton]
    by_cases there : Present c 0 n 0
    · simp [pciScanDevice, there, plain n (Nat.lt_succ_self n) there]
    · simp [pciScanDevice, there]

theorem pciScanBus_eq_nil {c : Config} {bus : Nat} :
    pciScanBus c bus = [] ↔ ∀ device < 32, ¬ Present c bus device 0 := by
  simp [pciScanBus, pciScanDevice]

theorem scanBuses_eq_nil {c : Config} {left busNo : Nat} :
    scanBuses c left busNo = [] ↔ ∀ bus, busNo ≤ bus → bus < busNo + left →
      (∀ func, busNo ≤ func → func ≤ bus → ¬ Present c 0 0 func) →
      ∀ device < 32, ¬ Present c bus device 0 := by
  induction left generalizing busNo with
  | zero => exact iff_of_true rfl (fun bus low high => absurd high (Nat.not_lt.mpr low))
  | succ left ih =>
    rw [scanBuses]
    split
    · next there => exact iff_of_true rfl (fun bus low _ absent => absurd there (absent busNo (Nat.le_refl _) low))
    · next absent =>
      rw [append_eq_nil_iff, pciScanBus_eq_nil, ih]
      constructor
      · rintro ⟨here, later⟩ bus low high none
        rcases Nat.eq_or_lt_of_le low with rfl | above
        · exact here
        · exact later bus above (by omega) (fun func least => none func (by omega))
      · refine fun all => ⟨all busNo (Nat.le_refl _) (by omega) ?_, fun bus low high none => ?_⟩
        · intro func least upto
          rwa [Nat.le_antisymm upto least]
        · refine all bus (by omega) (by omega) (fun func least upto => ?_)
          rcases Nat.eq_or_lt_of_le least with rfl | above
          · exact absent
          · exact none func above upto

/-- No device of bus 0 has several functions. -/
def Plain (c : Config) : Prop := ∀ device < 32, Present c 0 device 0 → ¬ Multi c 0 device

/-- Device 0:0 is absent, and so is every device of the buses below its first function. -/
def Vacant (c : Config) : Prop := ¬ Present c 0 0 0 ∧ ∀ bus < 8,
  (∀ func ≤ bus, ¬ Present c 0 0 func) → ∀ device < 32, ¬ Present c bus device 0

theorem enumerates_plain {c : Config} (single : ¬ Multi c 0 0) (plain : Plain c) : Enumerates c := by
  have scan : pciScan c = _ := (if_neg single).trans (passes_plain plain)
  have distinct : (pciScan c).Nodup := by
    rw [scan]
    refine (nodup_range.filter _).map (fun device other same => ?_)
    exact (Prod.mk.inj (Prod.mk.inj same).2).1
  intro bus device func
  rw [distinct.count]
  congr 1
  unfold Plain at plain
  rw [scan, Expected, busCount, if_neg single]
  grind

/-- Function 0 of a device with several functions is checked twice, before the loop and in it. -/
theorem twice_of_multi {c : Config} {device : Nat} (below : device < 32) (there : Present c 0 device 0)
    (multi : Multi c 0 device) : 2 ≤ (pciScanBus c 0).count (0, device, 0) := by
  have part : (pciScanDevice c 0 device).Sublist (pciScanBus c 0) :=
    sublist_flatten_of_mem (mem_map_of_mem (mem_range.mpr below))
  refine Nat.le_trans ?_ (part.count_le _)
  rw [pciScanDevice, if_pos there, if_pos multi, count_cons_self, Nat.succ_le_succ_iff, one_le_count_iff,
    mem_flatMap]
  exact ⟨0, by decide, by simp [checkPresent, there]⟩

theorem enumerates_of_absent {c : Config} (multi : Multi c 0 0) (absent : ¬ Present c 0 0 0) :
    Enumerates c ↔ pciScan c = [] := by
  have none : ∀ bus device func, ¬ Expected c bus device func := by
    simp [Expected, busCount, multi, absent, range_succ_eq_map]
  refine ⟨fun right => eq_nil_iff_forall_not_mem.mpr fun call member => ?_, fun empty bus device func => ?_⟩
  · have counted := right call.1 call.2.1 call.2.2
    rw [if_neg (none _ _ _)] at counted
    exact count_eq_zero.mp counted member
  · rw [empty, if_neg (none _ _ _), count_nil]

/-- The scan is right exactly if device 0:0 has one function and no device of bus 0 has several, or if
there is nothing to be found where it looks. -/
theorem pciScan_enumerates_iff (c : Config) :
    Enumerates c ↔ if Multi c 0 0 then Vacant c else Plain c := by
  split
  · next multi =>
    by_cases there : Present c 0 0 0
    · refine iff_of_false (fun right => ?_) (fun vacant => vacant.1 there)
      have counted := right 0 0 0
      have due : Expected c 0 0 0 := by
        refine ⟨?_, by decide, there, .inl rfl⟩
        rw [busCount, if_pos multi]
        cases found : (range 8).find? (fun func => ¬ Present c 0 0 func) with
        | none => decide
        | some func =>
          refine Nat.pos_of_ne_zero fun zero => ?_
          have absent := find?_some found
          simp_all
      rw [pciScan, if_pos multi, scanBuses, if_pos there, if_pos due] at counted
      cases counted
    · rw [enumerates_of_absent multi there, pciScan, if_pos multi, scanBuses_eq_nil]
      simp [Vacant, there]
  · next single =>
    refine ⟨fun right device below there multi => ?_, enumerates_plain single⟩
    have counted := right 0 device 0
    have twice := twice_of_multi below there multi
    rw [pciScan, if_neg single] at counted
    split at counted <;> omega

/-- Device 0:0 with a header of the given type, and device 0:1 with the functions 0 and 1. -/
def twoDevices (host : UInt8) (other : UInt8) : Config where
  vendorId bus device func :=
    if bus = 0 ∧ (device = 0 ∧ func = 0 ∨ device = 1 ∧ func < 2) then 0x8086 else 0xFFFF
  headerType _ device _ := if device = 0 then host else other

/-- Function 0 of the second device is checked twice. With several functions in device 0:0, no bus
is scanned. -/
theorem pciScan_misses :
    ¬ Enumerates (twoDevices 0 0x80) ∧ (pciScan (twoDevices 0 0x80)).count (0, 1, 0) = 2 ∧
    ¬ Enumerates (twoDevices 0x80 0) ∧ pciScan (twoDevices 0x80 0) = [] := by
  refine ⟨fun enumerates => ?_, by decide, fun enumerates => ?_, by decide⟩
  · exact absurd (enumerates 0 1 0) (by decide)
  · exact absurd (enumerates 0 0 0) (by decide)

end BoringOs.Pci
