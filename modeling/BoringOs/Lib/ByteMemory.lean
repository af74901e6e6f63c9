import Mathlib.Data.Nat.Bitwise
import Mathlib.Tactic.Ring

/-! Byte-addressed memories, block copies and little-endian words. -/

namespace ByteMemory

open List Function

abbrev Memory := Nat → UInt8

/-- `memcpy` from one memory to another, as a function of the destination address. -/
def copyBytes (target : Memory) (dest : Nat) (source : Memory) (start count : Nat) : Memory :=
  fun address =>
    if dest ≤ address ∧ address < dest + count then source (start + (address - dest))
    else target address

theorem copyBytes_inside (target source : Memory) (dest start count address : Nat)
    (low : dest ≤ address) (high : address < dest + count) :
    copyBytes target dest source start count address = source (start + (address - dest)) := by
  simp only [copyBytes, low, high, and_self, ↓reduceIte]

theorem copyBytes_offset (target source : Memory) (dest start count index : Nat)
    (inside : index < count) :
    copyBytes target dest source start count (dest + index) = source (start + index) := by
  rw [copyBytes_inside target source dest start count (dest + index) (by omega) (by omega)]
  rw [Nat.add_sub_cancel_left]

theorem copyBytes_outside (target source : Memory) (dest start count address : Nat)
    (outside : address < dest ∨ dest + count ≤ address) :
    copyBytes target dest source start count address = target address := by
  have miss : ¬ (dest ≤ address ∧ address < dest + count) := by omega
  simp only [copyBytes, miss, ↓reduceIte]

@[simp] theorem copyBytes_zero (target source : Memory) (dest start : Nat) :
    copyBytes target dest source start 0 = target := by
  funext address
  exact copyBytes_outside target source dest start 0 address (by omega)

theorem copyBytes_shift (target source : Memory) (dest start count : Nat) :
    copyBytes target dest (fun index => source (start + index)) 0 count =
      copyBytes target dest source start count := by
  funext address
  simp only [copyBytes, zero_add]

/-- The bytes of a list at consecutive addresses, with zeros behind them. -/
def bytesAt (bytes : List UInt8) : Memory := fun index => bytes.getD index 0

/-- `memcpy` of a list of bytes. -/
def storeBytes (memory : Memory) (address : Nat) (bytes : List UInt8) : Memory :=
  copyBytes memory address (bytesAt bytes) 0 bytes.length

theorem bytesAt_terminated (bytes : List UInt8) : bytesAt (bytes ++ [0]) = bytesAt bytes := by
  funext index
  simp only [bytesAt, getD_eq_getElem?_getD, getElem?_append]
  split
  · rfl
  · rename_i beyond
    rw [getElem?_eq_none (Nat.le_of_not_lt beyond)]
    cases index - bytes.length with
    | zero => rfl
    | succ => rfl

theorem bytesAt_injective {left right : List UInt8} (leftClean : 0 ∉ left) (rightClean : 0 ∉ right)
    (agree : ∀ index, index ≤ left.length → index ≤ right.length →
      bytesAt left index = bytesAt right index) : left = right := by
  induction left generalizing right with
  | nil =>
    cases right with
    | nil => rfl
    | cons byte rest =>
      have first : 0 = byte := agree 0 (Nat.zero_le _) (Nat.zero_le _)
      exact absurd mem_cons_self (first ▸ rightClean)
  | cons byte rest ih =>
    cases right with
    | nil =>
      have first : byte = 0 := agree 0 (Nat.zero_le _) (Nat.zero_le _)
      exact absurd mem_cons_self (first ▸ leftClean)
    | cons other others =>
      have first : byte = other := agree 0 (Nat.zero_le _) (Nat.zero_le _)
      rw [first, ih (fun member => leftClean (mem_cons_of_mem _ member))
        (fun member => rightClean (mem_cons_of_mem _ member))
        (fun index low high => agree (index + 1) (Nat.succ_le_succ low) (Nat.succ_le_succ high))]

theorem storeBytes_outside (memory : Memory) (address : Nat) (bytes : List UInt8) (place : Nat)
    (outside : place < address ∨ address + bytes.length ≤ place) :
    storeBytes memory address bytes place = memory place :=
  copyBytes_outside _ _ _ _ _ _ outside

theorem storeBytes_inside (memory : Memory) (address : Nat) (bytes : List UInt8) {index : Nat}
    (inside : index < bytes.length) :
    storeBytes memory address bytes (address + index) = bytesAt bytes index := by
  rw [storeBytes, copyBytes_offset _ _ _ _ _ _ inside, zero_add]

/-- The bytes of a list stand at an address. -/
def Holds (memory : Memory) (address : Nat) (bytes : List UInt8) : Prop :=
  ∀ index < bytes.length, memory (address + index) = bytesAt bytes index

theorem storeBytes_holds (memory : Memory) (address : Nat) (bytes : List UInt8) :
    Holds (storeBytes memory address bytes) address bytes :=
  fun _ inside => storeBytes_inside memory address bytes inside

theorem Holds.congr {left right : Memory} {address : Nat} {bytes : List UInt8}
    (holds : Holds left address bytes)
    (agree : ∀ place, address ≤ place → place < address + bytes.length → right place = left place) :
    Holds right address bytes := by
  intro index inside
  rw [agree (address + index) (by omega) (by omega)]
  exact holds index inside

theorem holds_append {memory : Memory} {address : Nat} {front back : List UInt8} :
    Holds memory address (front ++ back) ↔
      Holds memory address front ∧ Holds memory (address + front.length) back := by
  constructor
  · intro holds
    constructor
    · intro index inside
      rw [holds index (by rw [length_append]; omega)]
      simp [bytesAt, getElem?_append_left inside]
    · intro index inside
      rw [Nat.add_assoc, holds (front.length + index) (by rw [length_append]; omega)]
      simp [bytesAt, getElem?_append_right (Nat.le_add_right _ _)]
  · rintro ⟨first, second⟩ index inside
    rw [length_append] at inside
    by_cases early : index < front.length
    · rw [first index early]
      simp [bytesAt, getElem?_append_left early]
    · have rest := second (index - front.length) (by omega)
      rw [show address + front.length + (index - front.length) = address + index by omega] at rest
      rw [rest]
      simp [bytesAt, getElem?_append_right (Nat.le_of_not_lt early)]

theorem holds_cons {memory : Memory} {address : Nat} {byte : UInt8} {bytes : List UInt8} :
    Holds memory address (byte :: bytes) ↔
      memory address = byte ∧ Holds memory (address + 1) bytes := by
  rw [show byte :: bytes = [byte] ++ bytes from rfl, holds_append]
  refine and_congr ⟨fun holds => holds 0 one_pos, ?_⟩ Iff.rfl
  intro first index inside
  obtain rfl : index = 0 := by simpa using inside
  exact first

theorem storeBytes_cons (memory : Memory) (address : Nat) (byte : UInt8) (bytes : List UInt8) :
    storeBytes (storeBytes memory address [byte]) (address + 1) bytes =
      storeBytes memory address (byte :: bytes) := by
  funext place
  by_cases first : place = address
  · subst first
    rw [storeBytes_outside _ _ _ _ (.inl (Nat.lt_succ_self _))]
    have one := storeBytes_inside memory place [byte] one_pos
    have all := storeBytes_inside memory place (byte :: bytes) (Nat.succ_pos bytes.length)
    exact one.trans all.symm
  · by_cases inside : address + 1 ≤ place ∧ place < address + 1 + bytes.length
    · obtain ⟨index, rfl⟩ : ∃ index, place = address + 1 + index := ⟨place - (address + 1), by omega⟩
      have within : index < bytes.length := by omega
      rw [storeBytes_inside _ _ _ within, add_assoc, add_comm 1,
        storeBytes_inside _ _ _ (by simpa using within)]
      rfl
    · rw [storeBytes_outside _ _ _ _ (by omega),
        storeBytes_outside _ _ _ _ (by simp; omega),
        storeBytes_outside _ _ _ _ (by simp; omega)]

/-- Little-endian unsigned word of `width` bytes. -/
def loadLE (memory : Memory) (address : Nat) : Nat → Nat
  | 0 => 0
  | width + 1 => (memory address).toNat + 256 * loadLE memory (address + 1) width

/-- Store the low `width` bytes of a value in little-endian order. -/
def storeLE (memory : Memory) (address width value : Nat) : Memory :=
  fun place =>
    if address ≤ place ∧ place < address + width then
      UInt8.ofNat (value / 256 ^ (place - address))
    else memory place

theorem loadLE_congr (left right : Memory) (address width : Nat)
    (agree : ∀ place, address ≤ place → place < address + width → left place = right place) :
    loadLE left address width = loadLE right address width := by
  induction width generalizing address with
  | zero => rfl
  | succ width ih =>
    have tail := ih (address + 1) (by
      intro place low high
      exact agree place (by omega) (by omega))
    rw [loadLE, loadLE, tail, agree address (by omega) (by omega)]

theorem loadLE_shift (memory : Memory) (base address width : Nat) :
    loadLE (fun place => memory (base + place)) address width =
      loadLE memory (base + address) width := by
  induction width generalizing address with
  | zero => rfl
  | succ width ih => rw [loadLE, loadLE, ih (address + 1), add_assoc]

/-- Two windows of `count` bytes hold the same. -/
def MatchAt (left : Memory) (start : Nat) (right : Memory) (place count : Nat) : Prop :=
  ∀ index < count, left (start + index) = right (place + index)

theorem loadLE_match {left right : Memory} {start place count : Nat}
    (same : MatchAt left start right place count) {index width : Nat}
    (inside : index + width ≤ count) :
    loadLE left (start + index) width = loadLE right (place + index) width := by
  rw [← loadLE_shift left, ← loadLE_shift right]
  apply loadLE_congr
  intro byte low high
  exact same byte (by omega)

section

variable (memory : Memory)
include memory

theorem storeLE_outside (address width value place : Nat)
    (outside : place < address ∨ address + width ≤ place) :
    storeLE memory address width value place = memory place := by
  have miss : ¬ (address ≤ place ∧ place < address + width) := by omega
  simp only [storeLE, miss, ↓reduceIte]

theorem storeLE_inside (address width value index : Nat) (inside : index < width) :
    storeLE memory address width value (address + index) = UInt8.ofNat (value / 256 ^ index) := by
  have hit : address ≤ address + index ∧ address + index < address + width := by omega
  simp only [storeLE, hit, and_self, ↓reduceIte, Nat.add_sub_cancel_left]

theorem storeLE_comm {first second : Nat} (width value other : Nat) (apart : first + width ≤ second) :
    storeLE (storeLE memory first width value) second width other =
      storeLE (storeLE memory second width other) first width value := by
  funext place
  by_cases here : second ≤ place
  · rw [storeLE_outside _ first _ _ _ (by omega)]
    by_cases inside : place < second + width
    · obtain ⟨index, rfl⟩ : ∃ index, place = second + index := ⟨place - second, by omega⟩
      rw [storeLE_inside _ _ _ _ _ (by omega), storeLE_inside _ _ _ _ _ (by omega)]
    · rw [storeLE_outside _ _ _ _ _ (by omega), storeLE_outside _ _ _ _ _ (by omega),
        storeLE_outside _ _ _ _ _ (by omega)]
  · rw [storeLE_outside _ second _ _ _ (by omega)]
    by_cases inside : first ≤ place ∧ place < first + width
    · obtain ⟨index, rfl⟩ : ∃ index, place = first + index := ⟨place - first, by omega⟩
      rw [storeLE_inside _ _ _ _ _ (by omega), storeLE_inside _ _ _ _ _ (by omega)]
    · rw [storeLE_outside _ _ _ _ _ (by omega), storeLE_outside _ _ _ _ _ (by omega),
        storeLE_outside _ _ _ _ _ (by omega)]

theorem storeLE_eq_copyBytes (address width value : Nat) :
    storeLE memory address width value =
      copyBytes memory address (fun index => UInt8.ofNat (value / 256 ^ index)) 0 width := by
  funext place
  simp only [storeLE, copyBytes, zero_add]

theorem update_eq_copyBytes (address : Nat) (value : UInt8) :
    update memory address value = copyBytes memory address (fun _ => value) 0 1 := by
  funext place
  by_cases here : place = address
  · rw [here, update_self, copyBytes_inside _ _ _ _ _ _ (by omega) (by omega)]
  · rw [update_of_ne here, copyBytes_outside _ _ _ _ _ _ (by omega)]

end

theorem storeBytes_one (memory : Memory) (address : Nat) (byte : UInt8) :
    storeBytes memory address [byte] = update memory address byte := by
  rw [update_eq_copyBytes]
  funext place
  simp only [storeBytes, copyBytes, length_singleton]
  split
  · obtain rfl : place = address := by omega
    simp [bytesAt]
  · rfl

theorem Holds.snoc {memory : Memory} {address : Nat} {bytes : List UInt8}
    (holds : Holds memory address bytes) (byte : UInt8) :
    Holds (update memory (address + bytes.length) byte) address (bytes ++ [byte]) := by
  refine holds_append.mpr ⟨holds.congr fun place _ high => ?_, ?_⟩
  · exact update_of_ne (ne_of_lt high) ..
  · exact holds_cons.mpr ⟨update_self .., fun _ => nofun⟩

private theorem toNat_ofNat_mod (value : Nat) : (UInt8.ofNat value).toNat = value % 256 := by
  simp

theorem loadLE_bytes (memory : Memory) (address width value : Nat)
    (bytes : ∀ index, index < width → memory (address + index) = UInt8.ofNat (value / 256 ^ index)) :
    loadLE memory address width = value % 256 ^ width := by
  induction width generalizing address value with
  | zero => simp [loadLE, Nat.mod_one]
  | succ width ih =>
    have head := bytes 0 (by omega)
    have tail := ih (address + 1) (value / 256) (by
      intro index bound
      have next := bytes (index + 1) (by omega)
      rw [Nat.div_div_eq_div_mul, ← pow_succ', ← next]
      congr 1
      omega)
    rw [loadLE, tail]
    rw [Nat.add_zero, Nat.pow_zero, Nat.div_one] at head
    rw [head, toNat_ofNat_mod, Nat.pow_succ, Nat.mul_comm (256 ^ width) 256, Nat.mod_mul]

theorem loadLE_storeLE (memory : Memory) (address width value : Nat) (bound : value < 256 ^ width) :
    loadLE (storeLE memory address width value) address width = value := by
  rw [loadLE_bytes _ _ _ value (fun index inside =>
    storeLE_inside memory address width value index inside)]
  exact Nat.mod_eq_of_lt bound

theorem loadLE_storeLE_apart (memory : Memory) (address width value place count : Nat)
    (apart : place + count ≤ address ∨ address + width ≤ place) :
    loadLE (storeLE memory address width value) place count = loadLE memory place count := by
  apply loadLE_congr
  intro byte low high
  exact storeLE_outside memory address width value byte (by omega)

end ByteMemory
