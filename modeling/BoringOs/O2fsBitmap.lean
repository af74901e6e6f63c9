import BoringOs.O2fsAlloc

/-! The block bitmap in its cache buffers, with blocks of any size: `O2FSBAlloc` and
`O2FSBFree`. -/

namespace BoringOs.O2fs

open ByteMemory BufCache Search Function Nat

/-- `bitmap[b] &= ~(1 << bi)`. -/
def clearBit (memory : Memory) (bitmap b bi : Nat) : Memory :=
  Function.update memory (bitmap + b) (memory (bitmap + b) &&& ~~~UInt8.ofNat (2 ^ bi))

/-- `O2FSBFree`. An entry behind the 16 of `fs->bitmap`, or one that is NULL, stops the
kernel. -/
def o2fsBFree (fs : VFS) (block : Nat) (s : BufState) : Option BufState :=
  if fs.blksize = 0 then none
  else
    let bitoff := block &&& 0x7
    let bytoff := (block >>> 8) % fs.blksize
    let bufoff := block / mul64 fs.blksize 8
    if 16 ≤ bufoff then none
    else
      match fs.bitmap bufoff with
      | none => none
      | some bentry =>
        let s := { s with memory := clearBit s.memory (bufferOf s bentry) bytoff bitoff }
        some (bufCache_Write s bentry).2

/-- The bitmap of a mounted file system: `count` buffers of `blksize` bytes each, which do not
overlap. The loops over their bytes count in an `int`. -/
structure Bitmap (fs : VFS) (s : BufState) (count : Nat) : Prop where
  some_blocks : 1 ≤ count
  most : count ≤ 16
  positive : 0 < fs.blksize
  small : fs.blksize < 2 ^ 31
  entry : ∀ i < count, ∃ e, fs.bitmap i = some e
  finish : ∀ i, count ≤ i → fs.bitmap i = none
  apart : ∀ i < count, ∀ j < count, i ≠ j → ∀ e x, fs.bitmap i = some e → fs.bitmap j = some x →
    bufferOf s e + fs.blksize ≤ bufferOf s x ∨ bufferOf s x + fs.blksize ≤ bufferOf s e

theorem testBit_clearByte (byte : UInt8) {bi k : Nat} (bound : bi < 8) (inside : k < 8) :
    (byte &&& ~~~UInt8.ofNat (2 ^ bi)).toNat.testBit k =
      (byte.toNat.testBit k && !decide (bi = k)) := by
  have masks : ∀ bi < 8, ∀ k < 8, (~~~UInt8.ofNat (2 ^ bi)).toNat.testBit k = !decide (bi = k) := by
    decide
  rw [UInt8.toNat_and, testBit_and, masks bi bound k inside]

section

variable {fs : VFS} {s : BufState} {count : Nat}

section

variable (bitmap : Bitmap fs s count)
include bitmap

theorem Bitmap.of_entry {t : BufState} (entries : t.entry = s.entry) : Bitmap fs t count := by
  refine ⟨bitmap.some_blocks, bitmap.most, bitmap.positive, bitmap.small, bitmap.entry,
    bitmap.finish, ?_⟩
  unfold bufferOf
  rw [entries]
  exact bitmap.apart

theorem Bitmap.update {i b : Nat} {e : EntryId} (bound : i < count)
    (entry : fs.bitmap i = some e) (byte : b < fs.blksize) (value : UInt8) {t : BufState}
    (entries : t.entry = s.entry)
    (memory : t.memory = update s.memory (bufferOf s e + b) value) {m : Nat}
    (inside : m < covered fs count) :
    bitAt fs t m = if m / 8 / fs.blksize = i ∧ m / 8 % fs.blksize = b then
      value.toNat.testBit (m % 8) else bitAt fs s m := by
  obtain ⟨x, other⟩ := bitmap.entry _ (entry_of_covered inside)
  have buffer : bufferOf t x = bufferOf s x := by
    unfold bufferOf
    rw [entries]
  have offset := mod_lt (m / 8) bitmap.positive
  simp only [bitAt, other, bitClear, buffer, memory, Bool.not_not]
  by_cases here : m / 8 / fs.blksize = i
  · rw [here, entry] at other
    cases other
    by_cases same : m / 8 % fs.blksize = b
    · rw [if_pos ⟨here, same⟩, same, update_self]
    · rw [if_neg (fun both => same both.2), update_of_ne (by omega)]
  · rw [if_neg (fun both => here both.1)]
    have apart := bitmap.apart _ (entry_of_covered inside) i bound here x e other entry
    rw [update_of_ne (by omega)]

theorem Bitmap.alloc :
    ((∀ n < covered fs count, bitAt fs s n = true) ∧ o2fsBAlloc fs s = (0, s)) ∨
    ∃ n < covered fs count, bitAt fs s n = false ∧ (∀ m < n, bitAt fs s m = true) ∧
      (o2fsBAlloc fs s).1 = n ∧ Bitmap fs (o2fsBAlloc fs s).2 count ∧
      ∀ m < covered fs count, bitAt fs (o2fsBAlloc fs s).2 m = (bitAt fs s m || decide (m = n)) := by
  rcases o2fsBAlloc_search bitmap.most bitmap.positive bitmap.small bitmap.entry bitmap.finish with
    full | ⟨n, e, bound, clear, lower, entry, result⟩
  · exact .inl full
  · have entries : (o2fsBAlloc fs s).2.entry = s.entry := by
      rw [result]
      exact (bufCache_Write_lists _ e).1
    have memory : (o2fsBAlloc fs s).2.memory =
        setBit s.memory (bufferOf s e) (n / 8 % fs.blksize) (n % 8) := by
      rw [result]
      exact bufCache_Write_memory _ e
    refine .inr ⟨n, bound, clear, lower, by rw [result], bitmap.of_entry entries, ?_⟩
    intro m inside
    rw [bitmap.update (entry_of_covered bound) entry (mod_lt _ bitmap.positive) _ entries memory
      inside]
    have numbered := number_of_place fs.blksize m
    have number := number_of_place fs.blksize n
    by_cases here : m / 8 / fs.blksize = n / 8 / fs.blksize ∧ m / 8 % fs.blksize = n / 8 % fs.blksize
    · rw [if_pos here, testBit_setByte _ (mod_lt n (by decide))]
      rw [here.1, here.2] at numbered
      simp only [bitAt, here.1, here.2, entry, bitClear, Bool.not_not]
      congr 1
      apply decide_eq_decide.mpr
      omega
    · rw [if_neg here]
      have different : m ≠ n := by
        rintro rfl
        exact here ⟨rfl, rfl⟩
      simp [different]

end

/-- The block whose bit `O2FSBFree` clears when it is given block `n`. -/
def freed (blksize n : Nat) : Nat :=
  8 * (blksize * (n / 8 / blksize) + n / 256 % blksize) + n % 8

theorem freed_eq_iff (blksize n : Nat) :
    freed blksize n = n ↔ n / 256 % blksize = n / 8 % blksize := by
  have number := number_of_place blksize n
  unfold freed
  omega

theorem freed_le_iff (blksize n : Nat) :
    freed blksize n ≤ n ↔ n / 256 % blksize ≤ n / 8 % blksize := by
  have number := number_of_place blksize n
  unfold freed
  omega

theorem Bitmap.free (bitmap : Bitmap fs s count) {n : Nat} (bound : n < covered fs count) :
    ∃ t, o2fsBFree fs n s = some t ∧ Bitmap fs t count ∧ freed fs.blksize n < covered fs count ∧
      ∀ m < covered fs count,
        bitAt fs t m = (bitAt fs s m && !decide (m = freed fs.blksize n)) := by
  have positive := bitmap.positive
  have small := bitmap.small
  have inside := entry_of_covered bound
  obtain ⟨e, entry⟩ := bitmap.entry _ inside
  have byte : n / 256 % fs.blksize < fs.blksize := mod_lt _ positive
  have bit : n % 8 < 8 := mod_lt _ (by omega)
  have low : n &&& 0x7 = n % 8 := and_two_pow_sub_one_eq_mod n 3
  have high : n >>> 8 = n / 256 := shiftRight_eq_div_pow n 8
  have buffer : n / mul64 fs.blksize 8 = n / 8 / fs.blksize := by
    rw [mul64_of_lt (show fs.blksize * 8 < word64 by unfold word64; omega), mul_comm,
      Nat.div_div_eq_div_mul]
  have few : ¬ 16 ≤ n / 8 / fs.blksize := by
    have most := bitmap.most
    omega
  have result : o2fsBFree fs n s = some (bufCache_Write (withMemory s
      (clearBit s.memory (bufferOf s e) (n / 256 % fs.blksize) (n % 8))) e).2 := by
    unfold o2fsBFree
    rw [if_neg (by omega)]
    dsimp only
    rw [low, high, buffer, if_neg few, entry]
    rfl
  have entries : (bufCache_Write (withMemory s
      (clearBit s.memory (bufferOf s e) (n / 256 % fs.blksize) (n % 8))) e).2.entry = s.entry :=
    (bufCache_Write_lists _ e).1
  have memory := bufCache_Write_memory (withMemory s
      (clearBit s.memory (bufferOf s e) (n / 256 % fs.blksize) (n % 8))) e
  refine ⟨_, result, bitmap.of_entry entries, ?_, ?_⟩
  · have area := Nat.mul_le_mul_left fs.blksize (succ_le_of_lt inside)
    rw [mul_succ] at area
    unfold freed covered
    omega
  · intro m covers
    rw [bitmap.update inside entry byte _ entries memory covers]
    have numbered := number_of_place fs.blksize m
    obtain ⟨fBuffer, fByte, _⟩ := place_of_number (i := n / 8 / fs.blksize) byte bit
    by_cases here : m / 8 / fs.blksize = n / 8 / fs.blksize ∧
        m / 8 % fs.blksize = n / 256 % fs.blksize
    · rw [if_pos here, testBit_clearByte _ bit (mod_lt _ (by omega))]
      rw [here.1, here.2] at numbered
      simp only [bitAt, here.1, here.2, entry, bitClear, Bool.not_not]
      congr 2
      apply decide_eq_decide.mpr
      unfold freed
      omega
    · rw [if_neg here]
      have different : m ≠ freed fs.blksize n := by
        rintro rfl
        exact here ⟨fBuffer, fByte⟩
      simp [different]

/-- `O2FSBFree` clears bit `n` and no other, and an allocation before it is undone, exactly when
the byte `(n >> 8) % blksize` that it takes is the byte `(n >> 3) % blksize` of the bit. A block
of number at most `n` is allocated next exactly when the byte it takes does not lie behind that
one, or a lower block was free already. -/
theorem bfree_undoes_balloc_iff (fs : VFS) (s : BufState) (count : Nat)
    (bitmap : Bitmap fs s count) (n : Nat) (bound : n < covered fs count) :
    (bitAt fs s n = true → ∃ t, o2fsBFree fs n s = some t ∧
      ((∀ m < covered fs count, bitAt fs t m = (bitAt fs s m && !decide (m = n))) ↔
        n / 256 % fs.blksize = n / 8 % fs.blksize) ∧
      ((o2fsBAlloc fs t).1 ≤ n ∧ bitAt fs t (o2fsBAlloc fs t).1 = false ↔
        n / 256 % fs.blksize ≤ n / 8 % fs.blksize ∨ ∃ m < n, bitAt fs s m = false)) ∧
    (bitAt fs s n = false → (∀ m < n, bitAt fs s m = true) → (o2fsBAlloc fs s).1 = n ∧
      ∃ t, o2fsBFree fs n (o2fsBAlloc fs s).2 = some t ∧
        ((∀ m < covered fs count, bitAt fs t m = bitAt fs s m) ↔
          n / 256 % fs.blksize = n / 8 % fs.blksize)) := by
  constructor
  · intro set
    obtain ⟨t, ran, after, freedBound, bits⟩ := bitmap.free bound
    refine ⟨t, ran, ?_, ?_⟩
    · rw [← freed_eq_iff]
      constructor
      · intro law
        have here := law n bound
        rw [bits n bound, set] at here
        by_contra other
        simp [Ne.symm other] at here
      · intro same m inside
        rw [bits m inside, same]
    · have free : bitAt fs t (freed fs.blksize n) = false := by
        rw [bits _ freedBound]
        simp
      rw [← freed_le_iff]
      rcases after.alloc with ⟨full, _⟩ | ⟨r, rBound, rFree, lower, result, _, _⟩
      · rw [full _ freedBound] at free
        cases free
      · rw [result]
        constructor
        · rintro ⟨less, _⟩
          have rClear := bits r rBound
          rw [rFree] at rClear
          by_cases same : r = freed fs.blksize n
          · exact .inl (same ▸ less)
          · right
            have clear : bitAt fs s r = false := by simpa [same] using rClear.symm
            refine ⟨r, ?_, clear⟩
            rcases lt_or_eq_of_le less with below | rfl
            · exact below
            · rw [set] at clear
              cases clear
        · intro some_lower
          refine ⟨?_, rFree⟩
          by_contra above
          rcases some_lower with less | ⟨m, less, clear⟩
          · rw [lower _ (by omega)] at free
            cases free
          · have still := bits m (by omega)
            rw [clear, lower m (by omega)] at still
            cases still
  · intro clear lower
    rcases bitmap.alloc with ⟨full, _⟩ | ⟨r, rBound, rFree, rLower, result, after, marked⟩
    · rw [full n bound] at clear
      cases clear
    · obtain rfl : n = r := by
        rcases lt_trichotomy r n with less | same | greater
        · rw [lower r less] at rFree
          cases rFree
        · exact same.symm
        · rw [rLower n greater] at clear
          cases clear
      refine ⟨result, ?_⟩
      obtain ⟨t, ran, _, _, bits⟩ := after.free bound
      refine ⟨t, ran, ?_⟩
      rw [← freed_eq_iff]
      constructor
      · intro restored
        have here := restored n bound
        rw [bits n bound, marked n bound, clear] at here
        by_contra other
        simp [Ne.symm other] at here
      · intro fixed m inside
        rw [bits m inside, marked m inside, fixed]
        by_cases here : m = n
        · subst m
          simp [clear]
        · simp [here]

end

/-- A file system with one bitmap block of 16 KiB, in entry 0. -/
def oneBitmap : VFS := ⟨0, 0, 0, 16384, fun i => if i = 0 then some 0 else none⟩

/-- A bitmap in which the blocks 0 to 8 are in use. -/
def nineUsed : BufState :=
  bufCacheInit 0 (fun address => if address = 0 then 255 else if address = 1 then 1 else 0)
    (fun _ _ => 0) (fun _ => 0) (fun _ => 0)

theorem nineUsed_bitmap : Bitmap oneBitmap nineUsed 1 where
  some_blocks := le_rfl
  most := by decide
  positive := by decide
  small := by decide
  entry i bound := by
    obtain rfl : i = 0 := by omega
    exact ⟨0, rfl⟩
  finish i high := by
    simp only [oneBitmap]
    rw [if_neg (by omega)]
  apart i iBound j jBound different := by omega

theorem bfree_undoes_balloc_iff_first_byte :
    ∃ t, o2fsBFree oneBitmap 7 nineUsed = some t ∧ bitAt oneBitmap t 7 = false := by
  obtain ⟨t, ran, law, _⟩ := (bfree_undoes_balloc_iff oneBitmap nineUsed 1 nineUsed_bitmap 7
    (by decide)).1 (by decide +kernel)
  refine ⟨t, ran, ?_⟩
  rw [law.mpr (by decide) 7 (by decide)]
  simp

/-- Freeing block 8 clears the bit of block 0 and leaves its own. -/
theorem bfree_clears_other_block :
    Bitmap oneBitmap nineUsed 1 ∧ bitAt oneBitmap nineUsed 8 = true ∧
    bitAt oneBitmap nineUsed 0 = true ∧
    ∃ t, o2fsBFree oneBitmap 8 nineUsed = some t ∧ bitAt oneBitmap t 8 = true ∧
      bitAt oneBitmap t 0 = false := by
  have bits : (o2fsBFree oneBitmap 8 nineUsed).any
      (fun t => bitAt oneBitmap t 8 && !bitAt oneBitmap t 0) = true := by decide +kernel
  obtain ⟨t, ran, both⟩ := (Option.any_eq_true ..).mp bits
  simp only [Bool.and_eq_true, Bool.not_eq_true'] at both
  exact ⟨nineUsed_bitmap, by decide +kernel, by decide +kernel, t, ran, both⟩

end BoringOs.O2fs
