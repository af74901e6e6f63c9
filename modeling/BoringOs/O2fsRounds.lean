import BoringOs.BufCacheImage
import BoringOs.O2fs

/-! The copy loops of `O2FS_Read` and `O2FS_Write`: what one round does, and the rule
that carries it to the whole loop. -/

namespace BoringOs.O2fs

open ByteMemory BufCache Nat

theorem chunkLength_le {blockSize off length : Nat} : chunkLength blockSize off length ≤ length := by
  unfold chunkLength
  split
  · rename_i more
    have wrapped : add64 (off % blockSize) length ≤ off % blockSize + length := mod_le _ _
    omega
  · exact le_refl _

theorem chunkLength_pos {blockSize off length : Nat} (positive : 0 < blockSize)
    (some_left : 0 < length) : 0 < chunkLength blockSize off length := by
  have inside := mod_lt off positive
  unfold chunkLength
  split
  · omega
  · exact some_left

theorem chunkLength_eq {blockSize off length : Nat} (bound : off + length < word64) :
    chunkLength blockSize off length = min (blockSize - off % blockSize) length := by
  have less := mod_le off blockSize
  rw [chunkLength, add64_of_lt (by omega)]
  split
  · omega
  · omega

def roundOf (body : IoState → EntryId → Nat → Nat → Nat → IoState) (fn : VNode)
    (blockSize : Nat) (s : IoState) (buf off length : Nat)
    (next : IoState → Prop) (failed : Int → IoState → Prop) : Prop :=
  let resolved := o2fsResolveBuf fn (off / blockSize) s.cache
  (resolved.1 ≠ 0 ∧ failed resolved.1 { s with cache := resolved.2.2 }) ∨
  (resolved.1 = 0 ∧ ∃ e, resolved.2.1 = some e ∧
    next (body { s with cache := resolved.2.2 } e buf (off % blockSize)
      (chunkLength blockSize off length)))

/-- The loop rule of `O2FS_Read` and `O2FS_Write`: `inv k` holds when `k` bytes have been moved. -/
theorem blockLoop_rule {body : IoState → EntryId → Nat → Nat → Nat → IoState} {fn : VNode}
    {blockSize buf off length : Nat} (inv : Nat → IoState → Prop) (failed : Int → IoState → Prop)
    (positive : 0 < blockSize) (offBound : off < word64) (size : ∀ k s, inv k s →
      sbBlockSize s.cache.memory (bufferOf s.cache fn.vfs.fsptr) = blockSize)
    (round : ∀ k s, inv k s → (k < length ∨ k = 0 ∧ length = 0) →
      roundOf body fn blockSize s (buf + k) ((off + k) % word64) (length - k)
        (inv (k + chunkLength blockSize ((off + k) % word64) (length - k))) failed)
    (s : IoState) (start : inv 0 s) :
    ∃ result t, blockLoop body fn (length + 1) s buf off length 0 = some (result, t) ∧
      ((result = toInt32 length ∧ inv length t) ∨ failed result t) := by
  have loop : ∀ rounds k s, inv k s → (k < length ∨ k = 0 ∧ length = 0) → length - k < rounds →
      ∃ result t, blockLoop body fn rounds s (buf + k) ((off + k) % word64) (length - k) k =
          some (result, t) ∧ ((result = toInt32 length ∧ inv length t) ∨ failed result t) := by
    intro rounds
    induction rounds with
    | zero =>
      intro k s _ _ enough
      omega
    | succ rounds ih =>
      intro k s holds more enough
      have nonzero : blockSize ≠ 0 := by omega
      rw [blockLoop]
      simp only [size k s holds, nonzero, ↓reduceIte]
      rcases round k s holds more with ⟨status, failure⟩ | ⟨status, e, found, next⟩
      · simp only [ne_eq, status, not_false_eq_true, ↓reduceIte]
        exact ⟨_, _, rfl, .inr failure⟩
      · have fits : chunkLength blockSize ((off + k) % word64) (length - k) ≤ length - k :=
          chunkLength_le
        simp only [ne_eq, status, not_true_eq_false, ↓reduceIte, found]
        generalize counted : chunkLength blockSize ((off + k) % word64) (length - k) = n at *
        by_cases done : length - k - n = 0
        · rw [if_pos done]
          have total : k + n = length := by omega
          rw [total] at next ⊢
          exact ⟨_, _, rfl, .inl ⟨rfl, next⟩⟩
        · rw [if_neg done]
          have moved : 0 < n := by
            rw [← counted]
            exact chunkLength_pos positive (by omega)
          have offset : add64 ((off + k) % word64) n = (off + (k + n)) % word64 := by
            rw [add64, mod_add_mod, add_assoc]
          have rest : length - k - n = length - (k + n) := by omega
          rw [offset, rest, add_assoc]
          exact ih (k + n) _ next (.inl (by omega)) (by omega)
  have first := loop (length + 1) 0 s start (by omega) (by omega)
  simpa only [add_zero, Nat.sub_zero, mod_eq_of_lt offBound] using first

section

variable {bufBase : Nat} {trusted : DiskId → Nat → Prop} {s t : BufState} {e : EntryId}
  {disk : DiskId} {offset : Nat}

theorem writeBlock_cache (takes : Takes s t e disk offset) (after : Coherent bufBase trusted t)
    (ok : t.writeStatus 0 = 0) (buf : Nat) {bOff bLen : Nat} (fits : bOff + bLen ≤ BLOCKSIZE)
    (accesses : List Access) :
    let u := (writeBlock ⟨t, accesses⟩ e buf bOff bLen).cache
    u = bufCache_Release (writtenBack (withMemory t
      (copyBytes t.memory ((t.entry e).buffer + bOff) t.memory buf bLen)) e disk offset) e ∧
    Coherent bufBase trusted u ∧ Steady s u ∧
    image u disk = copyBytes (image t disk) (offset + bOff) t.memory buf bLen ∧
    (∀ d, d ≠ disk → image u d = image t d) ∧
    ∀ address, Outside bufBase address → u.memory address = t.memory address := by
  intro u
  let w := withMemory t (copyBytes t.memory ((t.entry e).buffer + bOff) t.memory buf bLen)
  have held := takes.held
  obtain ⟨copied, own, others⟩ := copy_image after held fits t.memory buf
  have key : HasKey w e disk offset := held.1
  have result : u = bufCache_Release (writtenBack w e disk offset) e := by
    have written := bufCache_Write_eq key ok
    exact congrArg (fun pair => bufCache_Release pair.2 e) written
  obtain ⟨coherent, same⟩ := writtenBack_image copied key
  have heldAfter : ((writtenBack w e disk offset).entry e).refCount ≠ 0 := held.2
  obtain ⟨released, contents⟩ := bufCache_Release_content coherent held.1.1 heldAfter
    (by
      intro _ d o _ otherKey index inside
      obtain ⟨rfl, rfl⟩ := otherKey.inj key
      exact (writtenBack_disk w e d o index inside).symm)
  have unchanged : ∀ d, image u d = image w d := by
    intro d
    rw [← same d, result]
    funext address
    exact contents _ _ _
  refine ⟨result, ?_, ?_, ?_, ?_, ?_⟩
  · rw [result]
    exact released
  · rw [result]
    exact takes.visit rfl
  · rw [unchanged]
    exact own
  · intro d other
    rw [unchanged]
    exact others d other
  · intro address free
    rw [result]
    apply copyBytes_outside
    by_contra inside
    exact after.rep.buffer_inside held.1.1 (by omega) (by omega) free

theorem readBlock_cache (coherent : Coherent bufBase trusted s) (takes : Takes s t e disk offset)
    (after : Coherent bufBase trusted t)
    (same : ∀ d o, trusted d o → ∀ index < BLOCKSIZE, content t d o index = content s d o index)
    (buf bOff bLen : Nat) (target : OutsideAll bufBase buf bLen) (accesses : List Access) :
    let u := (readBlock ⟨t, accesses⟩ e buf bOff bLen).cache
    Coherent bufBase trusted u ∧ Steady s u ∧ (∀ d, image u d = image t d) ∧
    u.memory = copyBytes t.memory buf t.memory ((t.entry e).buffer + bOff) bLen := by
  intro u
  have held := takes.held
  obtain ⟨copied, images⟩ := outside_image after
    (copyBytes t.memory buf t.memory ((t.entry e).buffer + bOff) bLen)
    (fun address inside => copyBytes_outside _ _ _ _ _ _ (by
      by_contra covered
      exact inside (target address (by omega) (by omega))))
  have unmoved : ∀ index < BLOCKSIZE,
      copyBytes t.memory buf t.memory ((t.entry e).buffer + bOff) bLen
        ((t.entry e).buffer + index) = t.memory ((t.entry e).buffer + index) := by
    intro index inside
    apply copyBytes_outside
    by_contra covered
    exact after.rep.buffer_inside held.1.1 (by omega) (by omega)
      (target ((t.entry e).buffer + index) (by omega) (by omega))
  obtain ⟨released, contents⟩ := bufCache_Release_content copied held.1.1 held.2
    (by
      intro last d o trust key index inside
      obtain ⟨rfl, rfl⟩ := key.inj held.1
      exact (unmoved index inside).trans
        (takes.clean coherent after trust (same d o trust) last index inside))
  refine ⟨released, takes.visit rfl, ?_, rfl⟩
  intro d
  rw [← images d]
  funext address
  exact contents _ _ _

end

end BoringOs.O2fs
