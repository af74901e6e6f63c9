import BoringOs.O2fsExact

/-! `O2FS_Write` and its errors: what a failed write leaves behind. -/

namespace BoringOs.O2fs

open ByteMemory BufCache Nat

/-- A write that fails changes nothing, in the cache or on disk; one that does not has moved every
byte and kept the others. -/
structure AllOrNothing (g : Geometry) (f buf off length : Nat) (before : BufState) (n : Int)
  (after : BufState) : Prop where
  nothing : n < 0 → (∀ d, image after d = image before d) ∧ after.disk = before.disk
  all : 0 ≤ n → n = length ∧ off + length ≤ bnSize (image after g.disk) f ∧
    (∀ j < length, fileByte (image after g.disk) f (off + j) = before.memory (buf + j)) ∧
    ∀ i < bnSize (image before g.disk) f, i < off ∨ off + length ≤ i →
      fileByte (image after g.disk) f i = fileByte (image before g.disk) f i

section

variable {bufBase : Nat} {g : Geometry} {fs : VFS} {vn : VNode} {f : Nat} {io : IoState}
  {buf off length : Nat}

theorem AllOrNothing.unchanged {n : Int} {s : BufState} (failed : n < 0) :
    AllOrNothing g f buf off length s n s where
  nothing _ := ⟨fun _ => rfl, rfl⟩
  all success := absurd success (by omega)

theorem AllOrNothing.grown {m : BufState} {t : BufState} (volume : Volume bufBase g fs io.cache)
    (member : f ∈ g.files) (source : OutsideAll bufBase buf length)
    (grown : GrownTo bufBase g fs f (off + length) io.cache m)
    (larger : bnSize (image io.cache g.disk) f < off + length)
    (wrote : AllOrNothing g f buf off length m length t) :
    AllOrNothing g f buf off length io.cache length t := by
  obtain ⟨_, covered, written, kept⟩ := wrote.all (by omega)
  refine ⟨fun failed => absurd failed (by omega), fun _ => ⟨rfl, covered, ?_, ?_⟩⟩
  · intro j less
    rw [written j less]
    exact grown.outside _ (source _ (by omega) (by omega))
  · intro i below away
    rw [kept i (by rw [grown.resized.size]; omega) away]
    exact grown.resized.fileByte volume.layout volume.sized member below

end

end BoringOs.O2fs
