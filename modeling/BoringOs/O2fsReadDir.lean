import BoringOs.O2fsExact
import BoringOs.NewfsImage

/-! `O2FS_ReadDir` called with one buffer after another: the names come in the order of the disk,
whatever the lengths of the buffers are. -/

namespace BoringOs.O2fs

open ByteMemory BufCache List

def stringAt (memory : Memory) (address : Nat) : Nat → List UInt8
  | 0 => []
  | count + 1 =>
    if memory address = 0 then [] else memory address :: stringAt memory (address + 1) count

def namesAt (memory : Memory) (buf count : Nat) : List (List UInt8) :=
  (List.range count).map (fun i => stringAt memory (d_name (buf + DIRENT_SIZE * i)) NAME_MAX)

/-- Calls of `O2FS_ReadDir` from one that starts at `off`, until one returns 0. `buffers i` has the
address and the length of the buffer of call `i`. The result has the names the caller has found after
each call, the sum of the returned counts and the last offset. -/
def readDirCalls (fn : VNode) (dirEntry de : Nat) (buffers : Nat → Nat × Nat) :
    Nat → Nat → Nat → IoState → Option (List (List UInt8) × Int × Nat × IoState)
  | 0, _, _, _ => none
  | calls + 1, i, off, s =>
    match o2fs_ReadDir fn dirEntry de (buffers i).1 (buffers i).2 off s with
    | none => none
    | some (count, off, s) =>
      if count = 0 then some ([], 0, off, s)
      else
        (readDirCalls fn dirEntry de buffers calls (i + 1) off s).map
          (fun (names, total, last, t) =>
            (namesAt s.cache.memory (buffers i).1 count.toNat ++ names, count + total, last, t))

structure DirEntryAt (contents : Memory) (k : Nat) : Prop where
  magic : sameBytes contents (k * BDIRENTRY_SIZE) BDIR_MAGIC = true
  terminated : ∃ len < NAME_MAX, contents (dirName (k * BDIRENTRY_SIZE) + len) = 0

def entryName (contents : Memory) (k : Nat) : List UInt8 :=
  stringAt contents (dirName (k * BDIRENTRY_SIZE)) NAME_MAX

/-- Byte `j` of `de` after a round for entry `k`: of the name and its terminator, or the one before. -/
def direntByte (contents : Memory) (k j : Nat) (old : UInt8) : UInt8 :=
  if 12 ≤ j ∧ j ≤ 12 + (entryName contents k).length then
    contents (dirName (k * BDIRENTRY_SIZE) + (j - 12))
  else old

def direntAfter (contents : Memory) (j : Nat) : Nat → UInt8 → Nat → UInt8
  | _, old, 0 => old
  | k, old, rounds + 1 => direntAfter contents j (k + 1) (direntByte contents k j old) rounds

/-- The local variables and the cache are memory of the kernel. -/
structure Locals (bufBase dirEntry de : Nat) : Prop where
  kernel : MEM_USERSPACE_TOP ≤ bufBase ∧ MEM_USERSPACE_TOP ≤ dirEntry ∧ MEM_USERSPACE_TOP ≤ de
  entryOutside : ∀ i < BDIRENTRY_SIZE, Outside bufBase (dirEntry + i)
  deOutside : ∀ i < DIRENT_SIZE, Outside bufBase (de + i)
  apart : dirEntry + BDIRENTRY_SIZE ≤ de ∨ de + DIRENT_SIZE ≤ dirEntry

structure Listing (bufBase : Nat) (g : Geometry) (fs : VFS) (vn : VNode) (f : Nat) (contents : Memory)
  (size : Nat) (s : IoState) : Prop where
  volume : Volume bufBase g fs s.cache
  opened : Opened g fs s.cache vn f
  free : ∃ e < CACHEENTRIES, (s.cache.entry e).refCount = 0
  contents : ∀ i, fileByte (image s.cache g.disk) f i = contents i
  size : bnSize (image s.cache g.disk) f = size

variable {memory : Memory} {k buf count : Nat}

section

variable {left right : Memory} {a b : Nat}

theorem stringAt_eq
    (agree : ∀ j < count, (∀ i < j, left (a + i) ≠ 0) → right (b + j) = left (a + j)) :
    stringAt right b count = stringAt left a count := by
  induction count generalizing a b with
  | zero => rfl
  | succ count ih =>
    have first : right b = left a := agree 0 (by omega) (fun i less => absurd less (Nat.not_lt_zero i))
    rw [stringAt, stringAt, first]
    by_cases last : left a = 0
    · rw [if_pos last, if_pos last]
    · rw [if_neg last, if_neg last, ih]
      intro j less clean
      rw [add_assoc, add_assoc]
      refine agree (1 + j) (by omega) (fun i before => ?_)
      cases i with
      | zero => exact last
      | succ i =>
        rw [add_comm i, ← add_assoc]
        exact clean i (by omega)

theorem strcpy_copies {source size : Nat} (dest : Nat)
    (terminated : ∃ len < size, memory (source + len) = 0) :
    ∃ len < size, (memory (source + len) = 0 ∧ ∀ i < len, memory (source + i) ≠ 0) ∧
      strcpy memory dest source size = some (copyBytes memory dest memory source (len + 1)) := by
  obtain ⟨found, inside, zero⟩ := terminated
  unfold strcpy
  cases searched : Search.firstHit (fun i => if memory (source + i) == 0 then some i else none) size with
  | none =>
    have missed := Search.firstHit_none searched found inside
    simp [zero] at missed
  | some hit =>
    obtain ⟨len, less, here, before⟩ := Search.firstHit_some searched
    by_cases ends : memory (source + len) = 0
    · simp only [ends, beq_self_eq_true, if_true, Option.some.injEq] at here
      refine ⟨len, less, ⟨ends, fun i earlier zero => ?_⟩, by rw [here]; rfl⟩
      have missed := before i earlier
      simp [zero] at missed
    · simp [ends] at here

theorem stringAt_length {count len : Nat} (less : len < count)
    (zero : memory (a + len) = 0) (before : ∀ i < len, memory (a + i) ≠ 0) :
    (stringAt memory a count).length = len := by
  induction count generalizing a len with
  | zero => omega
  | succ count ih =>
    rw [stringAt]
    cases len with
    | zero => rw [if_pos (by rwa [add_zero] at zero), length_nil]
    | succ len =>
      have first := before 0 (Nat.succ_pos len)
      rw [add_zero] at first
      rw [if_neg first, length_cons]
      refine congrArg (· + 1) (ih (by omega) ?_ (fun i earlier => ?_))
      · rwa [add_assoc, add_comm 1]
      · rw [add_assoc, add_comm 1]
        exact before (i + 1) (by omega)

end

section

variable {bufBase : Nat} {g : Geometry} {fs : VFS} {vn : VNode} {f : Nat} {contents : Memory} {n : Nat}
  {dirEntry de : Nat} {s : IoState}

theorem Listing.store (listing : Listing bufBase g fs vn f contents n s) {accesses : List Access}
    (same : ∀ address, ¬ Outside bufBase address → memory address = s.cache.memory address) :
    Listing bufBase g fs vn f contents n ⟨{ s.cache with memory := memory }, accesses⟩ := by
  obtain ⟨volume, steady, images⟩ := listing.volume.store same
  refine ⟨volume, listing.opened.keep steady.kept, steady.free listing.free, fun i => ?_, ?_⟩
  · exact (congrArg (fun img => fileByte img f i) (images g.disk)).trans (listing.contents i)
  · exact (congrArg (fun img => bnSize img f) (images g.disk)).trans listing.size

theorem Listing.read (listing : Listing bufBase g fs vn f contents (n * BDIRENTRY_SIZE) s)
    (locals : Locals bufBase dirEntry de) (inside : k < n) :
    ∃ t, o2fs_Read vn dirEntry (k * BDIRENTRY_SIZE) BDIRENTRY_SIZE s =
        some (((BDIRENTRY_SIZE : Nat) : Int), t) ∧
      Listing bufBase g fs vn f contents (n * BDIRENTRY_SIZE) t ∧
      (∀ j < BDIRENTRY_SIZE, t.cache.memory (dirEntry + j) = contents (k * BDIRENTRY_SIZE + j)) ∧
      ∀ address, Outside bufBase address → address < dirEntry ∨ dirEntry + BDIRENTRY_SIZE ≤ address →
        t.cache.memory address = s.cache.memory address := by
  have bound : k * BDIRENTRY_SIZE + BDIRENTRY_SIZE ≤ n * BDIRENTRY_SIZE := by
    rw [← Nat.succ_mul]
    exact Nat.mul_le_mul_right _ inside
  have positive : 0 < BDIRENTRY_SIZE := by decide
  rw [← listing.size] at bound
  obtain ⟨t, ran, reading⟩ := o2fs_Read_whole listing.volume listing.opened listing.free
    (show k * BDIRENTRY_SIZE < bnSize (image s.cache g.disk) f by omega) bound locals.entryOutside
  refine ⟨t, ran, ⟨reading.volume listing.volume, listing.opened.keep reading.steady.kept,
    reading.steady.free listing.free, ?_, ?_⟩, ?_, reading.elsewhere⟩
  · intro i
    rw [reading.images]
    exact listing.contents i
  · rw [reading.images]
    exact listing.size
  · intro j less
    rw [reading.delivered j less]
    exact listing.contents _

theorem Listing.copyOut (listing : Listing bufBase g fs vn f contents n s)
    (locals : Locals bufBase dirEntry de) (room : buf + DIRENT_SIZE ≤ MEM_USERSPACE_TOP) :
    ∃ t, copy_Out s de buf DIRENT_SIZE = (0, t) ∧ Listing bufBase g fs vn f contents n t ∧
      (∀ j < DIRENT_SIZE, t.cache.memory (buf + j) = s.cache.memory (de + j)) ∧
      ∀ address, address < buf ∨ buf + DIRENT_SIZE ≤ address →
        t.cache.memory address = s.cache.memory address := by
  have positive : 0 < DIRENT_SIZE := by decide
  have kernel := locals.kernel.1
  refine ⟨s.copyTo buf de DIRENT_SIZE, ?_, listing.store (fun address cached => ?_), fun j less => ?_,
    fun address away => copyBytes_outside _ _ _ _ _ _ away⟩
  · unfold copy_Out copyChecked
    rw [if_neg (by omega), if_neg (by omega), if_neg (by omega)]
  · refine copyBytes_outside _ _ _ _ _ _ ?_
    by_contra between
    exact cached (.inl (by omega))
  · exact copyBytes_offset _ _ _ _ _ _ less

theorem next_entry (inside : k < n) (most : n * BDIRENTRY_SIZE ≤ 64 * BLOCKSIZE) :
    add64 (k * BDIRENTRY_SIZE) BDIRENTRY_SIZE = (k + 1) * BDIRENTRY_SIZE := by
  rw [add64_of_lt, Nat.succ_mul]
  unfold BLOCKSIZE BDIRENTRY_SIZE word64 at *
  omega

theorem direntAfter_last (contents : Memory) (j k rounds : Nat) (old : UInt8) :
    ∃ before, direntAfter contents j k old (rounds + 1) = direntByte contents (k + rounds) j before := by
  induction rounds generalizing k old with
  | zero => exact ⟨old, rfl⟩
  | succ rounds ih =>
    obtain ⟨before, last⟩ := ih (k + 1) (direntByte contents k j old)
    rw [add_right_comm k 1, add_assoc k] at last
    exact ⟨before, last⟩

theorem stringAt_dirent (entry : DirEntryAt contents k)
    (bytes : ∀ j < DIRENT_SIZE, ∃ old, memory (buf + j) = direntByte contents k j old) :
    stringAt memory (d_name buf) NAME_MAX = entryName contents k := by
  refine stringAt_eq (fun j inName clean => ?_)
  obtain ⟨found, less, zero⟩ := entry.terminated
  have upTo : j ≤ (entryName contents k).length := by
    by_contra later
    have ends : ∃ len < NAME_MAX, contents (dirName (k * BDIRENTRY_SIZE) + len) = 0 ∧
        ∀ i < len, contents (dirName (k * BDIRENTRY_SIZE) + i) ≠ 0 := by
      obtain ⟨len, less, ends, _⟩ := strcpy_copies 0 entry.terminated
      exact ⟨len, less, ends⟩
    obtain ⟨len, less, zero, before⟩ := ends
    rw [entryName, stringAt_length less zero before] at later
    exact clean len (by omega) zero
  obtain ⟨old, byte⟩ := bytes (12 + j) (by unfold DIRENT_SIZE NAME_MAX at *; omega)
  have place : d_name buf + j = buf + (12 + j) := Nat.add_assoc _ _ _
  rw [place, byte, direntByte, if_pos (by omega), Nat.add_sub_cancel_left]

theorem strcpy_entry {k dirEntry : Nat} (entry : DirEntryAt contents k)
    (copies : MatchAt memory dirEntry contents (k * BDIRENTRY_SIZE) BDIRENTRY_SIZE) (de : Nat) :
    ∃ after, strcpy memory (d_name de) (dirName dirEntry) NAME_MAX = some after ∧
      (∀ address, address < de ∨ de + DIRENT_SIZE ≤ address → after address = memory address) ∧
      ∀ j < DIRENT_SIZE, after (de + j) = direntByte contents k j (memory (de + j)) := by
  have name : ∀ j < NAME_MAX, memory (dirName dirEntry + j) =
      contents (dirName (k * BDIRENTRY_SIZE) + j) := by
    intro j less
    rw [dirName, dirName, add_assoc, add_assoc]
    exact copies (256 + j) (by unfold NAME_MAX BDIRENTRY_SIZE at *; omega)
  obtain ⟨found, less, zero⟩ := entry.terminated
  obtain ⟨len, less, ⟨zero, before⟩, copied⟩ := strcpy_copies (d_name de)
    ⟨found, less, (name found less).trans zero⟩
  have length : (entryName contents k).length = len := by
    refine stringAt_length less ((name len less).symm.trans zero) (fun i earlier => ?_)
    rw [← name i (by omega)]
    exact before i earlier
  have within : 12 + (len + 1) ≤ DIRENT_SIZE := by
    unfold DIRENT_SIZE NAME_MAX at *
    omega
  refine ⟨_, copied, ?_, ?_⟩
  · intro address away
    exact copyBytes_outside _ _ _ _ _ _ (by unfold d_name; omega)
  · intro j inEntry
    rw [direntByte, length]
    by_cases inName : 12 ≤ j ∧ j ≤ 12 + len
    · have place : de + j = d_name de + (j - 12) := by
        unfold d_name
        omega
      rw [if_pos inName, place, copyBytes_offset _ _ _ _ _ _ (by omega)]
      exact name (j - 12) (by omega)
    · rw [if_neg inName]
      exact copyBytes_outside _ _ _ _ _ _ (by unfold d_name; omega)

theorem Listing.round (listing : Listing bufBase g fs vn f contents (n * BDIRENTRY_SIZE) s)
    (locals : Locals bufBase dirEntry de) (entry : DirEntryAt contents k) (inside : k < n)
    (room : buf + DIRENT_SIZE ≤ MEM_USERSPACE_TOP) :
    ∃ t, Listing bufBase g fs vn f contents (n * BDIRENTRY_SIZE) t ∧
      (∀ j < DIRENT_SIZE, t.cache.memory (de + j) = direntByte contents k j (s.cache.memory (de + j)) ∧
        t.cache.memory (buf + j) = t.cache.memory (de + j)) ∧
      (∀ address < MEM_USERSPACE_TOP, address < buf ∨ buf + DIRENT_SIZE ≤ address →
        t.cache.memory address = s.cache.memory address) ∧
      ∀ rounds len count, DIRENT_SIZE ≤ len →
        readDirLoop vn dirEntry de (rounds + 1) s buf len (k * BDIRENTRY_SIZE) count =
          readDirLoop vn dirEntry de rounds t (buf + DIRENT_SIZE) (len - DIRENT_SIZE)
            ((k + 1) * BDIRENTRY_SIZE) (count + 1) := by
  obtain ⟨t₁, read, afterRead, bytes, elsewhere⟩ := listing.read locals inside
  have copies : MatchAt t₁.cache.memory dirEntry contents (k * BDIRENTRY_SIZE) BDIRENTRY_SIZE := bytes
  have magic : sameBytes t₁.cache.memory dirEntry BDIR_MAGIC = true := by
    have same := sameBytes_match copies BDIR_MAGIC 0 (by decide)
    rw [add_zero, add_zero] at same
    exact same.trans entry.magic
  obtain ⟨memory, copied, named, filled⟩ := strcpy_entry entry copies de
  have afterName : Listing bufBase g fs vn f contents (n * BDIRENTRY_SIZE)
      { t₁ with cache.memory := memory } := by
    refine afterRead.store (fun address cached => named address ?_)
    by_contra between
    have out := locals.deOutside (address - de) (by omega)
    rw [Nat.add_sub_cancel' (by omega)] at out
    exact cached out
  obtain ⟨t, sent, final, delivered, others⟩ := afterName.copyOut locals room
  obtain ⟨cache, low, high⟩ := locals.kernel
  refine ⟨t, final, ?_, ?_, ?_⟩
  · intro j inEntry
    have local_ : t.cache.memory (de + j) = memory (de + j) := others _ (.inr (by omega))
    have apart := locals.apart
    have old := elsewhere _ (locals.deOutside j inEntry) (by omega)
    rw [← old]
    exact ⟨local_.trans (filled j inEntry), (delivered j inEntry).trans local_.symm⟩
  · intro address user away
    rw [others address away]
    exact (named address (by omega)).trans (elsewhere address (.inl (by omega)) (.inl (by omega)))
  · intro rounds length count enough
    have size : bnSize s.cache.memory (bufferOf s.cache vn.fsptr) = n * BDIRENTRY_SIZE :=
      (listing.opened.size listing.volume.coherent.rep).trans listing.size
    have before : k * BDIRENTRY_SIZE < n * BDIRENTRY_SIZE := mul_lt_mul_of_pos_right inside (by decide)
    have most := (listing.volume.sized f listing.opened.member).1
    rw [listing.size] at most
    have next := next_entry inside most
    rw [readDirLoop]
    simp only [size]
    rw [if_neg (by omega), if_neg (by omega), if_neg (by omega), read]
    simp only [ne_eq, not_true_eq_false, if_false, magic, if_true, copied, sent, next]

theorem readDirLoop_delivers (locals : Locals bufBase dirEntry de)
    (entries : ∀ k < n, DirEntryAt contents k) :
    ∀ rounds k buf len count s, Listing bufBase g fs vn f contents (n * BDIRENTRY_SIZE) s →
      k ≤ n → len / DIRENT_SIZE < rounds →
      buf + DIRENT_SIZE * min (len / DIRENT_SIZE) (n - k) ≤ MEM_USERSPACE_TOP →
      ∃ t, readDirLoop vn dirEntry de rounds s buf len (k * BDIRENTRY_SIZE) count =
          some (((count + min (len / DIRENT_SIZE) (n - k) : Nat) : Int),
            (k + min (len / DIRENT_SIZE) (n - k)) * BDIRENTRY_SIZE, t) ∧
        Listing bufBase g fs vn f contents (n * BDIRENTRY_SIZE) t ∧
        (∀ i < min (len / DIRENT_SIZE) (n - k), ∀ j < DIRENT_SIZE,
          t.cache.memory (buf + DIRENT_SIZE * i + j) =
            direntAfter contents j k (s.cache.memory (de + j)) (i + 1)) ∧
        ∀ address < MEM_USERSPACE_TOP,
          address < buf ∨ buf + DIRENT_SIZE * min (len / DIRENT_SIZE) (n - k) ≤ address →
          t.cache.memory address = s.cache.memory address := by
  intro rounds
  induction rounds with
  | zero =>
    intro k buf len count s _ _ few
    exact absurd few (Nat.not_lt_zero _)
  | succ rounds ih =>
    intro k buf len count s listing upTo few room
    have positive : 0 < DIRENT_SIZE := by decide
    by_cases short : len < DIRENT_SIZE
    · have none : min (len / DIRENT_SIZE) (n - k) = 0 := by
        rw [Nat.div_eq_of_lt short, Nat.zero_min]
      rw [none, readDirLoop, if_pos short]
      exact ⟨s, rfl, listing, fun i less => absurd less (Nat.not_lt_zero i), fun _ _ _ => rfl⟩
    by_cases ended : k = n
    · have none : min (len / DIRENT_SIZE) (n - k) = 0 := by
        rw [ended, Nat.sub_self, min_zero]
      have size : bnSize s.cache.memory (bufferOf s.cache vn.fsptr) = k * BDIRENTRY_SIZE := by
        rw [ended]
        exact (listing.opened.size listing.volume.coherent.rep).trans listing.size
      rw [none, readDirLoop]
      simp only [size]
      rw [if_neg short, if_pos True.intro]
      exact ⟨s, rfl, listing, fun i less => absurd less (Nat.not_lt_zero i), fun _ _ _ => rfl⟩
    have quotient : len / DIRENT_SIZE = (len - DIRENT_SIZE) / DIRENT_SIZE + 1 := by
      rw [← Nat.add_div_right _ positive, Nat.sub_add_cancel (by omega)]
    have one : min (len / DIRENT_SIZE) (n - k) =
        min ((len - DIRENT_SIZE) / DIRENT_SIZE) (n - (k + 1)) + 1 := by omega
    rw [one] at room ⊢
    rw [Nat.mul_succ] at room ⊢
    obtain ⟨t, next, filled, kept, step⟩ := listing.round locals (entries k (by omega))
      (show k < n by omega) (show buf + DIRENT_SIZE ≤ MEM_USERSPACE_TOP by omega)
    have fewer : (len - DIRENT_SIZE) / DIRENT_SIZE < rounds := by omega
    obtain ⟨u, ran, final, bytes, others⟩ := ih (k + 1) (buf + DIRENT_SIZE) (len - DIRENT_SIZE)
      (count + 1) t next (by omega) fewer (by omega)
    generalize min ((len - DIRENT_SIZE) / DIRENT_SIZE) (n - (k + 1)) = m at *
    refine ⟨u, ?_, final, ?_, ?_⟩
    · rw [step rounds len count (by omega), ran, add_assoc, add_comm 1 m, add_assoc k,
        add_comm 1 m]
    · intro i less j inEntry
      obtain ⟨byte, copied⟩ := filled j inEntry
      cases i with
      | zero =>
        rw [Nat.mul_zero, add_zero, others _ (by omega) (.inl (by omega)), copied, byte]
        rfl
      | succ i =>
        have later := bytes i (by omega) j inEntry
        rw [Nat.mul_succ, add_comm _ DIRENT_SIZE, ← add_assoc, later, byte]
        rfl
    · intro address user away
      rw [others address user (by omega), kept address user (by omega)]

theorem readDirLoop_lists (locals : Locals bufBase dirEntry de)
    (entries : ∀ k < n, DirEntryAt contents k) (rounds k buf len count : Nat) (s : IoState)
    (listing : Listing bufBase g fs vn f contents (n * BDIRENTRY_SIZE) s) (upTo : k ≤ n)
    (few : len / DIRENT_SIZE < rounds)
    (room : buf + DIRENT_SIZE * min (len / DIRENT_SIZE) (n - k) ≤ MEM_USERSPACE_TOP) :
    ∃ t, readDirLoop vn dirEntry de rounds s buf len (k * BDIRENTRY_SIZE) count =
        some (((count + min (len / DIRENT_SIZE) (n - k) : Nat) : Int),
          (k + min (len / DIRENT_SIZE) (n - k)) * BDIRENTRY_SIZE, t) ∧
      Listing bufBase g fs vn f contents (n * BDIRENTRY_SIZE) t ∧
      namesAt t.cache.memory buf (min (len / DIRENT_SIZE) (n - k)) =
        (range' k (min (len / DIRENT_SIZE) (n - k))).map (entryName contents) := by
  obtain ⟨t, ran, final, bytes, _⟩ :=
    readDirLoop_delivers locals entries rounds k buf len count s listing upTo few room
  refine ⟨t, ran, final, ?_⟩
  rw [range'_eq_map_range, map_map]
  refine map_congr_left (fun i member => ?_)
  have less := mem_range.mp member
  refine stringAt_dirent (entries (k + i) (by omega)) (fun j inEntry => ?_)
  rw [bytes i less j inEntry]
  exact direntAfter_last contents j k i _

/-- The entries that fit the first `i` buffers. -/
def delivered (n : Nat) (buffers : Nat → Nat × Nat) : Nat → Nat
  | 0 => 0
  | i + 1 => min n (delivered n buffers i + (buffers i).2 / DIRENT_SIZE)

theorem readDirCalls_lists (locals : Locals bufBase dirEntry de)
    (entries : ∀ k < n, DirEntryAt contents k) {buffers : Nat → Nat × Nat}
    (lengths : ∀ i, DIRENT_SIZE ≤ (buffers i).2) (copies : ∀ i, (buffers i).1 + DIRENT_SIZE *
      min ((buffers i).2 / DIRENT_SIZE) (n - delivered n buffers i) ≤ MEM_USERSPACE_TOP) :
    ∀ calls i k s, Listing bufBase g fs vn f contents (n * BDIRENTRY_SIZE) s → k ≤ n →
      k = delivered n buffers i → n - k < calls →
      ∃ t, readDirCalls vn dirEntry de buffers calls i (k * BDIRENTRY_SIZE) s =
        some ((range' k (n - k)).map (entryName contents), ((n - k : Nat) : Int),
          n * BDIRENTRY_SIZE, t) := by
  intro calls
  induction calls with
  | zero =>
    intro i k s _ _ _ few
    exact absurd few (Nat.not_lt_zero _)
  | succ calls ih =>
    intro i k s listing upTo position few
    have room := copies i
    rw [← position] at room
    obtain ⟨t, ran, next, names⟩ := readDirLoop_lists locals entries
      ((buffers i).2 / DIRENT_SIZE + 1) k (buffers i).1 (buffers i).2 0 s listing upTo (Nat.lt_succ_self _) room
    have fits : 0 < (buffers i).2 / DIRENT_SIZE := Nat.div_pos (lengths i) (by decide)
    have after : k + min ((buffers i).2 / DIRENT_SIZE) (n - k) = delivered n buffers (i + 1) := by
      rw [delivered, ← position]
      omega
    rw [zero_add] at ran
    rw [readDirCalls, o2fs_ReadDir, ran]
    generalize counted : min ((buffers i).2 / DIRENT_SIZE) (n - k) = m at *
    by_cases ended : k = n
    · have none : m = 0 := by omega
      rw [none, ended, Nat.sub_self]
      exact ⟨t, rfl⟩
    · obtain ⟨u, rest⟩ := ih (i + 1) (k + m) t next (by omega) after (by omega)
      have some_ : ((m : Nat) : Int) ≠ 0 := by omega
      have whole : n - k = m + (n - (k + m)) := by omega
      refine ⟨u, ?_⟩
      simp only [some_, if_false, rest, Option.map_some, Int.toNat_natCast, names]
      rw [← map_append, range'_append_1, ← whole, ← Nat.cast_add, ← whole]

/-- The names of a directory, each once and in the order of the disk, for every sequence of buffers
that hold at least one entry. -/
theorem o2fs_ReadDir_enumerates (volume : Volume bufBase g fs s.cache) (opened : Opened g fs s.cache vn f)
    (free : ∃ e < CACHEENTRIES, (s.cache.entry e).refCount = 0) (locals : Locals bufBase dirEntry de)
    (size : bnSize (image s.cache g.disk) f = n * BDIRENTRY_SIZE)
    (entries : ∀ k < n, DirEntryAt (fileByte (image s.cache g.disk) f) k) (buffers : Nat → Nat × Nat)
    (lengths : ∀ i, DIRENT_SIZE ≤ (buffers i).2)
    (copies : ∀ i, (buffers i).1 + DIRENT_SIZE *
      min ((buffers i).2 / DIRENT_SIZE) (n - delivered n buffers i) ≤ MEM_USERSPACE_TOP) (calls : Nat) (enough : n < calls) :
    ∃ t, readDirCalls vn dirEntry de buffers calls 0 0 s =
      some ((List.range n).map (entryName (fileByte (image s.cache g.disk) f)), (n : Int),
        bnSize (image s.cache g.disk) f, t) := by
  have listing : Listing bufBase g fs vn f (fileByte (image s.cache g.disk) f) (n * BDIRENTRY_SIZE) s :=
    ⟨volume, opened, free, fun _ => rfl, size⟩
  obtain ⟨t, ran⟩ := readDirCalls_lists locals entries lengths copies calls 0 0 s listing
    (Nat.zero_le n) rfl (by omega)
  rw [Nat.zero_mul, Nat.sub_zero, ← range_eq_range'] at ran
  exact ⟨t, ran.trans (by rw [size])⟩

end

/-! A root directory with two entries, `a` and `bc`, in block 3. -/

def withEntry (img : Memory) (dir : Nat) (name : List UInt8) : Memory :=
  storeBytes (storeBytes img dir BDIR_MAGIC) (dirName dir) name

def listImage : Memory :=
  withEntry (withEntry (withNode (smallVolume 15) (2 * BLOCKSIZE) (2 * BDIRENTRY_SIZE) (3 * BLOCKSIZE))
    (3 * BLOCKSIZE) (text ['a'])) (3 * BLOCKSIZE + BDIRENTRY_SIZE) (text ['b', 'c'])

theorem listImage_direct : ∀ i : Fin 64, bnDirect listImage (2 * BLOCKSIZE) i =
    if i = 0 then 3 * BLOCKSIZE else 0 := by
  decide

theorem listImage_size : bnSize listImage (2 * BLOCKSIZE) = 2 * BDIRENTRY_SIZE := by
  decide

theorem listImage_slot {slot : emptyGeometry.Slot} {block : Nat}
    (found : slots emptyGeometry listImage slot = some block) : slot.2 = 0 ∧ block = 3 * BLOCKSIZE := by
  obtain ⟨⟨f, member⟩, i⟩ := slot
  obtain rfl : f = 2 * BLOCKSIZE := member
  simp only [slots, listImage_direct i] at found
  by_cases first : i = 0
  · simp only [first, if_true] at found
    rw [if_neg (by decide), Option.some.injEq] at found
    exact ⟨first, found.symm⟩
  · simp [first] at found

theorem listImage_layout : Layout emptyGeometry listImage := by
  refine ⟨?_, ?_, ?_, fun _ kept => emptyGeometry_used (by decide) kept⟩
  · intro slot block found
    rw [(listImage_slot found).2]
    exact ⟨by decide, by decide, by decide⟩
  · intro slot block found reserved
    obtain ⟨n, less, place⟩ := emptyGeometry_reserved reserved
    rw [(listImage_slot found).2] at place
    unfold BLOCKSIZE at place
    omega
  · intro slot other block found found'
    refine Prod.ext (Subtype.ext ?_) ((listImage_slot found).1.trans (listImage_slot found').1.symm)
    exact slot.1.2.trans other.1.2.symm

theorem listImage_formatted : Formatted emptyGeometry listImage := by
  refine ⟨by decide, by decide, by decide, by decide,
    by decide, ?_, ?_⟩
  · have root : sbRootOffset listImage 0 = 2 * BLOCKSIZE := by decide
    exact root
  · rintro f rfl
    decide

theorem listImage_sized : Sized emptyGeometry listImage := by
  rintro f rfl
  rw [listImage_size]
  refine ⟨by decide, fun i below => ?_⟩
  obtain rfl : i = 0 := by
    unfold BLOCKSIZE BDIRENTRY_SIZE at below
    omega
  decide

theorem listImage_entries : ∀ k < 2, DirEntryAt (fileByte listImage (2 * BLOCKSIZE)) k := by
  intro k less
  have cases_ : k = 0 ∨ k = 1 := by omega
  rcases cases_ with rfl | rfl
  · exact ⟨by decide, 1, by decide, by decide⟩
  · exact ⟨by decide, 2, by decide, by decide⟩

theorem Formatted.agree {g : Geometry} {left right : Memory} (formatted : Formatted g right)
    (agree : ∀ offset, g.Reserved offset → AgreeAt left right offset) : Formatted g left := by
  have start : MatchAt left 0 right 0 BLOCKSIZE := agree 0 .superblock
  refine ⟨(superBlockOk_match start (by decide)).trans formatted.superblock,
    (loadLE_match start (by decide)).trans formatted.blockSize,
    (loadLE_match start (by decide)).trans formatted.bitmapSize,
    (loadLE_match start (by decide)).trans formatted.bitmapOffset, formatted.bitmapEnd, ?_, ?_⟩
  · have root : sbRootOffset left 0 = sbRootOffset right 0 := loadLE_match start (by decide)
    rw [root]
    exact formatted.root
  · intro f member
    exact (bnodeOk_match (agree f (.file f member)) (by decide)).trans (formatted.nodes f member)

theorem listed_mounted {img : Memory}
    (agree : ∀ offset, emptyGeometry.Reserved offset → AgreeAt img listImage offset) : ∃ fs root t,
    o2fs_Mount 1 (bufCacheInit MEM_USERSPACE_TOP (fun _ => 0) (fun _ => img) (fun _ => 0)
        (fun _ => 0)) = some (some (fs, root), t) ∧
      Volume MEM_USERSPACE_TOP emptyGeometry fs t ∧ Opened emptyGeometry fs t root (2 * BLOCKSIZE) ∧
      (∃ e < CACHEENTRIES, (t.entry e).refCount = 0) ∧ image t emptyGeometry.disk = img := by
  have same : sbRootOffset img 0 = sbRootOffset listImage 0 :=
    loadLE_match (show MatchAt img 0 listImage 0 BLOCKSIZE from agree 0 .superblock) (by decide)
  refine emptyGeometry_mounted _ (listImage_formatted.agree agree) (listImage_layout.agree agree)
    (listImage_sized.agree (fun f member => agree f (.file f member))) ?_
  rw [same]
  decide

theorem listImage_mounted : ∃ fs root t,
    o2fs_Mount 1 (bufCacheInit MEM_USERSPACE_TOP (fun _ => 0) (fun _ => listImage) (fun _ => 0)
        (fun _ => 0)) = some (some (fs, root), t) ∧
      Volume MEM_USERSPACE_TOP emptyGeometry fs t ∧ Opened emptyGeometry fs t root (2 * BLOCKSIZE) ∧
      (∃ e < CACHEENTRIES, (t.entry e).refCount = 0) ∧ image t emptyGeometry.disk = listImage :=
  listed_mounted (fun _ _ _ _ => rfl)

theorem topLocals : Locals MEM_USERSPACE_TOP (MEM_USERSPACE_TOP + BLOCKSIZE * CACHEENTRIES)
    (MEM_USERSPACE_TOP + BLOCKSIZE * CACHEENTRIES + BDIRENTRY_SIZE) :=
  ⟨⟨le_refl _, by omega, by omega⟩, fun i _ => .inr (by omega), fun i _ => .inr (by omega),
    .inl (le_refl _)⟩

theorem o2fs_ReadDir_enumerates_two : ∃ fs root t u,
    o2fs_Mount 1 (bufCacheInit MEM_USERSPACE_TOP (fun _ => 0) (fun _ => listImage) (fun _ => 0)
        (fun _ => 0)) = some (some (fs, root), t) ∧
      readDirCalls root (MEM_USERSPACE_TOP + BLOCKSIZE * CACHEENTRIES)
        (MEM_USERSPACE_TOP + BLOCKSIZE * CACHEENTRIES + BDIRENTRY_SIZE)
        (fun i => (4096, if i = 0 then 300 else 2720)) 3 0 0 ⟨t, []⟩ =
        some ([text ['a'], text ['b', 'c']], 2, 2 * BDIRENTRY_SIZE, u) := by
  obtain ⟨fs, root, t, mount, volume, opened, free, contents⟩ := listImage_mounted
  have entries : ∀ k < 2, DirEntryAt (fileByte (image t emptyGeometry.disk) (2 * BLOCKSIZE)) k := by
    rw [contents]
    exact listImage_entries
  have size : bnSize (image t emptyGeometry.disk) (2 * BLOCKSIZE) = 2 * BDIRENTRY_SIZE := by
    rw [contents, listImage_size]
  have room : ∀ m ≤ 2, 4096 + DIRENT_SIZE * m ≤ MEM_USERSPACE_TOP := by decide
  obtain ⟨u, ran⟩ := o2fs_ReadDir_enumerates (s := ⟨t, []⟩) volume opened free topLocals size entries
    (fun i => (4096, if i = 0 then 300 else 2720))
    (fun i => by
      show DIRENT_SIZE ≤ if i = 0 then 300 else 2720
      split <;> decide)
    (fun i => room _ (le_trans (min_le_right _ _) (Nat.sub_le 2 _))) 3 (by decide)
  refine ⟨fs, root, t, u, mount, ran.trans ?_⟩
  rw [size, contents]
  have names : (range 2).map (entryName (fileByte listImage (2 * BLOCKSIZE))) =
      [text ['a'], text ['b', 'c']] := by decide
  rw [names]
  rfl

end BoringOs.O2fs
