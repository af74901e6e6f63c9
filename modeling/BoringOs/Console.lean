import BoringOs.Copy
import BoringOs.Lib.Ring
import BoringOs.Lib.Runs

/-! The console, after `sys/dev/console.c`. `Console_Getc` polls the serial port when its buffer is
empty. Here it is the branch that takes a key from the buffer, and the characters of a line are a
list whatever they come from. -/

namespace BoringOs.Dev

open Ring Runs Function List Nat

def CONSOLE_KEYBUF_MAXLEN : Nat := 256

structure Console where
  nextKey : Nat
  lastKey : Nat
  keyBuf : Nat → UInt8

def console_EnqueueKey (key : UInt8) (consoles : Console) : Console :=
  if (consoles.lastKey + 1) % CONSOLE_KEYBUF_MAXLEN = consoles.lastKey then consoles
  else
    { consoles with
      keyBuf := Function.update consoles.keyBuf consoles.lastKey key
      lastKey := (consoles.lastKey + 1) % CONSOLE_KEYBUF_MAXLEN }

def console_Getc (consoles : Console) : Option (UInt8 × Console) :=
  if consoles.nextKey ≠ consoles.lastKey then
    some (consoles.keyBuf consoles.nextKey,
      { consoles with nextKey := (consoles.nextKey + 1) % CONSOLE_KEYBUF_MAXLEN })
  else none

/-- The keys that the next calls of `Console_Getc` return. -/
def Console.buffered (consoles : Console) : List UInt8 :=
  window consoles.keyBuf CONSOLE_KEYBUF_MAXLEN consoles.nextKey
    (between CONSOLE_KEYBUF_MAXLEN consoles.nextKey consoles.lastKey)

inductive KeyEvent where
  | enqueue (key : UInt8)
  | getc

/-- The buffer beside the keys that were passed to it, those it has accepted and not returned, and those
that it has returned. -/
structure Keyboard where
  consoles : Console
  enqueued : List UInt8
  undelivered : List UInt8
  delivered : List UInt8

def Keyboard.apply (s : Keyboard) : KeyEvent → Option Keyboard
  | .enqueue key =>
    let dropped := (s.consoles.lastKey + 1) % CONSOLE_KEYBUF_MAXLEN = s.consoles.lastKey
    some { s with
      consoles := console_EnqueueKey key s.consoles
      enqueued := s.enqueued ++ [key]
      undelivered := if dropped then s.undelivered else s.undelivered ++ [key] }
  | .getc =>
    match console_Getc s.consoles with
    | none => some s
    | some (key, consoles) =>
      some { s with
        consoles := consoles
        undelivered := s.undelivered.tail
        delivered := s.delivered ++ [key] }

/-- After `Console_Init`. What is in the buffer before is never read. -/
def Keyboard.init (keyBuf : Nat → UInt8) : Keyboard := ⟨⟨0, 0, keyBuf⟩, [], [], []⟩

/-- An event of a bounded queue: every accepted key is in the buffer, a key is dropped only by a full
buffer, a key is returned if there is one and then the oldest, and the keys keep their order. -/
structure Orderly (s : Keyboard) (event : KeyEvent) (t : Keyboard) : Prop where
  kept : t.consoles.buffered = t.undelivered
  accepted : ∀ key, event = .enqueue key → t.undelivered = s.undelivered ++ [key] ∨
    t.undelivered = s.undelivered ∧ s.undelivered.length = CONSOLE_KEYBUF_MAXLEN - 1
  returned : event = .getc → t.delivered = s.delivered ++ s.undelivered.head?.toList ∧
    t.undelivered = s.undelivered.tail
  sublist : (t.delivered ++ t.undelivered).Sublist t.enqueued

/-- No key comes while 255 are waiting. -/
def Room (s : Keyboard) (event : KeyEvent) (_ : Keyboard) : Prop :=
  ∀ key, event = .enqueue key → s.undelivered.length < CONSOLE_KEYBUF_MAXLEN - 1

section

variable {s t : Keyboard}

structure KeysInv (s : Keyboard) : Prop where
  inNext : s.consoles.nextKey < CONSOLE_KEYBUF_MAXLEN
  inLast : s.consoles.lastKey < CONSOLE_KEYBUF_MAXLEN
  kept : s.consoles.buffered = s.undelivered
  sublist : (s.delivered ++ s.undelivered).Sublist s.enqueued

theorem KeysInv.waiting (inv : KeysInv s) :
    between CONSOLE_KEYBUF_MAXLEN s.consoles.nextKey s.consoles.lastKey = s.undelivered.length := by
  rw [← inv.kept, Console.buffered, window_length]

/-- The test for a full buffer never succeeds: it compares `lastKey` with itself. -/
theorem never_full (last : Nat) : (last + 1) % CONSOLE_KEYBUF_MAXLEN ≠ last := by
  unfold CONSOLE_KEYBUF_MAXLEN
  omega

theorem apply_enqueue (s : Keyboard) (key : UInt8) :
    s.apply (.enqueue key) = some
      ⟨⟨s.consoles.nextKey, (s.consoles.lastKey + 1) % CONSOLE_KEYBUF_MAXLEN,
          update s.consoles.keyBuf s.consoles.lastKey key⟩,
        s.enqueued ++ [key], s.undelivered ++ [key], s.delivered⟩ := by
  have accepts := never_full s.consoles.lastKey
  simp only [Keyboard.apply, console_EnqueueKey, if_neg accepts]

theorem KeysInv.enqueue_room (inv : KeysInv s) {key : UInt8}
    (moved : s.apply (.enqueue key) = some t) (room : s.undelivered.length < CONSOLE_KEYBUF_MAXLEN - 1) :
    Orderly s (.enqueue key) t ∧ KeysInv t := by
  obtain rfl := Option.some.inj ((apply_enqueue s key).symm.trans moved)
  have waiting := inv.waiting
  have fits : between CONSOLE_KEYBUF_MAXLEN s.consoles.nextKey s.consoles.lastKey + 1 <
      CONSOLE_KEYBUF_MAXLEN := by omega
  obtain ⟨place, grown⟩ := between_push inv.inNext inv.inLast fits
  have kept : Console.buffered ⟨s.consoles.nextKey, (s.consoles.lastKey + 1) % CONSOLE_KEYBUF_MAXLEN,
      update s.consoles.keyBuf s.consoles.lastKey key⟩ = s.undelivered ++ [key] := by
    have pushed := window_push s.consoles.keyBuf s.consoles.nextKey (lt_of_succ_lt fits) key
    rw [place, ← grown] at pushed
    exact pushed.trans (congrArg (· ++ [key]) inv.kept)
  have sublist : (s.delivered ++ (s.undelivered ++ [key])).Sublist (s.enqueued ++ [key]) := by
    rw [← append_assoc]
    exact inv.sublist.append (List.Sublist.refl [key])
  have inLast : (s.consoles.lastKey + 1) % CONSOLE_KEYBUF_MAXLEN < CONSOLE_KEYBUF_MAXLEN :=
    mod_lt _ (by decide)
  exact ⟨⟨kept, fun _ same => .inl (by cases same; rfl), nofun, sublist⟩,
    ⟨inv.inNext, inLast, kept, sublist⟩⟩

theorem KeysInv.enqueue_full (inv : KeysInv s) {key : UInt8}
    (moved : s.apply (.enqueue key) = some t) (full : CONSOLE_KEYBUF_MAXLEN - 1 ≤ s.undelivered.length) :
    t.consoles.buffered = [] ∧ t.undelivered ≠ [] := by
  obtain rfl := Option.some.inj ((apply_enqueue s key).symm.trans moved)
  have waiting := inv.waiting
  refine ⟨?_, append_ne_nil_of_right_ne_nil _ (cons_ne_nil _ _)⟩
  have around : s.consoles.nextKey = (s.consoles.lastKey + 1) % CONSOLE_KEYBUF_MAXLEN := by
    have inNext := inv.inNext
    unfold between CONSOLE_KEYBUF_MAXLEN at *
    omega
  rw [Console.buffered, (between_eq_zero inv.inNext (mod_lt _ (by decide))).mpr around]
  rfl

theorem KeysInv.getc (inv : KeysInv s) (moved : s.apply .getc = some t) :
    Orderly s .getc t ∧ KeysInv t := by
  unfold Keyboard.apply console_Getc at moved
  by_cases empty : s.consoles.nextKey = s.consoles.lastKey
  · rw [if_neg (not_not.mpr empty)] at moved
    obtain rfl := Option.some.inj moved
    have none : s.undelivered = [] := by
      rw [← length_eq_zero_iff, ← inv.waiting]
      exact (between_eq_zero inv.inNext inv.inLast).mpr empty
    refine ⟨⟨inv.kept, nofun, fun _ => ?_, inv.sublist⟩, inv⟩
    rw [none]
    exact ⟨(append_nil _).symm, rfl⟩
  · rw [if_pos empty] at moved
    obtain rfl := Option.some.inj moved
    have shrunk := between_pop inv.inNext inv.inLast empty
    have split : s.undelivered = s.consoles.keyBuf s.consoles.nextKey ::
        Console.buffered ⟨(s.consoles.nextKey + 1) % CONSOLE_KEYBUF_MAXLEN, s.consoles.lastKey,
          s.consoles.keyBuf⟩ := by
      rw [← inv.kept, Console.buffered, shrunk, window_pop inv.inNext]
      rfl
    have sublist := inv.sublist
    rw [split, append_cons] at sublist
    have kept := congrArg tail split
    rw [tail_cons] at kept
    rw [← kept] at sublist
    refine ⟨⟨kept.symm, nofun, fun _ => ⟨?_, rfl⟩, sublist⟩, ⟨mod_lt _ (by decide), inv.inLast,
      kept.symm, sublist⟩⟩
    rw [split]
    rfl

end

theorem KeysInv.init (keyBuf : Nat → UInt8) : KeysInv (Keyboard.init keyBuf) := by
  refine ⟨zero_lt_succ _, zero_lt_succ _, ?_, List.Sublist.refl _⟩
  have empty : between CONSOLE_KEYBUF_MAXLEN 0 0 = 0 := by decide
  show window keyBuf CONSOLE_KEYBUF_MAXLEN 0 (between CONSOLE_KEYBUF_MAXLEN 0 0) = []
  rw [empty]
  rfl

/-- The buffer is a bounded queue along a run exactly when no key comes while 255 are waiting. -/
theorem console_keys_fifo_iff (keyBuf : Nat → UInt8) (events : List KeyEvent) :
    Along Keyboard.apply Orderly (Keyboard.init keyBuf) events ↔
      Along Keyboard.apply Room (Keyboard.init keyBuf) events := by
  refine along_iff KeysInv ?_ ?_ (KeysInv.init keyBuf) events
  · intro s event t inv moved room
    cases event with
    | enqueue key => exact inv.enqueue_room moved (room key rfl)
    | getc => exact inv.getc moved
  · intro s event t inv moved crowded orderly
    cases event with
    | enqueue key =>
      have full : CONSOLE_KEYBUF_MAXLEN - 1 ≤ s.undelivered.length := by
        by_contra less
        exact crowded (fun _ _ => by omega)
      obtain ⟨lost, some_left⟩ := inv.enqueue_full moved full
      exact some_left (orderly.kept.symm.trans lost)
    | getc => exact crowded nofun

/-- After 256 keys that nobody has read, `Console_Getc` finds the buffer empty. -/
theorem console_keys_lost :
    let s := (List.replicate 256 7).foldl (fun s key => (s.apply (.enqueue key)).getD s)
      (Keyboard.init (fun _ => 0))
    s.undelivered.length = 256 ∧ s.delivered = [] ∧ (console_Getc s.consoles).isNone = true := by
  decide +kernel

/-- `Console_Write` at work: its variables, the characters it has passed to `Console_Putc`, and the
ranges of the user's memory that it has asked `Copy_In` for. `places` are the addresses that the
bytes of `kbuf` were copied from, `none` for what was on the stack, and `origins` those of `output`. -/
structure Writing where
  nbytes : Nat
  kbuf : List UInt8
  output : List UInt8
  reads : List (Nat × Nat)
  places : Nat → Option Nat
  origins : List (Option Nat)

/-- The size of `kbuf`. -/
def CHUNK : Nat := 512

def chunksz (len : Nat) : Nat := if CHUNK < len then CHUNK else len

/-- A round of the loop. The status of `Copy_In` is not looked at. -/
def writeChunk (user : User.Memory) (b len : Nat) (s : Writing) : Writing :=
  let bytes := (User.copy_In user (add64 b s.nbytes) (chunksz len)).2
  let kbuf := bytes ++ s.kbuf.drop bytes.length
  let places := fun i => if i < bytes.length then some (add64 b s.nbytes + i) else s.places i
  { nbytes := add64 s.nbytes (chunksz len)
    kbuf := kbuf
    output := s.output ++ kbuf.take (chunksz len)
    reads := s.reads ++ [(add64 b s.nbytes, chunksz len)]
    places := places
    origins := s.origins ++ (List.range (chunksz len)).map places }

/-- At most so many rounds of the loop. -/
def writeRounds (user : User.Memory) (b len rounds : Nat) : Writing → Writing :=
  (fun s => if s.nbytes < len then writeChunk user b len s else s)^[rounds]

def writeStart (kbuf : List UInt8) : Writing := ⟨0, kbuf, [], [], fun _ => none, []⟩

/-- `none` when the loop does not end. -/
def console_Write (user : User.Memory) (kbuf : List UInt8) (buf len : Nat) : Option (Int × Writing) :=
  let s := writeRounds user buf len (len / CHUNK + 1) (writeStart kbuf)
  if s.nbytes < len then none else some (toInt32 s.nbytes, s)

/-- The call returns `len`, has written the bytes of the buffer, and has read inside it. -/
def WritesExactly (user : User.Memory) (buf len : Nat) (result : Option (Int × Writing)) : Prop :=
  ∃ s, result = some ((len : Int), s) ∧ s.output.map some = (List.range len).map (fun i => user (buf + i)) ∧
    ∀ read ∈ s.reads, buf ≤ read.1 ∧ read.1 + read.2 ≤ buf + len

def Inside (buf len : Nat) (origin : Option Nat) : Prop := ∃ i < len, origin = some (buf + i)

/-- However long the loop runs, it puts out nothing that did not come from the buffer. -/
def WritesOnly (user : User.Memory) (kbuf : List UInt8) (buf len : Nat) : Prop :=
  ∀ rounds, ∀ origin ∈ (writeRounds user buf len rounds (writeStart kbuf)).origins, Inside buf len origin

/-- The first chunk can be copied in, and what is copied in last ends inside the buffer: the chunks
fill it, or a copy of the last one fails before the end of the buffer is passed. -/
def Contained (user : User.Memory) (buf len : Nat) : Prop :=
  (buf + chunksz len ≤ MEM_USERSPACE_TOP ∧ ∀ i < chunksz len, (user (buf + i)).isSome) ∧
    (chunksz len ∣ len ∨
      ¬ (buf + len / CHUNK * CHUNK + CHUNK ≤ MEM_USERSPACE_TOP ∧
        ∀ i ≤ len % CHUNK, (user (buf + len / CHUNK * CHUNK + i)).isSome))

section

variable {user : User.Memory} {data : Nat → UInt8} {buf len : Nat} {s t : Writing}

theorem copyUnsafe_mapped {address count : Nat}
    (mapped : ∀ i < count, user (address + i) = some (data i)) :
    User.copyUnsafe user address count = (0, (range count).map data) := by
  induction count generalizing address data with
  | zero => rfl
  | succ count ih =>
    have first := mapped 0 (succ_pos count)
    have rest : User.copyUnsafe user (address + 1) count =
        (0, (range count).map (fun i => data (i + 1))) := by
      refine ih (fun i less => ?_)
      rw [add_assoc, add_comm 1 i]
      exact mapped (i + 1) (succ_lt_succ less)
    rw [add_zero] at first
    unfold User.copyUnsafe
    simp only [first, rest]
    rw [range_succ_eq_map, map_cons, map_map]
    rfl

theorem copy_In_mapped {address count : Nat}
    (mapped : ∀ i < count, user (address + i) = some (data i)) (below : address + count ≤ MEM_USERSPACE_TOP) :
    (User.copy_In user address count).2 = (range count).map data := by
  unfold User.copy_In User.checked
  by_cases empty : count = 0
  · rw [if_pos empty, empty]
    rfl
  · rw [if_neg empty, if_neg (by omega), if_neg (by omega), copyUnsafe_mapped mapped]

structure Wrote (data : Nat → UInt8) (buf len : Nat) (s : Writing) : Prop where
  output : s.output = (List.range s.nbytes).map data
  reads : ∀ read ∈ s.reads, buf ≤ read.1 ∧ read.1 + read.2 ≤ buf + len

theorem Wrote.chunk (wrote : Wrote data buf len s)
    (mapped : ∀ i < len, user (buf + i) = some (data i)) (below : buf + len ≤ MEM_USERSPACE_TOP)
    (fits : s.nbytes + chunksz len ≤ len) :
    Wrote data buf len (writeChunk user buf len s) ∧
      (writeChunk user buf len s).nbytes = s.nbytes + chunksz len := by
  have small : MEM_USERSPACE_TOP < word64 := by decide
  have place : add64 buf s.nbytes = buf + s.nbytes := add64_of_lt (by omega)
  have next : add64 s.nbytes (chunksz len) = s.nbytes + chunksz len := add64_of_lt (by omega)
  have bytes : (User.copy_In user (buf + s.nbytes) (chunksz len)).2 =
      (range (chunksz len)).map (fun i => data (s.nbytes + i)) := by
    refine copy_In_mapped (fun i less => ?_) (by omega)
    rw [add_assoc]
    exact mapped (s.nbytes + i) (by omega)
  unfold writeChunk
  simp only [place, next, bytes]
  refine ⟨⟨?_, ?_⟩, True.intro⟩
  · rw [take_left' (by rw [length_map, length_range]), wrote.output, range_add,
      map_append, map_map]
    rfl
  · intro read member
    rcases mem_append.mp member with old | new
    · exact wrote.reads read old
    · obtain rfl := mem_singleton.mp new
      exact ⟨Nat.le_add_right _ _, by show buf + s.nbytes + chunksz len ≤ buf + len; omega⟩

theorem Wrote.rounds (mapped : ∀ i < len, user (buf + i) = some (data i))
    (below : buf + len ≤ MEM_USERSPACE_TOP) (rounds : Nat) :
    ∀ (left : Nat) (s : Writing), left ≤ rounds → Wrote data buf len s → s.nbytes + chunksz len * left = len →
      Wrote data buf len (writeRounds user buf len rounds s) ∧
        (writeRounds user buf len rounds s).nbytes = len := by
  induction rounds with
  | zero =>
    intro left s none wrote whole
    obtain rfl := le_zero.mp none
    exact ⟨wrote, whole⟩
  | succ rounds ih =>
    intro left s few wrote whole
    unfold writeRounds
    rw [iterate_succ_apply]
    by_cases more : s.nbytes < len
    · cases left with
      | zero => omega
      | succ left =>
        rw [mul_succ] at whole
        obtain ⟨kept, moved⟩ := wrote.chunk mapped below (by omega)
        rw [if_pos more]
        exact ih left _ (by omega) kept (by omega)
    · rw [if_neg more]
      exact ih 0 s (Nat.zero_le _) wrote (by omega)

theorem writeRounds_whole (long : CHUNK < len) (rounds : Nat) :
    ∀ s : Writing, CHUNK ∣ s.nbytes → CHUNK ∣ (writeRounds user buf len rounds s).nbytes := by
  induction rounds with
  | zero => exact fun s whole => whole
  | succ rounds ih =>
    intro s whole
    unfold writeRounds
    rw [iterate_succ_apply]
    refine ih _ ?_
    split
    · unfold writeChunk add64 chunksz
      simp only [if_pos long]
      exact (dvd_mod_iff (by decide)).mpr (Nat.dvd_add whole (Nat.dvd_refl _))
    · exact whole

theorem toInt32_lt (value : Nat) : toInt32 value < 2 ^ 31 := by
  unfold toInt32
  split <;> omega

theorem toInt32_whole {value : Nat} (whole : CHUNK ∣ value) : (CHUNK : Int) ∣ toInt32 value := by
  unfold CHUNK toInt32 at *
  split <;> omega

theorem copyUnsafe_reaches (user : User.Memory) (address count j : Nat) :
    j < (User.copyUnsafe user address count).2.length ↔
      j < count ∧ ∀ i ≤ j, (user (address + i)).isSome := by
  induction count generalizing address j with
  | zero => simp [User.copyUnsafe]
  | succ count ih =>
    unfold User.copyUnsafe
    cases found : user address with
    | none =>
      refine iff_of_false (Nat.not_lt_zero j) (fun there => ?_)
      have first := there.2 0 (Nat.zero_le j)
      rw [Nat.add_zero, found] at first
      cases first
    | some byte =>
      cases j with
      | zero => simp [found]
      | succ j =>
        simp only [length_cons, Nat.add_lt_add_iff_right, ih]
        refine and_congr_right fun _ => ⟨fun all i few => ?_, fun all i few => ?_⟩
        · cases i with
          | zero => simp [found]
          | succ i =>
            have here := all i (le_of_succ_le_succ few)
            rwa [show address + 1 + i = address + (i + 1) by omega] at here
        · rw [show address + 1 + i = address + (i + 1) by omega]
          exact all (i + 1) (succ_le_succ few)

theorem copy_In_reaches (user : User.Memory) (address count j : Nat) :
    j < (User.copy_In user address count).2.length ↔
      j < count ∧ address + count ≤ MEM_USERSPACE_TOP ∧ ∀ i ≤ j, (user (address + i)).isSome := by
  unfold User.copy_In User.checked
  split_ifs with empty high long
  · exact iff_of_false (Nat.not_lt_zero j) (by omega)
  · exact iff_of_false (Nat.not_lt_zero j) (by omega)
  · exact iff_of_false (Nat.not_lt_zero j) (by omega)
  · rw [copyUnsafe_reaches]
    exact and_congr_right fun _ => (and_iff_right (by omega)).symm

/-- What a round keeps once the first chunk is in `kbuf`. -/
structure Kept (buf len : Nat) (s : Writing) : Prop where
  whole : chunksz len ∣ s.nbytes
  places : ∀ i < chunksz len, Inside buf len (s.places i)
  origins : ∀ origin ∈ s.origins, Inside buf len origin

/-- A chunk is copied from inside the buffer. -/
theorem Contained.inside (contained : Contained user buf len) {n j : Nat} (more : n < len)
    (whole : chunksz len ∣ n)
    (copied : j < (User.copy_In user (buf + n) (chunksz len)).2.length) : n + j < len := by
  obtain ⟨less, below, mapped⟩ := (copy_In_reaches ..).mp copied
  by_cases fills : chunksz len ∣ len
  · have room : n + chunksz len ≤ len := by
      obtain ⟨k, rfl⟩ := whole
      obtain ⟨m, total⟩ := fills
      have step : k + 1 ≤ m := Nat.lt_of_mul_lt_mul_left (Nat.lt_of_lt_of_eq more total)
      calc chunksz len * k + chunksz len = chunksz len * (k + 1) := (Nat.mul_succ _ _).symm
        _ ≤ chunksz len * m := Nat.mul_le_mul_left _ step
        _ = len := total.symm
    omega
  · have size : chunksz len = CHUNK := by
      unfold chunksz at fills ⊢
      split at fills
      · rename_i long
        exact if_pos long
      · exact absurd (Nat.dvd_refl len) fills
    have stops := contained.2.resolve_left fills
    by_contra beyond
    rw [size] at whole less below
    -- the chunk that passes the end of the buffer is the last one
    have last : n = len / CHUNK * CHUNK := by
      unfold CHUNK at *
      omega
    subst last
    refine stops ⟨below, fun i few => mapped i ?_⟩
    have split := Nat.div_add_mod' len CHUNK
    omega

theorem Contained.kept (contained : Contained user buf len) (inside : buf + len ≤ word64)
    (more : s.nbytes < len) (whole : chunksz len ∣ s.nbytes)
    (places : ∀ i < chunksz len, Inside buf len (s.places i) ∨
      i < (User.copy_In user (buf + s.nbytes) (chunksz len)).2.length)
    (origins : ∀ origin ∈ s.origins, Inside buf len origin) :
    Kept buf len (writeChunk user buf len s) := by
  have address : add64 buf s.nbytes = buf + s.nbytes := add64_of_lt (by omega)
  have placed : ∀ i < chunksz len, Inside buf len ((writeChunk user buf len s).places i) := by
    intro i less
    simp only [writeChunk, address]
    split
    · rename_i copied
      exact ⟨s.nbytes + i, contained.inside more whole copied, congrArg some (Nat.add_assoc ..)⟩
    · rename_i stale
      exact (places i less).resolve_right stale
  refine ⟨?_, placed, ?_⟩
  · show chunksz len ∣ add64 s.nbytes (chunksz len)
    by_cases long : CHUNK < len
    · rw [show chunksz len = CHUNK from if_pos long] at whole ⊢
      exact (dvd_mod_iff (by decide)).mpr (Nat.dvd_add whole (Nat.dvd_refl _))
    · have size : chunksz len = len := if_neg long
      have zero : s.nbytes = 0 := Nat.eq_zero_of_dvd_of_lt whole (by omega)
      have short : 0 + len < word64 := by
        have least : CHUNK < word64 := by decide
        omega
      rw [size, zero, add64_of_lt short, Nat.zero_add]
  · intro origin member
    rcases mem_append.mp member with old | new
    · exact origins origin old
    · obtain ⟨i, less, rfl⟩ := mem_map.mp new
      exact placed i (mem_range.mp less)

theorem Contained.writesOnly (contained : Contained user buf len) (inside : buf + len ≤ word64)
    (positive : 0 < len) (kbuf : List UInt8) : WritesOnly user kbuf buf len := by
  have first : Kept buf len (writeChunk user buf len (writeStart kbuf)) := by
    refine contained.kept inside positive (Nat.dvd_zero _) (fun i less => .inr ?_) nofun
    exact (copy_In_reaches ..).mpr ⟨less, contained.1.1,
      fun j few => contained.1.2 j (Nat.lt_of_le_of_lt few less)⟩
  have later : ∀ rounds s, Kept buf len s → Kept buf len (writeRounds user buf len rounds s) := by
    intro rounds
    induction rounds with
    | zero => exact fun s kept => kept
    | succ rounds ih =>
      intro s kept
      unfold writeRounds
      rw [iterate_succ_apply]
      refine ih _ ?_
      split
      · rename_i more
        exact contained.kept inside more kept.whole (fun i less => .inl (kept.places i less)) kept.origins
      · exact kept
  intro rounds
  cases rounds with
  | zero => exact nofun
  | succ rounds =>
    unfold writeRounds
    rw [iterate_succ_apply, if_pos (show (writeStart kbuf).nbytes < len from positive)]
    exact (later rounds _ first).origins

/-- While the buffer is not exhausted, every round takes a whole chunk. -/
theorem writeRounds_nbytes (kbuf : List UInt8) (long : CHUNK < len) (small : len < word64) (k : Nat)
    (few : k ≤ len / CHUNK) : (writeRounds user buf len k (writeStart kbuf)).nbytes = k * CHUNK := by
  induction k with
  | zero => exact (Nat.zero_mul _).symm
  | succ k ih =>
    have before := ih (Nat.le_of_succ_le few)
    have room : (k + 1) * CHUNK ≤ len := (Nat.mul_le_mul_right _ few).trans (Nat.div_mul_le_self ..)
    rw [Nat.succ_mul] at room ⊢
    have positive : 0 < CHUNK := by decide
    unfold writeRounds at before ⊢
    rw [iterate_succ_apply', if_pos (by omega)]
    show add64 _ (chunksz len) = _
    rw [before, show chunksz len = CHUNK from if_pos long]
    exact add64_of_lt (by omega)

theorem WritesOnly.contained {kbuf : List UInt8} (only : WritesOnly user kbuf buf len)
    (inside : buf + len ≤ word64) (positive : 0 < len) : Contained user buf len := by
  have place : add64 buf 0 = buf := add64_of_lt (by omega)
  have copied : ∀ i < chunksz len, i < (User.copy_In user buf (chunksz len)).2.length := by
    intro i less
    obtain ⟨j, -, origin⟩ := only 1 ((writeChunk user buf len (writeStart kbuf)).places i) (by
      unfold writeRounds
      rw [iterate_one, if_pos (show (writeStart kbuf).nbytes < len from positive)]
      exact mem_append_right _ (mem_map_of_mem (mem_range.mpr less)))
    by_contra stale
    simp only [writeChunk, writeStart, place, if_neg stale] at origin
    cases origin
  have some_copied : 0 < chunksz len := by
    unfold chunksz CHUNK
    split <;> omega
  refine ⟨⟨((copy_In_reaches ..).mp (copied 0 some_copied)).2.1,
    fun i less => ((copy_In_reaches ..).mp (copied i less)).2.2 i (Nat.le_refl i)⟩, ?_⟩
  by_contra overrun
  rw [not_or, not_not] at overrun
  obtain ⟨rest, below, mapped⟩ := overrun
  have long : CHUNK < len := by
    by_contra short
    exact rest (by rw [show chunksz len = len from if_neg short])
  rw [show chunksz len = CHUNK from if_pos long] at rest
  have small : len < word64 := by
    refine Nat.lt_of_le_of_ne (by omega) (fun same => rest ?_)
    rw [same]
    decide
  have split := Nat.div_add_mod' len CHUNK
  have left : 0 < len % CHUNK := Nat.pos_of_ne_zero (fun none => rest (Nat.dvd_of_mod_eq_zero none))
  have less : len % CHUNK < CHUNK := Nat.mod_lt _ (by decide)
  have before := @writeRounds_nbytes user buf len kbuf long small _ (Nat.le_refl _)
  have address : add64 buf (len / CHUNK * CHUNK) = buf + len / CHUNK * CHUNK := add64_of_lt (by omega)
  obtain ⟨j, less', origin⟩ := only (len / CHUNK + 1) _ (by
    unfold writeRounds at before ⊢
    rw [iterate_succ_apply', if_pos (by omega)]
    refine mem_append_right _ (mem_map_of_mem (a := len % CHUNK) (mem_range.mpr ?_))
    rw [show chunksz len = CHUNK from if_pos long]
    exact less)
  unfold writeRounds at before
  have passed : len % CHUNK < (User.copy_In user (buf + len / CHUNK * CHUNK) CHUNK).2.length :=
    (copy_In_reaches ..).mpr ⟨less, below, mapped⟩
  simp only [before, address, show chunksz len = CHUNK from if_pos long, if_pos passed, Option.some.injEq] at origin
  omega

end

/-- A mapped buffer is written exactly when it is at most one chunk or a whole number of chunks, and
its length is an `int`. Of any buffer nothing else is put out exactly when it is contained. -/
theorem console_Write_exact_iff (user : User.Memory) (kbuf : List UInt8) (buf len : Nat)
    (inside : buf + len ≤ word64) :
    ((∀ i < len, (user (buf + i)).isSome) → buf + len ≤ MEM_USERSPACE_TOP →
      (WritesExactly user buf len (console_Write user kbuf buf len) ↔
        (len ≤ CHUNK ∨ CHUNK ∣ len) ∧ len < 2 ^ 31)) ∧
    (WritesOnly user kbuf buf len ↔ len = 0 ∨ Contained user buf len) := by
  refine ⟨fun mapped below => ⟨?_, ?_⟩, fun only => ?_, ?_⟩
  · rintro ⟨s, ran, -, -⟩
    simp only [console_Write] at ran
    split at ran
    · cases ran
    · have returned : toInt32 (writeRounds user buf len (len / CHUNK + 1) (writeStart kbuf)).nbytes = len :=
        congrArg Prod.fst (Option.some.inj ran)
      have most := toInt32_lt (writeRounds user buf len (len / CHUNK + 1) (writeStart kbuf)).nbytes
      refine ⟨?_, by omega⟩
      by_cases long : CHUNK < len
      · have whole := toInt32_whole
          (@writeRounds_whole user buf len long (len / CHUNK + 1) (writeStart kbuf) (dvd_zero _))
        rw [returned] at whole
        exact .inr (Int.natCast_dvd_natCast.mp whole)
      · exact .inl (Nat.le_of_not_lt long)
  · rintro ⟨whole, fits⟩
    have data : ∀ i < len, user (buf + i) = some ((user (buf + i)).getD 0) := by
      intro i less
      obtain ⟨byte, found⟩ := Option.isSome_iff_exists.mp (mapped i less)
      rw [found]
      rfl
    have start : Wrote (fun i => (user (buf + i)).getD 0) buf len (writeStart kbuf) := ⟨rfl, nofun⟩
    have rounds : ∃ left ≤ len / CHUNK + 1, chunksz len * left = len := by
      unfold chunksz
      by_cases long : CHUNK < len
      · rw [if_pos long]
        exact ⟨len / CHUNK, le_succ _, Nat.mul_div_cancel' (whole.resolve_left (by omega))⟩
      · rw [if_neg long]
        exact ⟨1, Nat.le_add_left _ _, Nat.mul_one len⟩
    obtain ⟨left, few, total⟩ := rounds
    obtain ⟨wrote, ended⟩ := Wrote.rounds data below _ left _ few start (by
      show 0 + _ = _
      rw [zero_add]
      exact total)
    refine ⟨writeRounds user buf len (len / CHUNK + 1) (writeStart kbuf), ?_, ?_, wrote.reads⟩
    · simp only [console_Write]
      rw [if_neg (by omega), ended, toInt32_of_lt fits]
    · rw [wrote.output, ended, map_map]
      refine map_congr_left fun i member => ?_
      exact (data i (mem_range.mp member)).symm
  · rcases Nat.eq_zero_or_pos len with empty | positive
    · exact .inl empty
    · exact .inr (only.contained inside positive)
  · intro fine
    rcases Nat.eq_zero_or_pos len with rfl | positive
    · have still : ∀ rounds, writeRounds user buf 0 rounds (writeStart kbuf) = writeStart kbuf :=
        iterate_fixed (if_neg (Nat.not_lt_zero _))
      intro rounds
      rw [still]
      exact nofun
    · exact (fine.resolve_left (Nat.ne_of_gt positive)).writesOnly inside positive kbuf

/-- A kilobyte, and one of which only the first half is mapped. -/
theorem console_Write_exact_kilobyte :
    WritesExactly (fun _ => some 65) 4096 1024 (console_Write (fun _ => some 65) [] 4096 1024) ∧
      WritesOnly (fun a => if a < 4608 then some 65 else none) [] 4096 1024 :=
  ⟨((console_Write_exact_iff (fun _ => some 65) [] 4096 1024 (by decide)).1 (fun _ _ => rfl)
      (by decide)).mpr ⟨.inr (by decide), by decide⟩,
    (console_Write_exact_iff _ [] 4096 1024 (by decide)).2.mpr
      (.inr ⟨⟨by decide, by decide +kernel⟩, .inl (by decide)⟩)⟩

/-- 513 bytes are written as 1024, read behind the buffer; a buffer that is not mapped is written as what
is on the stack. -/
theorem console_Write_overruns :
    (∃ s, console_Write (fun _ => some 65) [] 4096 513 = some (1024, s) ∧
      s.output = List.replicate 1024 65 ∧ (4608, 512) ∈ s.reads) ∧
    ∃ s, console_Write (fun _ => none) (List.replicate 512 83) 4096 3 = some (3, s) ∧
      s.output = [83, 83, 83] ∧ s.origins = [none, none, none] := by
  exact ⟨⟨_, rfl, by decide +kernel, by decide +kernel⟩, ⟨_, rfl, rfl, rfl⟩⟩

def BACKSPACE : UInt8 := 8
def TAB : UInt8 := 9
def NEWLINE : UInt8 := 10
def RETURN : UInt8 := 13

/-- The bytes of `str` that were written, and the characters passed to `Console_Putc`. -/
structure Line where
  str : Nat → Option UInt8
  echo : List UInt8

def Line.put (line : Line) (i : Nat) (ch : UInt8) : Line := { line with str := Function.update line.str i (some ch) }

def Line.putc (line : Line) (ch : UInt8) : Line := { line with echo := line.echo ++ [ch] }

/-- The loop of `Console_Gets`; `i` is an `int`, and its overflow is undefined. The two decrements for a
backspace and the increment of the loop are one step back, or none at the start. A `char` is signed, so
`ch < 0x20` holds from 0x80 on. -/
def getsLoop (n : Nat) : List UInt8 → Nat → Line → Option Line
  | [], i, line => if 2 ^ 31 ≤ i ∨ i < n - 1 then none else some (line.put (i + 1) 0)
  | ch :: stream, i, line =>
    if 2 ^ 31 ≤ i then none
    else if i < n - 1 then
      if ch = BACKSPACE then getsLoop n stream (i - 1) (if 0 < i then line.putc ch else line)
      else if ch = NEWLINE then some ((line.putc NEWLINE).put i 0)
      else if ch = RETURN then some ((line.putc NEWLINE).put i 0)
      else if ch = TAB then getsLoop n stream (i + 1) ((line.putc TAB).put i TAB)
      else if ch < 0x20 ∨ 0x80 ≤ ch then getsLoop n stream (i + 1) line
      else getsLoop n stream (i + 1) ((line.putc ch).put i ch)
    else some (line.put (i + 1) 0)

def console_Gets (n : Nat) (stream : List UInt8) : Option Line := getsLoop n stream 0 ⟨fun _ => none, []⟩

/-- The line editor that `Console_Gets` should be. -/
def lineEdit (n : Nat) : List UInt8 → List UInt8 → Option (List UInt8)
  | [], kept => if kept.length < n - 1 then none else some kept
  | ch :: stream, kept =>
    if kept.length < n - 1 then
      if ch = BACKSPACE then lineEdit n stream kept.dropLast
      else if ch = NEWLINE ∨ ch = RETURN then some kept
      else if ch = TAB ∨ 0x20 ≤ ch ∧ ch ≤ 0x7f then lineEdit n stream (kept ++ [ch])
      else lineEdit n stream kept
    else some kept

/-- `str` is the line with its terminator, and nothing behind its end is written. -/
structure HoldsLine (n : Nat) (kept : List UInt8) (line : Line) : Prop where
  inside : ∀ i, n ≤ i → line.str i = none
  chars : ∀ i, (less : i < kept.length) → line.str i = some (kept.get ⟨i, less⟩)
  ended : line.str kept.length = some 0

/-- The number of ignored characters that still count when the line is ended, for a line that is ended
before it fills the buffer. A backspace takes away a kept character if there is one. -/
def leftover (n : Nat) : List UInt8 → Nat → Nat → Option Nat
  | [], _, _ => none
  | ch :: stream, kept, ignored =>
    if n - 1 ≤ kept + ignored ∨ 2 ^ 31 ≤ kept + ignored then none
    else if ch = BACKSPACE then
      if kept = 0 then leftover n stream 0 (ignored - 1) else leftover n stream (kept - 1) ignored
    else if ch = NEWLINE ∨ ch = RETURN then some ignored
    else if ch = TAB ∨ 0x20 ≤ ch ∧ ch ≤ 0x7f then leftover n stream (kept + 1) ignored
    else leftover n stream kept (ignored + 1)

section

variable {n i ignored : Nat} {kept : List UInt8} {line : Line}

structure Editing (n : Nat) (kept : List UInt8) (ignored i : Nat) (line : Line) : Prop where
  index : i = kept.length + ignored
  inside : ∀ i, n - 1 ≤ i → line.str i = none
  nonzero : ∀ i, line.str i ≠ some 0
  kept : ignored = 0 → ∀ i, (less : i < kept.length) → line.str i = some (kept.get ⟨i, less⟩)

section

variable (editing : Editing n kept ignored i line)
include editing

theorem Editing.putc (ch : UInt8) : Editing n kept ignored i (line.putc ch) :=
  ⟨editing.index, editing.inside, editing.nonzero, editing.kept⟩

theorem Editing.put {ch : UInt8} (room : i < n - 1)
    (nonzero : ch ≠ 0) : Editing n (kept ++ [ch]) ignored (i + 1) (line.put i ch) := by
  have index := editing.index
  refine ⟨?_, ?_, ?_, ?_⟩
  · rw [length_append, length_singleton, index]
    omega
  · intro j outside
    exact (update_of_ne (by omega) ..).trans (editing.inside j outside)
  · intro j
    by_cases same : j = i
    · subst same
      rw [show (line.put j ch).str j = some ch from update_self ..]
      exact fun zero => nonzero (Option.some.inj zero)
    · rw [show (line.put i ch).str j = line.str j from update_of_ne same ..]
      exact editing.nonzero j
  · intro none j less
    rw [length_append, length_singleton] at less
    rcases lt_or_ge j kept.length with earlier | last
    · rw [show (line.put i ch).str j = line.str j from update_of_ne (by omega) ..,
        editing.kept none j earlier, get_eq_getElem, get_eq_getElem, getElem_append_left]
    · obtain rfl : j = i := by omega
      rw [show (line.put j ch).str j = some ch from update_self .., get_eq_getElem,
        getElem_append_right last]
      simp

theorem Editing.ignore : Editing n kept (ignored + 1) (i + 1) line :=
  ⟨by rw [editing.index, add_assoc], editing.inside, editing.nonzero, nofun⟩

theorem Editing.back (some_kept : kept ≠ []) : Editing n kept.dropLast ignored (i - 1) line := by
  have positive := length_pos_iff.mpr some_kept
  refine ⟨?_, editing.inside, editing.nonzero, ?_⟩
  · rw [length_dropLast, editing.index]
    omega
  · intro none j less
    rw [length_dropLast] at less
    rw [editing.kept none j (by omega), get_eq_getElem, get_eq_getElem, getElem_dropLast]

end

theorem Editing.back_empty (editing : Editing n [] ignored i line) :
    Editing n [] (ignored - 1) (i - 1) line := by
  have index := editing.index
  rw [length_nil, zero_add] at index
  refine ⟨?_, editing.inside, editing.nonzero, nofun⟩
  rw [length_nil, zero_add, index]

theorem Editing.finish (editing : Editing n kept ignored i line) (room : i < n - 1) :
    HoldsLine n kept (line.put i 0) ↔ ignored = 0 := by
  have index := editing.index
  constructor
  · intro holds
    by_contra counted
    have ended := holds.ended
    rw [show (line.put i 0).str kept.length = line.str kept.length from
      update_of_ne (by omega) ..] at ended
    exact editing.nonzero _ ended
  · rintro rfl
    refine ⟨?_, ?_, ?_⟩
    · intro j outside
      exact (update_of_ne (by omega) ..).trans (editing.inside j (by omega))
    · intro j less
      exact (update_of_ne (by omega) ..).trans (editing.kept rfl j less)
    · rw [show kept.length = i by omega]
      exact update_self ..

theorem not_holdsLine_full (full : ¬ i < n - 1) (room : i ≤ n - 1) (positive : 1 ≤ n) (line : Line)
    (kept : List UInt8) : ¬ HoldsLine n kept (line.put (i + 1) 0) := by
  intro holds
  have outside := holds.inside (i + 1) (by omega)
  rw [show (line.put (i + 1) 0).str (i + 1) = some 0 from update_self ..] at outside
  cases outside

end

theorem printable_iff (ch : UInt8) : 0x20 ≤ ch ∧ ch ≤ 0x7f ↔ ¬ (ch < 0x20 ∨ 0x80 ≤ ch) := by
  simp only [UInt8.le_iff_toNat_le, UInt8.lt_iff_toNat_lt, UInt8.reduceToNat]
  omega

theorem getsLoop_edits {n : Nat} (positive : 1 ≤ n) {final : List UInt8} (stream : List UInt8) :
    ∀ (kept : List UInt8) (ignored i : Nat) (line : Line), Editing n kept ignored i line → i ≤ n - 1 →
      lineEdit n stream kept = some final →
      ((∃ result, getsLoop n stream i line = some result ∧ HoldsLine n final result) ↔
        leftover n stream kept.length ignored = some 0) := by
  induction stream with
  | nil =>
    intro kept ignored i line editing upTo edited
    refine iff_of_false ?_ nofun
    rintro ⟨result, ran, holds⟩
    unfold getsLoop at ran
    split at ran
    · cases ran
    · rename_i full
      obtain rfl := Option.some.inj ran
      exact not_holdsLine_full (fun less => full (.inr less)) upTo positive line final holds
  | cons ch stream ih =>
    intro kept ignored i line editing upTo edited
    have index := editing.index
    unfold getsLoop leftover
    rw [← index]
    by_cases large : 2 ^ 31 ≤ i
    · rw [if_pos large, if_pos (.inr large)]
      exact iff_of_false nofun nofun
    by_cases room : i < n - 1
    swap
    · rw [if_neg large, if_neg room, if_pos (.inl (by omega))]
      refine iff_of_false ?_ nofun
      rintro ⟨result, ran, holds⟩
      obtain rfl := Option.some.inj ran
      exact not_holdsLine_full room upTo positive line final holds
    unfold lineEdit at edited
    rw [if_pos (by omega)] at edited
    have unfilled : ¬ (n - 1 ≤ i ∨ 2 ^ 31 ≤ i) := by omega
    rw [if_neg large, if_pos room, if_neg unfilled]
    by_cases back : ch = BACKSPACE
    · have echoed : Editing n kept ignored i (if 0 < i then line.putc ch else line) := by
        split
        · exact editing.putc ch
        · exact editing
      rw [if_pos back] at edited ⊢
      rw [if_pos back]
      cases kept with
      | nil =>
        rw [if_pos length_nil]
        exact ih [] (ignored - 1) (i - 1) _ echoed.back_empty (by omega) edited
      | cons first rest =>
        have shorter := ih _ ignored (i - 1) _ (echoed.back (cons_ne_nil first rest)) (by omega) edited
        rw [length_dropLast] at shorter
        have nonempty : ¬ (first :: rest).length = 0 := succ_ne_zero _
        rw [if_neg nonempty]
        exact shorter
    rw [if_neg back] at edited ⊢
    rw [if_neg back]
    by_cases ends : ch = NEWLINE ∨ ch = RETURN
    · have ended : (if ch = NEWLINE then some ((line.putc NEWLINE).put i 0)
          else if ch = RETURN then some ((line.putc NEWLINE).put i 0)
          else if ch = TAB then getsLoop n stream (i + 1) ((line.putc TAB).put i TAB)
          else if ch < 0x20 ∨ 0x80 ≤ ch then getsLoop n stream (i + 1) line
          else getsLoop n stream (i + 1) ((line.putc ch).put i ch)) =
          some ((line.putc NEWLINE).put i 0) := by
        rcases ends with rfl | rfl
        · rw [if_pos rfl]
        · rw [if_neg (by decide), if_pos rfl]
      rw [if_pos ends] at edited ⊢
      rw [ended]
      obtain rfl := Option.some.inj edited
      constructor
      · rintro ⟨result, ran, holds⟩
        obtain rfl := Option.some.inj ran
        exact congrArg some (((editing.putc NEWLINE).finish room).mp holds)
      · intro none
        exact ⟨_, rfl, ((editing.putc NEWLINE).finish room).mpr (Option.some.inj none)⟩
    rw [if_neg ends] at edited ⊢
    rw [if_neg (fun newline => ends (.inl newline)), if_neg (fun ret => ends (.inr ret))]
    by_cases tab : ch = TAB
    · have printed : ch = TAB ∨ 0x20 ≤ ch ∧ ch ≤ 0x7f := .inl tab
      rw [if_pos printed] at edited ⊢
      rw [if_pos tab]
      have longer := ih _ ignored (i + 1) _ ((editing.putc TAB).put room (by decide)) (by omega)
        (tab ▸ edited)
      rw [length_append, length_singleton] at longer
      exact longer
    rw [if_neg tab]
    by_cases control : ch < 0x20 ∨ 0x80 ≤ ch
    · have skipped : ¬ (ch = TAB ∨ 0x20 ≤ ch ∧ ch ≤ 0x7f) := by
        rw [printable_iff]
        exact fun kept => kept.elim tab (fun printable => printable control)
      rw [if_neg skipped] at edited ⊢
      rw [if_pos control]
      exact ih kept (ignored + 1) (i + 1) line editing.ignore (by omega) edited
    · have printed : ch = TAB ∨ 0x20 ≤ ch ∧ ch ≤ 0x7f := .inr ((printable_iff ch).mpr control)
      have nonzero : ch ≠ 0 := by
        rintro rfl
        exact control (.inl (by decide))
      rw [if_pos printed] at edited ⊢
      rw [if_neg control]
      have longer := ih _ ignored (i + 1) _ ((editing.putc ch).put room nonzero) (by omega) edited
      rw [length_append, length_singleton] at longer
      exact longer

/-- A line is read right exactly when it is ended before the buffer is full and no ignored character
counts at its end. -/
theorem console_Gets_edits_iff (n : Nat) (positive : 1 ≤ n) (stream kept : List UInt8)
    (edited : lineEdit n stream [] = some kept) :
    (∃ line, console_Gets n stream = some line ∧ HoldsLine n kept line) ↔ leftover n stream 0 0 = some 0 :=
  getsLoop_edits positive stream [] 0 0 _
    ⟨rfl, fun _ _ => rfl, fun _ => nofun, fun _ _ => nofun⟩ (Nat.zero_le _) edited

theorem console_Gets_edits_backspace : ∃ line, console_Gets 8 [97, 98, 8, 99, 10] = some line ∧
    HoldsLine 8 [97, 99] line :=
  (console_Gets_edits_iff 8 (by decide) [97, 98, 8, 99, 10] [97, 99] (by decide)).mpr (by decide)

/-- A line of `n - 1` characters is ended behind the buffer, and a control character leaves a byte of it
as it was. -/
theorem console_Gets_overruns :
    (lineEdit 2 [97] [] = some [97] ∧
      ∃ line, console_Gets 2 [97] = some line ∧ line.str 2 = some 0 ∧ line.str 1 = none) ∧
    lineEdit 8 [1, 97, 10] [] = some [97] ∧
      ∃ line, console_Gets 8 [1, 97, 10] = some line ∧ line.str 0 = none ∧ line.str 1 = some 97 := by
  exact ⟨⟨by decide, _, rfl, rfl, rfl⟩, by decide, _, rfl, rfl, rfl⟩

end BoringOs.Dev
