import BoringOs.BufCacheContent

/-! The cache and the disks as a plain map from blocks to their latest contents. `Client` adds what
the users of the cache know: the contents last stored in each block, their references, which buffers
differ from the disk, and which bytes of a new buffer have not been overwritten yet. -/

namespace BoringOs.BufCache

open ByteMemory List Function Option

/-- An outstanding reference: the entry that was returned and the block asked for. -/
structure Holder where
  entry : EntryId
  disk : DiskId
  offset : Nat
  deriving DecidableEq

structure Client where
  cache : BufState
  stored : DiskId → Nat → Nat → UInt8
  dirty : EntryId → Bool
  stale : EntryId → Nat → Bool
  holders : List Holder

/-- A fresh cache; the contents stored so far are those of the disks, and every
transfer will succeed. -/
def Client.init (bufBase : Nat) (memory : Memory) (disk : DiskId → Memory) : Client where
  cache := bufCacheInit bufBase memory disk (fun _ => 0) (fun _ => 0)
  stored d offset index := disk d (offset + index)
  dirty _ := false
  stale _ _ := false
  holders := []

inductive Op where
  | read (disk : DiskId) (offset : Nat)
  | alloc (disk : DiskId) (offset : Nat)
  | store (e : EntryId) (start : Nat) (data : Memory) (count : Nat)
  | write (e : EntryId)
  | release (e : EntryId)

def Client.read (c : Client) (disk : DiskId) (offset : Nat) : Client :=
  match bufCache_Read c.cache disk offset with
  | (_, none, cache) => { c with cache := cache }
  | (_, some e, cache) => { c with cache := cache, holders := ⟨e, disk, offset⟩ :: c.holders }

/-- A block that was not cached gets a recycled buffer whose bytes are all stale. -/
def Client.alloc (c : Client) (disk : DiskId) (offset : Nat) : Client :=
  match bufCache_Alloc c.cache disk offset with
  | (_, none, cache) => { c with cache := cache }
  | (_, some e, cache) =>
    { c with
      cache := cache
      holders := ⟨e, disk, offset⟩ :: c.holders
      stale := match (bufCacheLookup c.cache disk offset).2.1 with
        | some _ => c.stale
        | none => Function.update c.stale e (fun _ => true) }

def Client.store (c : Client) (e : EntryId) (start : Nat) (data : Memory) (count : Nat) : Client :=
  { c with
    cache := { c.cache with
      memory := copyBytes c.cache.memory ((c.cache.entry e).buffer + start) data 0 count }
    stored := fun d offset index =>
      if (c.cache.entry e).matches d offset ∧ start ≤ index ∧ index < start + count then
        data (index - start)
      else c.stored d offset index
    dirty := Function.update c.dirty e true
    stale := Function.update c.stale e (fun index =>
      if start ≤ index ∧ index < start + count then false else c.stale e index) }

def Client.write (c : Client) (e : EntryId) : Client :=
  { c with cache := (bufCache_Write c.cache e).2, dirty := Function.update c.dirty e false }

def Client.release (c : Client) (e : EntryId) : Client :=
  { c with
    cache := bufCache_Release c.cache e
    holders := c.holders.eraseP (fun holder => holder.entry = e) }

/-- The users' discipline: aligned offsets, changes under a reference, and nothing
unwritten or stale in a buffer whose last reference goes. -/
inductive ClientStep : Client → Op → Client → Prop where
  | read (c : Client) (disk : DiskId) (offset : Nat) (aligned : offset % BLOCKSIZE = 0) :
      ClientStep c (.read disk offset) (c.read disk offset)
  | alloc (c : Client) (disk : DiskId) (offset : Nat) (aligned : offset % BLOCKSIZE = 0) :
      ClientStep c (.alloc disk offset) (c.alloc disk offset)
  | store (c : Client) (e : EntryId) (start : Nat) (data : Memory) (count : Nat)
      (bound : e < CACHEENTRIES) (held : (c.cache.entry e).refCount ≠ 0)
      (inside : start + count ≤ BLOCKSIZE) :
      ClientStep c (.store e start data count) (c.store e start data count)
  | write (c : Client) (e : EntryId) (bound : e < CACHEENTRIES)
      (keyed : (c.cache.entry e).disk ≠ none) :
      ClientStep c (.write e) (c.write e)
  | release (c : Client) (e : EntryId) (bound : e < CACHEENTRIES)
      (held : (c.cache.entry e).refCount ≠ 0)
      (settled : (c.cache.entry e).refCount = 1 →
        c.dirty e = false ∧ ∀ index < BLOCKSIZE, c.stale e index = false) :
      ClientStep c (.release e) (c.release e)

variable {bufBase offset : Nat} {c : Client} {e : EntryId} {t : BufState} {disk : DiskId}

structure ClientInv (bufBase : Nat) (c : Client) : Prop where
  coherent : Coherent bufBase everyBlock c.cache
  reads : ∀ n, c.cache.readStatus n = 0
  writes : ∀ n, c.cache.writeStatus n = 0
  counts : ∀ e, (c.cache.entry e).refCount = c.holders.countP (fun holder => holder.entry = e)
  keys : ∀ holder ∈ c.holders, HasKey c.cache holder.entry holder.disk holder.offset
  contents : ∀ d o, o % BLOCKSIZE = 0 → ∀ index < BLOCKSIZE,
    (∀ e, HasKey c.cache e d o → c.stale e index = false) →
      content c.cache d o index = c.stored d o index
  settled : ∀ e < CACHEENTRIES, (c.cache.entry e).refCount = 0 →
    c.dirty e = false ∧ ∀ index < BLOCKSIZE, c.stale e index = false
  synced : ∀ e d o, HasKey c.cache e d o → c.dirty e = false →
    (∀ index < BLOCKSIZE, c.stale e index = false) → ∀ index < BLOCKSIZE,
      c.cache.memory ((c.cache.entry e).buffer + index) = c.cache.disk d (o + index)

theorem ClientInv.held_of_mem (inv : ClientInv bufBase c)
    {holder : Holder} (member : holder ∈ c.holders) : (c.cache.entry holder.entry).refCount ≠ 0 := by
  rw [inv.counts]
  have positive : 0 < c.holders.countP (fun other => other.entry = holder.entry) :=
    countP_pos_iff.mpr ⟨holder, member, by simp⟩
  omega

theorem Client.init_inv (bufBase : Nat) (memory : Memory) (disk : DiskId → Memory) :
    ClientInv bufBase (Client.init bufBase memory disk) := by
  have rep := bufCacheInit_inv bufBase memory disk (fun _ => 0) (fun _ => 0)
  have absent : ∀ e d o, ¬ HasKey (Client.init bufBase memory disk).cache e d o := by
    intro e d o key
    simp [HasKey, Client.init, bufCacheInit] at key
  constructor
  · exact ⟨rep, fun e d o key => absurd key (absent e d o),
      fun e d o _ key => absurd key (absent e d o)⟩
  · intro n; rfl
  · intro n; rfl
  · intro e; rfl
  · intro holder member
    simp [Client.init] at member
  · intro d o _ index _ _
    exact content_uncached rep (fun e => absent e d o) index
  · intro e _ _
    exact ⟨rfl, fun _ _ => rfl⟩
  · intro e d o key
    exact absurd key (absent e d o)

theorem Takes.hasKey {s t : BufState}
    (takes : Takes s t e disk offset) {x : EntryId} {d : DiskId} {o : Nat}
    (held : (s.entry x).refCount ≠ 0) : HasKey t x d o ↔ HasKey s x d o := by
  have same := takes.keys x held
  rw [HasKey, HasKey, same.1, same.2]

section

variable {bufBase : Nat} {c : Client} {t : BufState} {e : EntryId} {disk : DiskId} {offset : Nat}

theorem ClientInv.counts_cons (inv : ClientInv bufBase c) (takes : Takes c.cache t e disk offset)
    (x : EntryId) : (t.entry x).refCount =
      (⟨e, disk, offset⟩ :: c.holders : List Holder).countP (fun holder => holder.entry = x) := by
  rw [takes.counts x, inv.counts x, countP_cons]
  by_cases here : x = e
  · simp [here]
  · simp [here, Ne.symm here]

theorem ClientInv.keys_cons (inv : ClientInv bufBase c) (takes : Takes c.cache t e disk offset) :
    ∀ holder ∈ (⟨e, disk, offset⟩ :: c.holders : List Holder),
      HasKey t holder.entry holder.disk holder.offset := by
  intro holder member
  rcases mem_cons.mp member with rfl | member
  · exact takes.key
  · exact (takes.hasKey (inv.held_of_mem member)).mpr (inv.keys holder member)

end

theorem ClientInv.takes (inv : ClientInv bufBase c)
    (takes : Takes c.cache t e disk offset) (coherent : Coherent bufBase everyBlock t)
    {stale : EntryId → Nat → Bool} (others : ∀ x, x ≠ e → stale x = c.stale x)
    (same : ∀ d o, ¬ (d = disk ∧ o = offset) → ∀ index < BLOCKSIZE,
      content t d o index = content c.cache d o index)
    (bytes : (stale e = c.stale e ∧ ∀ index < BLOCKSIZE,
        content t disk offset index = content c.cache disk offset index) ∨
      (∀ index, stale e index = true) ∧ ∀ x, ¬ HasKey c.cache x disk offset) :
    ClientInv bufBase { c with cache := t, holders := ⟨e, disk, offset⟩ :: c.holders, stale := stale } := by
  have kept : ∀ x, (c.cache.entry x).refCount ≠ 0 → stale x = c.stale x := by
    intro x held
    by_cases here : x = e
    · subst here
      exact (bytes.resolve_right fun new => new.2 x ((takes.hasKey held).mp takes.key)).1
    · exact others x here
  constructor
  · exact coherent
  · exact takes.readStatus inv.reads
  · exact fun n => (congrFun takes.writeStatus n).trans (inv.writes n)
  · exact inv.counts_cons takes
  · exact inv.keys_cons takes
  · intro d o aligned index inside valid
    have unchanged : content t d o index = content c.cache d o index := by
      by_cases here : d = disk ∧ o = offset
      · obtain ⟨rfl, rfl⟩ := here
        have := valid e takes.key
        exact (bytes.resolve_right fun new => by simp_all).2 index inside
      · exact same d o here index inside
    rw [unchanged]
    apply inv.contents d o aligned index inside
    intro x key
    by_cases held : (c.cache.entry x).refCount = 0
    · exact (inv.settled x key.1 held).2 index inside
    · exact kept x held ▸ valid x ((takes.hasKey held).mpr key)
  · intro x bound unreferenced
    have count : 0 = (c.cache.entry x).refCount + if x = e then 1 else 0 :=
      unreferenced.symm.trans (takes.counts x)
    have other : x ≠ e := by
      intro equal
      rw [if_pos equal] at count
      omega
    show c.dirty x = false ∧ ∀ index < BLOCKSIZE, stale x index = false
    rw [others x other]
    exact inv.settled x bound (by omega)
  · intro x d o key clean valid index inside
    by_cases held : (c.cache.entry x).refCount = 0
    · by_cases here : x = e
      · subst here
        have := valid index inside
        obtain ⟨rfl, rfl⟩ := key.inj takes.key
        -- an unreferenced block reads the same from the disk before the call
        rw [← content_cached coherent.rep key,
          (bytes.resolve_right fun new => by simp_all).2 index inside, takes.disks]
        by_cases cached : ∃ y, HasKey c.cache y d o
        · obtain ⟨y, before⟩ := cached
          have yFree : (c.cache.entry y).refCount = 0 := by
            by_contra yHeld
            have after := (takes.hasKey yHeld).mpr before
            exact yHeld (HasKey.unique coherent.rep after key ▸ held)
          rw [content_cached inv.coherent.rep before]
          exact inv.coherent.clean y d o trivial before yFree index inside
        · exact content_uncached inv.coherent.rep (fun y before => cached ⟨y, before⟩) index
      · have unreferenced : (t.entry x).refCount = 0 := by
          rw [takes.counts x, held, if_neg here]
        exact coherent.clean x d o trivial key unreferenced index inside
    · have before := (takes.hasKey held).mp key
      rw [takes.disks, takes.buffers x, takes.memory x key.1 held index inside]
      exact inv.synced x d o before clean (kept x held ▸ valid) index inside

theorem Client.read_inv (inv : ClientInv bufBase c)
    (disk : DiskId) (offset : Nat) (aligned : offset % BLOCKSIZE = 0) :
    ClientInv bufBase (c.read disk offset) := by
  obtain ⟨coherent, same, _⟩ :=
    bufCache_Read_content inv.coherent disk offset aligned (fun _ => .inl (inv.reads 0))
  rcases bufCache_Read_takes inv.coherent.rep disk offset with ⟨e, found, takes⟩ | failed
  · have result : c.read disk offset = { c with
        cache := (bufCache_Read c.cache disk offset).2.2
        holders := ⟨e, disk, offset⟩ :: c.holders } := by
      unfold Client.read
      split
      · simp_all
      · simp_all
    rw [result]
    exact inv.takes takes coherent (fun _ _ => rfl) (fun d o _ => same d o trivial)
      (.inl ⟨rfl, same disk offset trivial⟩)
  · have result : c.read disk offset = { c with cache := { c.cache with
        cacheMiss := c.cache.cacheMiss + 1, noSpace := c.cache.noSpace + 1 } } := by
      simp only [Client.read, failed]
    rw [failed] at coherent same
    rw [result]
    exact ⟨coherent, inv.reads, inv.writes, inv.counts, inv.keys,
      fun d o aligned index inside fresh =>
        (same d o trivial index inside).trans (inv.contents d o aligned index inside fresh),
      inv.settled, inv.synced⟩

theorem bufCacheLookup_entry {s : BufState} (inv : RepInv bufBase s) (disk : DiskId) (offset : Nat) :
    (∃ e, HasKey s e disk offset ∧ (bufCacheLookup s disk offset).2.1 = some e) ∨
    ((∀ e, ¬ HasKey s e disk offset) ∧ (bufCacheLookup s disk offset).2.1 = none) := by
  rcases bufCacheLookup_cases inv disk offset with ⟨e, bound, sameDisk, sameOffset, hit⟩ | ⟨fresh, miss⟩
  · exact .inl ⟨e, ⟨bound, sameDisk, sameOffset⟩, by rw [hit]⟩
  · exact .inr ⟨fun e key => fresh e key.1 key.2, by rw [miss]⟩

section

variable (inv : ClientInv bufBase c)
include inv

theorem Client.alloc_inv (disk : DiskId) (offset : Nat) (aligned : offset % BLOCKSIZE = 0) :
    ClientInv bufBase (c.alloc disk offset) := by
  obtain ⟨coherent, same⟩ := bufCache_Alloc_content inv.coherent disk offset aligned
  rcases bufCache_Alloc_takes inv.coherent.rep disk offset with ⟨e, found, takes⟩ | failed
  · have split : bufCache_Alloc c.cache disk offset =
        ((bufCache_Alloc c.cache disk offset).1, some e, (bufCache_Alloc c.cache disk offset).2.2) := by
      rw [← found]
    rcases bufCacheLookup_entry inv.coherent.rep disk offset with ⟨x, key, hit⟩ | ⟨absent, miss⟩
    · have result : c.alloc disk offset = { c with
          cache := (bufCache_Alloc c.cache disk offset).2.2
          holders := ⟨e, disk, offset⟩ :: c.holders } := by
        unfold Client.alloc
        rw [split]
        simp only [hit]
      rw [result]
      exact inv.takes takes coherent (fun _ _ => rfl)
        (fun d o different => same d o trivial (.inl different))
        (.inl ⟨rfl, same disk offset trivial (.inr ⟨x, key⟩)⟩)
    · have result : c.alloc disk offset = { c with
          cache := (bufCache_Alloc c.cache disk offset).2.2
          holders := ⟨e, disk, offset⟩ :: c.holders
          stale := update c.stale e (fun _ => true) } := by
        unfold Client.alloc
        rw [split]
        simp only [miss]
      rw [result]
      exact inv.takes takes coherent (fun x other => update_of_ne other _ _)
        (fun d o different => same d o trivial (.inl different)) (.inr ⟨by simp, absent⟩)
  · have result : c.alloc disk offset = { c with cache := { c.cache with
        cacheAlloc := c.cache.cacheAlloc + 1, noSpace := c.cache.noSpace + 1 } } := by
      simp only [Client.alloc, failed]
    rw [failed] at coherent
    rw [result]
    exact ⟨coherent, inv.reads, inv.writes, inv.counts, inv.keys,
      fun d o aligned index inside fresh =>
        (content_congr inv.coherent.rep coherent.rep (fun _ => Iff.rfl) (fun _ _ => rfl) rfl).trans
          (inv.contents d o aligned index inside fresh),
      inv.settled, inv.synced⟩

theorem Client.store_inv (start : Nat) (data : Memory) (count : Nat) (bound : e < CACHEENTRIES)
    (held : (c.cache.entry e).refCount ≠ 0) (inside : start + count ≤ BLOCKSIZE) :
    ClientInv bufBase (c.store e start data count) := by
  obtain ⟨disk, keyed⟩ := ne_none_iff_exists'.mp (inv.coherent.rep.keyed e bound held)
  have key : HasKey c.cache e disk (c.cache.entry e).diskOffset := ⟨bound, keyed, rfl⟩
  obtain ⟨coherent, own, others⟩ := modify_content (t := (c.store e start data count).cache)
    inv.coherent key held rfl rfl rfl rfl
    (fun address outside => copyBytes_outside _ _ _ _ _ _ (by omega))
  constructor
  · exact coherent
  · exact inv.reads
  · exact inv.writes
  · exact inv.counts
  · exact inv.keys
  · intro d o aligned index bounded fresh
    by_cases here : d = disk ∧ o = (c.cache.entry e).diskOffset
    · obtain ⟨rfl, rfl⟩ := here
      have hit : (c.cache.entry e).matches d (c.cache.entry e).diskOffset = true :=
        (matches_iff _ _ _).mpr ⟨keyed, rfl⟩
      rw [own index]
      by_cases covered : start ≤ index ∧ index < start + count
      · simp only [Client.store, hit, covered, and_self, ↓reduceIte]
        rw [copyBytes_inside _ _ _ _ _ _ (by omega) (by omega)]
        congr 1
        omega
      · have before := fresh e key
        simp only [Client.store, update_self, covered, ↓reduceIte] at before
        simp only [Client.store, hit, covered, and_false, ↓reduceIte]
        rw [copyBytes_outside _ _ _ _ _ _ (by omega)]
        rw [← inv.contents d _ aligned index bounded]
        · exact (content_cached inv.coherent.rep key index).symm
        · intro x xKey
          rw [HasKey.unique inv.coherent.rep xKey key]
          exact before
    · have miss : ¬ (c.cache.entry e).matches d o = true := by
        intro hit
        have parts := (matches_iff _ _ _).mp hit
        exact here ⟨some.inj (parts.1.symm.trans keyed), parts.2.symm⟩
      rw [others d o here index bounded]
      simp only [Client.store, miss, Bool.false_eq_true, false_and, ↓reduceIte]
      apply inv.contents d o aligned index bounded
      intro x xKey
      have other : x ≠ e := by
        intro equal
        subst x
        exact miss ((matches_iff _ _ _).mpr xKey.2)
      simpa [Client.store, other] using fresh x xKey
  · intro x xBound free
    have other : x ≠ e := by
      intro equal
      exact held (equal ▸ free)
    simpa [Client.store, other] using inv.settled x xBound free
  · intro x d o xKey clean fresh index bounded
    have other : x ≠ e := by
      intro equal
      simp [Client.store, equal] at clean
    have apart := inv.coherent.rep.buffers_apart xKey.1 bound other
    simp only [Client.store, update_of_ne other] at clean fresh ⊢
    rw [copyBytes_outside _ _ _ _ _ _ (by omega)]
    exact inv.synced x d o xKey clean fresh index bounded

theorem Client.write_inv (bound : e < CACHEENTRIES) (keyed : (c.cache.entry e).disk ≠ none) :
    ClientInv bufBase (c.write e) := by
  obtain ⟨disk, owner⟩ := ne_none_iff_exists'.mp keyed
  have key : HasKey c.cache e disk (c.cache.entry e).diskOffset := ⟨bound, owner, rfl⟩
  obtain ⟨coherent, same⟩ := writtenBack_content inv.coherent key
  have result : c.write e = { c with
      cache := writtenBack c.cache e disk (c.cache.entry e).diskOffset
      dirty := update c.dirty e false } := by
    simp only [Client.write, bufCache_Write_eq key (inv.writes 0)]
  rw [result]
  constructor
  · exact coherent
  · exact inv.reads
  · intro n
    exact inv.writes (n + 1)
  · exact inv.counts
  · exact inv.keys
  · intro d o aligned index inside fresh
    exact (same d o aligned index inside).trans (inv.contents d o aligned index inside fresh)
  · intro x xBound free
    have before := inv.settled x xBound free
    refine ⟨?_, before.2⟩
    by_cases here : x = e
    · simp [here]
    · simpa [here] using before.1
  · intro x d o xKey clean fresh index inside
    by_cases here : x = e
    · subst x
      obtain rfl : disk = d := some.inj (owner.symm.trans xKey.2.1)
      obtain rfl : (c.cache.entry e).diskOffset = o := xKey.2.2
      exact (writtenBack_disk c.cache e disk _ index inside).symm
    · have different : ¬ (d = disk ∧ o = (c.cache.entry e).diskOffset) := by
        rintro ⟨rfl, rfl⟩
        exact here (HasKey.unique inv.coherent.rep xKey key)
      rw [writtenBack_elsewhere c.cache e disk (inv.coherent.aligned _ _ _ key) d
        (inv.coherent.aligned _ _ _ xKey) different inside]
      exact inv.synced x d o xKey (by simpa [here] using clean) fresh index inside

end

theorem countP_eraseP_entry (holders : List Holder) (e x : EntryId)
    (some_holder : 0 < holders.countP (fun holder => holder.entry = e)) :
    (holders.eraseP (fun holder => holder.entry = e)).countP (fun holder => holder.entry = x) =
      if x = e then holders.countP (fun holder => holder.entry = e) - 1
      else holders.countP (fun holder => holder.entry = x) := by
  induction holders with
  | nil => simp at some_holder
  | cons head tail ih =>
    by_cases hit : head.entry = e
    · rw [eraseP_cons_of_pos (by simp [hit])]
      by_cases here : x = e
      · simp [here, hit]
      · simp [here, hit, Ne.symm here]
    · rw [eraseP_cons_of_neg (by simp [hit]), countP_cons, ih]
      · by_cases here : x = e
        · simp [here, hit]
        · simp [here, countP_cons]
      · simpa [countP_cons, hit] using some_holder

theorem Client.release_inv (inv : ClientInv bufBase c)
    (bound : e < CACHEENTRIES) (held : (c.cache.entry e).refCount ≠ 0)
    (settled : (c.cache.entry e).refCount = 1 →
      c.dirty e = false ∧ ∀ index < BLOCKSIZE, c.stale e index = false) :
    ClientInv bufBase (c.release e) := by
  obtain ⟨coherent, same⟩ := bufCache_Release_content inv.coherent bound held
    (fun last disk offset _ key => inv.synced e disk offset key (settled last).1 (settled last).2)
  have keys : ∀ x d o, HasKey (c.release e).cache x d o ↔ HasKey c.cache x d o := by
    intro x d o
    simp [HasKey, Client.release, bufCache_Release]
  constructor
  · exact coherent
  · exact inv.reads
  · exact inv.writes
  · intro x
    have counted := inv.counts e
    simp only [Client.release, bufCache_Release, recount_refCount]
    rw [countP_eraseP_entry c.holders e x (by omega), counted]
    by_cases here : x = e
    · simp [here]
    · simp [here, inv.counts x]
  · intro holder member
    exact (keys _ _ _).mpr (inv.keys holder (mem_of_mem_eraseP member))
  · intro d o aligned index inside fresh
    refine (same d o index).trans (inv.contents d o aligned index inside ?_)
    intro x key
    exact fresh x ((keys x d o).mpr key)
  · intro x xBound free
    simp only [Client.release, bufCache_Release, recount_refCount] at free
    split at free
    · rename_i here
      subst x
      exact settled (by omega)
    · exact inv.settled x xBound free
  · intro x d o key clean fresh index inside
    have before := inv.synced x d o ((keys x d o).mp key) clean fresh index inside
    simpa [Client.release, bufCache_Release] using before

theorem clientStep_inv {c c' : Client} {op : Op} (inv : ClientInv bufBase c)
    (step : ClientStep c op c') : ClientInv bufBase c' := by
  cases step with
  | read disk offset aligned => exact Client.read_inv inv disk offset aligned
  | alloc disk offset aligned => exact Client.alloc_inv inv disk offset aligned
  | store e start data count bound held inside =>
    exact Client.store_inv inv start data count bound held inside
  | write e bound keyed => exact Client.write_inv inv bound keyed
  | release e bound held settled => exact Client.release_inv inv bound held settled

/-- The cache and the disks refine the map `stored`: a read that returns 0 yields an
entry of that block holding the latest contents, up to the bytes of a buffer from
`BufCache_Alloc` that its holders have not overwritten yet, and the holders of one block
share its entry. -/
theorem bufcache_coherence (bufBase : Nat) (memory : Memory) (disk : DiskId → Memory)
    (ops : List Op) (c : Client)
    (ran : Runs.Run ClientStep (Client.init bufBase memory disk) ops c) :
    (∀ d offset, offset % BLOCKSIZE = 0 → ∀ result cache,
      bufCache_Read c.cache d offset = (0, result, cache) →
      ∃ e, result = some e ∧ HasKey cache e d offset ∧
        ∀ index < BLOCKSIZE, c.stale e index = false →
          cache.memory ((cache.entry e).buffer + index) = c.stored d offset index) ∧
    (∀ first ∈ c.holders, ∀ second ∈ c.holders,
      first.disk = second.disk → first.offset = second.offset → first.entry = second.entry) ∧
    (∀ e < CACHEENTRIES, ∀ index < BLOCKSIZE, c.stale e index = true →
      (c.cache.entry e).refCount ≠ 0) := by
  have inv : ClientInv bufBase c := ran.invariant (ClientInv bufBase)
    (fun _ _ _ before step => clientStep_inv before step)
    (Client.init_inv bufBase memory disk)
  refine ⟨?_, ?_, ?_⟩
  · intro d offset aligned result cache read
    have after := Client.read_inv inv d offset aligned
    rcases bufCache_Read_takes inv.coherent.rep d offset with ⟨e, found, takes⟩ | failed
    · rw [read] at found takes
      refine ⟨e, found, takes.key, ?_⟩
      intro index inside valid
      have state : c.read d offset = { c with
          cache := cache, holders := ⟨e, d, offset⟩ :: c.holders } := by
        have found' : result = some e := found
        simp only [Client.read, read, found']
      rw [state] at after
      rw [← content_cached after.coherent.rep takes.key index]
      apply after.contents d offset aligned index inside
      intro x key
      rw [HasKey.unique after.coherent.rep key takes.key]
      exact valid
    · rw [read] at failed
      have status : (0 : Int) = ENOMEM := congrArg Prod.fst failed
      exact absurd status (by decide)
  · intro first firstMember second secondMember sameDisk sameOffset
    have firstKey := inv.keys first firstMember
    have secondKey := inv.keys second secondMember
    rw [sameDisk, sameOffset] at firstKey
    exact HasKey.unique inv.coherent.rep firstKey secondKey
  · intro e bound index inside stale free
    have valid := (inv.settled e bound free).2 index inside
    rw [stale] at valid
    exact absurd valid (by decide)

theorem bufcache_coherence_read_store :
    let start := Client.init 0 (fun _ => 0) (fun _ _ => 7)
    let changed := (start.read 1 0).store 0 3 (fun _ => 5) 1
    ∃ cache, bufCache_Read changed.cache 1 0 = (0, some 0, cache) ∧
      cache.memory ((cache.entry 0).buffer + 3) = changed.stored 1 0 3 ∧
      changed.stored 1 0 3 = 5 := by
  intro start changed
  have held : ((start.read 1 0).cache.entry 0).refCount ≠ 0 := by decide +kernel
  have ran : Runs.Run ClientStep start [.read 1 0, .store 0 3 (fun _ => 5) 1] changed :=
    .cons (.read start 1 0 (by decide)) (.single
      (.store _ 0 3 _ 1 (by decide +kernel) held (by decide)))
  have status : (bufCache_Read changed.cache 1 0).1 = 0 := by decide +kernel
  have found : (bufCache_Read changed.cache 1 0).2.1 = some 0 := by decide +kernel
  have read : bufCache_Read changed.cache 1 0 =
      (0, some 0, (bufCache_Read changed.cache 1 0).2.2) := by
    rw [← status, ← found]
  obtain ⟨e, same, _, holds⟩ :=
    (bufcache_coherence 0 _ _ _ _ ran).1 1 0 (by decide) _ _ read
  obtain rfl : 0 = e := some.inj same
  exact ⟨_, read, holds 3 (by decide) (by decide +kernel), by decide +kernel⟩

/-- A read that finds the buffer of an earlier `BufCache_Alloc` returns 0 with whatever
the recycled buffer held; the users go on to overwrite, write back and release it. -/
theorem alloc_then_read_is_stale :
    let start := Client.init 0 (fun _ => 0) (fun _ _ => 7)
    let c := start.alloc 1 0
    Runs.Run ClientStep start [.alloc 1 0] c ∧
    (∃ cache, bufCache_Read c.cache 1 0 = (0, some 0, cache) ∧
      cache.memory ((cache.entry 0).buffer + 0) ≠ c.stored 1 0 0) ∧
    ∃ c', Runs.Run ClientStep (c.read 1 0)
      [.store 0 0 (fun _ => 5) BLOCKSIZE, .write 0, .release 0, .release 0] c' := by
  intro start c
  refine ⟨.single (.alloc start 1 0 (by decide)), ?_, ?_⟩
  · have status : (bufCache_Read c.cache 1 0).1 = 0 := by decide +kernel
    have found : (bufCache_Read c.cache 1 0).2.1 = some 0 := by decide +kernel
    refine ⟨(bufCache_Read c.cache 1 0).2.2, ?_, by decide +kernel⟩
    rw [← status, ← found]
  · let stored := (c.read 1 0).store 0 0 (fun _ => 5) BLOCKSIZE
    let written := stored.write 0
    have bound : 0 < CACHEENTRIES := by decide +kernel
    have overwritten : ∀ index < BLOCKSIZE, stored.stale 0 index = false := by
      intro index inside
      have covered : 0 ≤ index ∧ index < 0 + BLOCKSIZE := ⟨Nat.zero_le _, by omega⟩
      simp only [stored, Client.store, update_self, covered, and_self, ↓reduceIte]
    refine ⟨(written.release 0).release 0, ?_⟩
    refine .cons (.store _ 0 0 _ BLOCKSIZE bound (by decide +kernel) (by decide)) ?_
    refine .cons (.write _ 0 bound (by decide +kernel)) ?_
    refine .cons (.release _ 0 bound (by decide +kernel) ?_) ?_
    · intro _
      exact ⟨by decide +kernel, overwritten⟩
    · refine .single (.release _ 0 bound (by decide +kernel) ?_)
      intro _
      exact ⟨by decide +kernel, overwritten⟩

end BoringOs.BufCache
