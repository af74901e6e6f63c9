import BoringOs.Newfs
import BoringOs.O2fsAlloc

/-! The manifests that `newfs_o2fs` reads. A directory's blocks follow those of everything below it,
so its entries fill one range of the disk from its start on. -/

namespace BoringOs.Newfs

open BufCache O2fs List

/-- `(FILE name path | DIR name ... END)*`. -/
inductive Entries where
  | nil
  | file (name path : List UInt8) (rest : Entries)
  | dir (name : List UInt8) (entries rest : Entries)

def Entries.tokens : Entries → List (List UInt8)
  | nil => []
  | file name path rest => FILE :: name :: path :: rest.tokens
  | dir name entries rest => DIR :: name :: (entries.tokens ++ END :: rest.tokens)

/-- `DIR / ... END`. -/
def manifestTokens (entries : Entries) : List (List UInt8) :=
  DIR :: [SLASH] :: (entries.tokens ++ [END])

/-- A token as `GetToken` can return it. -/
structure IsToken (token : List UInt8) : Prop where
  nonempty : token ≠ []
  chars : ∀ c ∈ token, isTokenChar c = true
  short : token.length < 512

inductive Spelled : List (List UInt8) → List UInt8 → Prop where
  | nil (blanks : List UInt8) (blank : ∀ c ∈ blanks, isBlank c = true) : Spelled [] blanks
  | cons (blanks token rest : List UInt8) (tokens : List (List UInt8))
      (blank : ∀ c ∈ blanks, isBlank c = true) (valid : IsToken token)
      (apart : ∀ c ∈ rest.head?, isBlank c = true) (more : Spelled tokens rest) :
      Spelled (token :: tokens) (blanks ++ (token ++ rest))

theorem isTokenChar_blank {c : UInt8} (blank : isBlank c = true) : isTokenChar c = false := by
  simp [isTokenChar, blank]

theorem isBlank_tokenChar {c : UInt8} (char : isTokenChar c = true) : isBlank c = false := by
  cases blank : isBlank c with
  | true =>
    rw [isTokenChar_blank blank] at char
    exact absurd char (by decide)
  | false => rfl

theorem getToken_cons {s : State} {token : List UInt8} {tokens : List (List UInt8)}
    (spelled : Spelled (token :: tokens) s.text) :
    ∃ rest, getToken s = some (classify token, token, { s with text := rest }) ∧
      Spelled tokens rest := by
  generalize spelling : s.text = source at spelled
  cases spelled with
  | cons blanks _ rest _ blank valid apart more =>
    have starts : ∀ c ∈ (token ++ rest).head?, isBlank c = false := by
      intro c first
      have member : c ∈ token := by
        cases token with
        | nil => exact absurd rfl valid.nonempty
        | cons head tail =>
          rw [← Option.some.inj first]
          exact mem_cons_self
      exact isBlank_tokenChar (valid.chars c member)
    have ends : ∀ c ∈ rest.head?, isTokenChar c = false :=
      fun c first => isTokenChar_blank (apart c first)
    refine ⟨rest, ?_, more⟩
    rw [getToken, spelling, Search.dropWhile_span blank starts]
    simp only [Search.takeWhile_span valid.chars ends, Search.dropWhile_span valid.chars ends,
      valid.short, ↓reduceIte]

theorem getToken_nil {s : State} (spelled : Spelled [] s.text) :
    getToken s = some (.eof, [], { s with text := [] }) := by
  generalize spelling : s.text = source at spelled
  cases spelled with
  | nil _ blank =>
    have skipped : source.dropWhile isBlank = [] := by
      rw [← append_nil source]
      exact Search.dropWhile_span blank (by simp)
    rw [getToken, spelling, skipped]
    rfl

theorem Spelled.length_le {tokens : List (List UInt8)} {source : List UInt8}
    (spelled : Spelled tokens source) : tokens.length ≤ source.length := by
  induction spelled with
  | nil => exact Nat.zero_le _
  | cons blanks token rest tokens _ valid _ _ ih =>
    have some_char := length_pos_iff.mpr valid.nonempty
    simp only [length_cons, length_append]
    omega

def contentOf (env : Env) (path : List UInt8) : List UInt8 := (env.files path).getD []

structure ValidName (name : List UInt8) : Prop where
  nonempty : 1 ≤ name.length
  short : name.length ≤ MAXNAMELEN
  plain : SLASH ∉ name

structure ValidFile (env : Env) (path : List UInt8) : Prop where
  present : (env.files path).isSome = true
  fits : (contentOf env path).length ≤ 64 * BLOCKSIZE

def Entries.names : Entries → List (List UInt8)
  | nil => []
  | file name _ rest => name :: rest.names
  | dir name _ rest => name :: rest.names

structure Entries.Listable (entries : Entries) : Prop where
  distinct : entries.names.Nodup
  few : entries.names.length ≤ 31

def Entries.Valid (env : Env) : Entries → Prop
  | nil => True
  | file name path rest => ValidName name ∧ ValidFile env path ∧ rest.Valid env
  | dir name entries rest =>
    ValidName name ∧ entries.Listable ∧ entries.Valid env ∧ rest.Valid env

def Entries.blocks (env : Env) : Entries → Nat
  | nil => 0
  | file _ path rest => blockCeil (contentOf env path).length + 1 + rest.blocks env
  | dir _ entries rest => entries.blocks env + 2 + rest.blocks env

/-- The names in a directory with the offsets of their block nodes, for entries that
start at an offset. -/
def Entries.listing (env : Env) : Entries → Nat → List (List UInt8 × Nat)
  | nil, _ => []
  | file name path rest, start =>
    let count := blockCeil (contentOf env path).length
    (name, start + count * BLOCKSIZE) :: rest.listing env (start + (count + 1) * BLOCKSIZE)
  | dir name entries rest, start =>
    let count := entries.blocks env
    (name, start + (count + 1) * BLOCKSIZE) :: rest.listing env (start + (count + 2) * BLOCKSIZE)

structure Segment where
  first : Nat
  count : Nat

def Segment.node (seg : Segment) : Nat := seg.first + seg.count * BLOCKSIZE

/-- The block nodes below a directory in the order in which they are written. -/
def Entries.segments (env : Env) : Entries → Nat → List Segment
  | nil, _ => []
  | file _ path rest, start =>
    let count := blockCeil (contentOf env path).length
    ⟨start, count⟩ :: rest.segments env (start + (count + 1) * BLOCKSIZE)
  | dir _ entries rest, start =>
    let count := entries.blocks env
    entries.segments env start ++
      ⟨start + count * BLOCKSIZE, 1⟩ :: rest.segments env (start + (count + 2) * BLOCKSIZE)

theorem Entries.listing_names (env : Env) (entries : Entries) (start : Nat) :
    (entries.listing env start).map Prod.fst = entries.names := by
  induction entries generalizing start with
  | nil => rfl
  | file name path rest ih => simp only [listing, names, map_cons, ih]
  | dir name entries rest _ ih => simp only [listing, names, map_cons, ih]

end BoringOs.Newfs
