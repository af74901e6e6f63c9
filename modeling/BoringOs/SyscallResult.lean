import BoringOs.Errno

/-! The results of system calls on their way from `SYSCALL_PACK` through the wrappers of
`lib/libc/syscall.c` to `SYSCALL_ERRCODE`, `SYSCALL_VALUE` and `WGETPID`. Some wrappers return
`int`: there the upper half of the result is lost, and the conversion back to `uint64_t` extends the
sign. -/

namespace BoringOs.SyscallResult

open Nat

inductive Wrapper where
  | OSThreadCreate
  | OSThreadWait
  | OSSpawn
  | OSWait
  | OSSysCtl
  deriving DecidableEq

def Wrapper.returnsInt : Wrapper → Bool
  | .OSThreadCreate | .OSThreadWait | .OSSysCtl => true
  | .OSSpawn | .OSWait => false

/-- What the caller has in a `uint64_t` for the result of the system call. -/
def receive (wrapper : Wrapper) (result : Nat) : Nat :=
  if wrapper.returnsInt then (toInt32 result % word64).toNat else result

/-- `WGETPID`, with a `pid_t` of 16 bits. -/
def WGETPID (value : Nat) : Nat := (value >>> 16) % 2 ^ 16

/-- The status of a process in `Process_Wait`, which so far packs it with the exit code 0. -/
def waitStatus (pid exitCode : Nat) : Nat := (pid <<< 16) % word64 ||| exitCode &&& 0xff

theorem pack_low (errcode value : Nat) : SYSCALL_PACK errcode value % 2 ^ 32 = value % 2 ^ 32 := by
  rw [SYSCALL_PACK, Int.toNat_natCast, or_mod_two_pow, shiftLeft_eq, mul_mod_left,
    zero_or]

theorem pack_high (errcode value : Nat) :
    SYSCALL_ERRCODE (SYSCALL_PACK errcode value) = (errcode ||| value / 2 ^ 32 : Nat) := by
  rw [SYSCALL_ERRCODE, SYSCALL_PACK, Int.toNat_natCast, shiftRight_or_distrib,
    shiftLeft_shiftRight, shiftRight_eq_div_pow]

theorem receive_int {wrapper : Wrapper} (int : wrapper.returnsInt = true) (result : Nat) :
    receive wrapper result = if result % 2 ^ 32 < 2 ^ 31 then result % 2 ^ 32
      else word64 - 2 ^ 32 + result % 2 ^ 32 := by
  rw [receive, if_pos int, toInt32]
  split
  · rename_i low
    unfold word64
    omega
  · rename_i high
    unfold word64
    omega

/-- The error codes and values that come through. -/
def Recovered (wrapper : Wrapper) (errcode value : Nat) : Prop :=
  if wrapper.returnsInt then
    (errcode = 0 ∧ value < 2 ^ 31) ∨ (errcode = 2 ^ 32 - 1 ∧ 2 ^ 31 ≤ value ∧ value < 2 ^ 32)
  else value < 2 ^ 32

theorem recovered_int {wrapper : Wrapper} (int : wrapper.returnsInt = true) {errcode value : Nat} :
    SYSCALL_ERRCODE (receive wrapper (SYSCALL_PACK errcode value)) = errcode ∧
      SYSCALL_VALUE (receive wrapper (SYSCALL_PACK errcode value)) = value ↔
    (errcode = 0 ∧ value < 2 ^ 31) ∨ (errcode = 2 ^ 32 - 1 ∧ 2 ^ 31 ≤ value ∧ value < 2 ^ 32) := by
  rw [receive_int int, pack_low, SYSCALL_ERRCODE, SYSCALL_VALUE, shiftRight_eq_div_pow]
  split
  · rename_i low
    omega
  · rename_i high
    unfold word64
    omega

theorem recovered_word {wrapper : Wrapper} (word : wrapper.returnsInt = false) {errcode value : Nat} :
    SYSCALL_ERRCODE (receive wrapper (SYSCALL_PACK errcode value)) = errcode ∧
      SYSCALL_VALUE (receive wrapper (SYSCALL_PACK errcode value)) = value ↔ value < 2 ^ 32 := by
  rw [receive, if_neg (by rw [word]; decide), pack_high, SYSCALL_VALUE, pack_low]
  constructor
  · rintro ⟨_, whole⟩
    rw [← whole]
    exact mod_lt _ (by decide)
  · intro small
    rw [div_eq_of_lt small, or_zero, mod_eq_of_lt small]
    exact ⟨rfl, rfl⟩

theorem waitStatus_eq {pid : Nat} (small : pid < 2 ^ 48) (exitCode : Nat) :
    waitStatus pid exitCode = pid * 2 ^ 16 + exitCode % 2 ^ 8 := by
  have fits : pid <<< 16 < word64 := by
    rw [shiftLeft_eq]
    unfold word64
    omega
  have code : exitCode &&& 0xff = exitCode % 2 ^ 8 := and_two_pow_sub_one_eq_mod exitCode 8
  have short : exitCode % 2 ^ 8 < 2 ^ 16 := lt_of_lt_of_le (mod_lt _ (by decide)) (by decide)
  have := two_pow_add_eq_or_of_lt short pid
  rw [waitStatus, mod_eq_of_lt fits, code, shiftLeft_eq, mul_comm, ← this]

theorem recovered_pid (pid exitCode : Nat) :
    SYSCALL_ERRCODE (receive .OSWait (SYSCALL_PACK 0 (waitStatus pid exitCode))) = 0 ∧
      WGETPID (SYSCALL_VALUE (receive .OSWait (SYSCALL_PACK 0 (waitStatus pid exitCode)))) = pid ↔
    pid < 2 ^ 16 := by
  constructor
  · rintro ⟨_, same⟩
    rw [← same]
    exact mod_lt _ (by decide)
  · intro small
    have status := waitStatus_eq (lt_trans small (by decide)) exitCode
    have fits : waitStatus pid exitCode < 2 ^ 32 := by omega
    have through : SYSCALL_ERRCODE (receive .OSWait (SYSCALL_PACK 0 (waitStatus pid exitCode))) = 0 ∧
        SYSCALL_VALUE (receive .OSWait (SYSCALL_PACK 0 (waitStatus pid exitCode))) =
          waitStatus pid exitCode := (recovered_word rfl).mpr fits
    refine ⟨through.1, ?_⟩
    rw [through.2, WGETPID, status, shiftRight_eq_div_pow]
    omega

/-- A packed result is recovered exactly when the value fits 32 bits and the wrapper returns a
`uint64_t`, or when it is a success with a value below `2 ^ 31` (or the error `2 ^ 32 - 1` with a
value above it) and the wrapper returns an `int`; a pid is recovered from a wait exactly when it
has 16 bits. -/
theorem syscall_result_recovered_iff (wrapper : Wrapper) (errcode value pid exitCode : Nat) :
    ((SYSCALL_ERRCODE (receive wrapper (SYSCALL_PACK errcode value)) = errcode ∧
        SYSCALL_VALUE (receive wrapper (SYSCALL_PACK errcode value)) = value) ↔
      Recovered wrapper errcode value) ∧
    ((SYSCALL_ERRCODE (receive .OSWait (SYSCALL_PACK 0 (waitStatus pid exitCode))) = 0 ∧
        WGETPID (SYSCALL_VALUE (receive .OSWait (SYSCALL_PACK 0 (waitStatus pid exitCode)))) = pid) ↔
      pid < 2 ^ 16) := by
  refine ⟨?_, recovered_pid pid exitCode⟩
  unfold Recovered
  cases int : wrapper.returnsInt with
  | true =>
    rw [if_pos rfl]
    exact recovered_int int
  | false =>
    rw [if_neg (by decide)]
    exact recovered_word int

/-- `ENOMEM` of a thread creation is seen as thread 0, an exit value of `2 ^ 31` as an error, and
process 65536 as process 0. -/
theorem syscall_result_lost :
    SYSCALL_ERRCODE (receive .OSThreadCreate (SYSCALL_PACK ENOMEM 0)) = 0 ∧
      SYSCALL_ERRCODE (receive .OSThreadWait (SYSCALL_PACK 0 (2 ^ 31))) ≠ 0 ∧
      WGETPID (SYSCALL_VALUE (receive .OSWait (SYSCALL_PACK 0 (waitStatus 65536 0)))) = 0 := by
  decide

end BoringOs.SyscallResult
