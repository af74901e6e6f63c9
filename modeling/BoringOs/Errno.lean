import Mathlib.Data.Nat.Bitwise

/-! Constants of `errno.h` and the 64-bit arithmetic shared by the kernel models. -/

namespace BoringOs

open Nat

def EBADF : Int := 0x1BAD0002
def EINVAL : Int := 0x1BAD0003
def EFAULT : Int := 0x1BAD0004
def ENOMEM : Int := 0x1BAD0005
def ENOENT : Int := 0x1BAD0006
def ENOTDIR : Int := 0x1BAD0007
def ENAMETOOLONG : Int := 0x1BAD0008
def EAGAIN : Int := 0x1BAD000A
def ENOSPC : Int := 0x1BAD0013

/-- The end of the user half of an address space, of `pmap.h`. -/
def MEM_USERSPACE_TOP : Nat := 0x0000800000000000

def word64 : Nat := 2 ^ 64

/-- `uint64_t` addition. -/
def add64 (left right : Nat) : Nat := (left + right) % word64

def mul64 (left right : Nat) : Nat := (left * right) % word64

def toInt32 (value : Nat) : Int :=
  if value % 2 ^ 32 < 2 ^ 31 then (value % 2 ^ 32 : Nat) else (value % 2 ^ 32 : Nat) - 2 ^ 32

/-- `SYSCALL_PACK` of a value that fits 32 bits, `SYSCALL_ERRCODE` and `SYSCALL_VALUE`. -/
def SYSCALL_PACK (errcode : Int) (value : Nat) : Nat := errcode.toNat <<< 32 ||| value

def SYSCALL_ERRCODE (result : Nat) : Int := (result >>> 32 : Nat)

def SYSCALL_VALUE (result : Nat) : Nat := result % 2 ^ 32

theorem add64_of_lt {left right : Nat} (bound : left + right < word64) :
    add64 left right = left + right := mod_eq_of_lt bound

theorem mul64_of_lt {left right : Nat} (bound : left * right < word64) :
    mul64 left right = left * right := mod_eq_of_lt bound

theorem toInt32_of_lt {value : Nat} (bound : value < 2 ^ 31) : toInt32 value = value := by
  have small : value % 2 ^ 32 = value := mod_eq_of_lt (by omega)
  rw [toInt32, small, if_pos bound]

theorem and_high_mask {value bits shift : Nat} (small : value < 2 ^ (bits + shift)) :
    value &&& (2 ^ bits - 1) <<< shift = value / 2 ^ shift * 2 ^ shift := by
  have shifted : value / 2 ^ shift * 2 ^ shift = value >>> shift <<< shift := by
    rw [shiftRight_eq_div_pow, shiftLeft_eq]
  rw [shifted]
  refine eq_of_testBit_eq fun i => ?_
  rw [testBit_and, testBit_shiftLeft, testBit_shiftLeft, testBit_shiftRight]
  by_cases low : shift ≤ i
  · have sum : shift + (i - shift) = i := by omega
    rw [sum, testBit_two_pow_sub_one]
    by_cases high : i - shift < bits
    · simp [low, high]
    · have zero : value.testBit i = false :=
        testBit_lt_two_pow (lt_of_lt_of_le small (Nat.pow_le_pow_right (by decide) (by omega)))
      simp [zero]
  · simp [low]

end BoringOs
