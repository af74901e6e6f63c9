import Mathlib.Tactic.Ring

/-! How `sys/dev/x86/ide.c` addresses the sectors of a drive. -/

namespace BoringOs.Ide

open List

/-- The task file registers of the controller and `lastDriveCode`. -/
structure IDE where
  drive : Nat
  sectorCount : Nat
  lbaLow : Nat
  lbaMid : Nat
  lbaHigh : Nat
  command : Nat
  lastDriveCode : Nat

/-- `IDE_CMD_READ` and `IDE_CMD_WRITE`. -/
inductive Op where
  | read
  | write

def Op.command : Op → Nat
  | .read => 0x20
  | .write => 0x30

/-- The drive code of the two drives; `lba48` is always false. -/
def driveCode (drive : Fin 2) : Nat := if drive.val = 0 then 0xE0 else 0xF0

/-- `IDE_ReadOne` and `IDE_WriteOne` up to the command; the drive reports no error. -/
def issue (op : Op) (drive : Fin 2) (off len : Nat) (ide : IDE) : IDE :=
  let ide := if driveCode drive ≠ ide.lastDriveCode then
    { ide with drive := driveCode drive, lastDriveCode := driveCode drive } else ide
  { ide with
    sectorCount := len % 256
    lbaLow := off % 256
    lbaMid := off / 2 ^ 8 % 256
    lbaHigh := off / 2 ^ 16 % 256
    command := op.command }

/-- What the drive takes a 28-bit command for: the unit, the first sector and the number of them.
Without the bit 6 of the drive register this is no linear address. -/
def IDE.addressed (ide : IDE) : Option (Nat × Nat × Nat) :=
  if ide.drive / 64 % 2 = 1 then
    some (ide.drive / 16 % 2,
      ide.drive % 16 * 2 ^ 24 + ide.lbaHigh * 2 ^ 16 + ide.lbaMid * 2 ^ 8 + ide.lbaLow,
      if ide.sectorCount = 0 then 256 else ide.sectorCount)
  else none

/-- A byte of a drive and the byte of the buffer it is moved with. -/
abbrev Move := Nat × Nat × Nat

/-- The loop over `len` sectors of the buffer, as far as the drive has data. -/
def moves (addressed : Option (Nat × Nat × Nat)) (buf len : Nat) : List Move :=
  match addressed with
  | none => []
  | some (unit, sector, count) => (range (min len count)).flatMap fun i =>
    (range 512).map fun j => (unit, 512 * (sector + i) + j, buf + 512 * i + j)

structure SGEntry where
  offset : Nat
  length : Nat

/-- The drive code that `IDE_Identify` and `IDE_Flush` select a drive with. -/
def selectCode (drive : Fin 2) : Nat := if drive.val = 0 then 0xA0 else 0xB0

def ide_Identify (drive : Fin 2) : IDE :=
  { drive := selectCode drive, sectorCount := 0, lbaLow := 0, lbaMid := 0, lbaHigh := 0, command := 0xEC,
    lastDriveCode := selectCode drive }

/-- `IDE_Flush`, which leaves `lastDriveCode`. -/
def ide_Flush (drive : Fin 2) (ide : IDE) : IDE :=
  { ide with drive := selectCode drive, command := 0xE7 }

/-- The controllers after an `IDE_Identify` and any number of commands. -/
inductive Reached : IDE → Prop where
  | identify (drive : Fin 2) : Reached (ide_Identify drive)
  | issue (op : Op) (drive : Fin 2) (off len : Nat) {ide : IDE} : Reached ide → Reached (issue op drive off len ide)
  | flush (drive : Fin 2) {ide : IDE} : Reached ide → Reached (ide_Flush drive ide)

/-- The bytes from a byte of a drive on, with those of a buffer. -/
def bytes (drive offset buf length : Nat) : List Move :=
  (range length).map fun k => (drive, offset + k, buf + k)

/-- The bytes a scatter list asks for. -/
def requested (drive : Fin 2) : List SGEntry → Nat → List Move
  | [], _ => []
  | entry :: entries, buf =>
    bytes drive entry.offset buf entry.length ++ requested drive entries (buf + entry.length)

/-- The drive is selected anew, or the drive register has its code for linear addresses. -/
def IDE.Ready (ide : IDE) (drive : Fin 2) : Prop :=
  driveCode drive ≠ ide.lastDriveCode ∨ ide.drive = driveCode drive

/-- The numbers of an entry fit the registers. -/
def SGEntry.Fits (entry : SGEntry) : Prop := entry.offset / 512 < 2 ^ 24 ∧ entry.length / 512 ≤ 256

variable {op : Op} {drive : Fin 2} {off len buf : Nat} {ide : IDE} {entry : SGEntry} {entries : List SGEntry}

theorem issue_drive : (issue op drive off len ide).drive =
    if driveCode drive ≠ ide.lastDriveCode then driveCode drive else ide.drive := by
  unfold issue
  dsimp only
  split <;> rfl

theorem issue_lastDriveCode : (issue op drive off len ide).lastDriveCode = driveCode drive := by
  unfold issue
  dsimp only
  split
  · rfl
  · next same => exact (not_not.mp same).symm

theorem Reached.known (reached : Reached ide) :
    ide.drive = ide.lastDriveCode ∨ ∃ drive, ide.drive = selectCode drive := by
  induction reached with
  | identify drive => exact .inl rfl
  | flush drive _ ih => exact .inr ⟨drive, rfl⟩
  | issue op drive off len _ ih =>
    rw [issue_drive, issue_lastDriveCode]
    split
    · exact .inl rfl
    · next same =>
      rw [not_not] at same
      exact ih.imp_left (·.trans same.symm)

end BoringOs.Ide
