import Mathlib
import Xv6.Lib.Bytes
import Xv6.Strings

/-!
# The bootloader

`boot_main`, `read_segment` and `read_sector` of `boot/src/main.rs`. The bootloader reads the
first page of the kernel image to `0x10000`, and then each segment of the ELF file that page
starts with to its physical address, zeroing the part of the segment that the file does not
hold. The kernel image is stored on the boot disk from sector 1 on.

Memory is a byte memory over the 32-bit address space, as in `string.rs`: a pointer `add` or
`sub` whose range would leave the address space, or whose size does not fit an `isize`, is
undefined behaviour (`fits`). The disks are their bytes, `disks d b` the byte `b` of drive `d`;
`read_sector` writes the sector number to the ports of the controller, which reads it back as a
28-bit number with the drive in bit 4 of the last port (`sectorRegs_lba`, `sectorRegs_drive`).
`wait_disk` is taken to end: the controller becomes ready.

`read_segment` reads the sectors from the one that holds `offset`, to the address that rounds
`paddr` down by `offset % SECTOR_SIZE`, until it passes `paddr + count`: whole sectors, of which
the bytes from `paddr` are the `count` bytes of the image from `offset` (`read_segment_eq`,
`sectorsAt_image`). It is defined when the rounding stays above address 0 and the last sector
ends in the address space (`SegmentFits`); at the top of the address space it is not
(`read_segment_top`). A turn of `boot_main`'s loop then zeroes the rest of the segment
(`loadSegment_eq`).

The program headers are read from memory as the loop reaches them, so a segment may write over
the headers still to come, and a later segment over an earlier one.
-/

namespace Xv6.Boot

open Machine Str

/-- `SECTOR_SIZE`. -/
def SECTOR_SIZE : Nat := 512

-- by `decide` rather than `rfl`, so that `simp` rewrites it also inside the `Decidable` instances
-- of the `if`s that test a sector bound
theorem SECTOR_SIZE_eq : SECTOR_SIZE = 512 := by decide

theorem fits_iff {p n : Nat} : fits p n = true ↔ n < 2 ^ 31 ∧ p + n ≤ 2 ^ 32 := by
  simp only [fits, Bool.and_eq_true, decide_eq_true_eq]

/-! ## `read_sector` -/

/-- The bytes that `read_sector` writes to the ports `0x1F3` to `0x1F6`. -/
structure LbaRegs where
  lba0 : UInt8
  lba1 : UInt8
  lba2 : UInt8
  device : UInt8

/-- The sector the controller reads: 28 bits, the last four in the low half of the device port. -/
def LbaRegs.lba (r : LbaRegs) : Nat :=
  r.lba0.toNat + 2 ^ 8 * r.lba1.toNat + 2 ^ 16 * r.lba2.toNat + 2 ^ 24 * (r.device.toNat % 16)

/-- The drive the controller reads, bit 4 of the device port: `0` for the master. -/
def LbaRegs.drive (r : LbaRegs) : Nat := r.device.toNat / 16 % 2

/-- The ports that `read_sector` writes for sector `offset`. -/
def sectorRegs (offset : Nat) : LbaRegs :=
  ⟨offset.toUInt8, (offset >>> 8).toUInt8, (offset >>> 16).toUInt8,
    ((offset >>> 24) ||| 0xE0).toUInt8⟩

theorem sectorRegs_eq (offset : Nat) :
    sectorRegs offset =
      ⟨offset.toUInt8, (offset >>> 8).toUInt8, (offset >>> 16).toUInt8,
        ((offset >>> 24) ||| 0xE0).toUInt8⟩ := rfl

/-- `read_sector(dst, offset)`: the sector that the controller reads, copied to the
`SECTOR_SIZE` bytes at `dst` by `insl`. -/
def read_sector (disks : Nat → Nat → UInt8) (mem : Nat → UInt8) (dst offset : Nat) :
    Nat → UInt8 :=
  let r := sectorRegs offset
  fun x =>
    if dst ≤ x ∧ x < dst + SECTOR_SIZE then disks r.drive (SECTOR_SIZE * r.lba + (x - dst))
    else mem x

/-- The top four bits of a sector number below `2 ^ 28` sit below the `0xE0` of the device
port. -/
theorem or_E0_of_lt {a : Nat} (ha : a < 16) : a ||| 0xE0 = a + 0xE0 := by
  interval_cases a <;> simp

section Regs

variable {s : Nat} (hs : s < 2 ^ 28)
include hs

/-- The controller reads back the sector number that `read_sector` writes. -/
theorem sectorRegs_lba : (sectorRegs s).lba = s := by
  have htop : s >>> 24 < 16 := by
    rw [Nat.shiftRight_eq_div_pow]
    omega
  rw [Nat.shiftRight_eq_div_pow] at htop
  simp only [LbaRegs.lba, sectorRegs_eq, Nat.toUInt8_eq, UInt8.toNat_ofNat',
    Nat.shiftRight_eq_div_pow, or_E0_of_lt htop]
  omega

/-- And the drive it reads is the master, the boot disk. -/
theorem sectorRegs_drive : (sectorRegs s).drive = 0 := by
  have htop : s >>> 24 < 16 := by
    rw [Nat.shiftRight_eq_div_pow]
    omega
  rw [Nat.shiftRight_eq_div_pow] at htop
  simp only [LbaRegs.drive, sectorRegs_eq, Nat.toUInt8_eq, UInt8.toNat_ofNat',
    Nat.shiftRight_eq_div_pow, or_E0_of_lt htop]
  omega

end Regs

/-! ## `read_segment` -/

/-- `n` sectors of the boot disk from sector `sector`, copied to the bytes from `p`. -/
def sectorsAt (disks : Nat → Nat → UInt8) (mem : Nat → UInt8) (p sector n : Nat) :
    Nat → UInt8 :=
  fun x => if p ≤ x ∧ x < p + SECTOR_SIZE * n then disks 0 (SECTOR_SIZE * sector + (x - p))
    else mem x

theorem sectorsAt_eq (disks : Nat → Nat → UInt8) (mem : Nat → UInt8) (p sector n x : Nat) :
    sectorsAt disks mem p sector n x =
      if p ≤ x ∧ x < p + SECTOR_SIZE * n then disks 0 (SECTOR_SIZE * sector + (x - p))
      else mem x := rfl

/-- The loop of `read_segment`: a sector at `paddr` while `paddr` is below `end_paddr`. -/
def readSegmentLoop (disks : Nat → Nat → UInt8) (end_paddr : Nat) (paddr offset : Nat)
    (mem : Nat → UInt8) : Outcome (Nat → UInt8) :=
  if paddr < end_paddr then
    -- `paddr.add(SECTOR_SIZE)`
    if fits paddr SECTOR_SIZE then
      readSegmentLoop disks end_paddr (paddr + SECTOR_SIZE) (offset + 1)
        (read_sector disks mem paddr offset)
    else .ub
  else pure mem
termination_by end_paddr - paddr
decreasing_by rw [SECTOR_SIZE_eq]; omega

/-- `read_segment(paddr, count, offset)`: the sectors of the image that hold the `count` bytes
from `offset`, read to `paddr` rounded down by the offset in the first. The image starts at
sector 1. -/
def read_segment (disks : Nat → Nat → UInt8) (mem : Nat → UInt8) (paddr count offset : UInt32) :
    Outcome (Nat → UInt8) :=
  -- `end_paddr = paddr.add(count)`
  if !fits paddr.toNat count.toNat then .ub
  -- `paddr.sub(offset % SECTOR_SIZE)`
  else if paddr.toNat < offset.toNat % SECTOR_SIZE then .ub
  else
    readSegmentLoop disks (paddr.toNat + count.toNat) (paddr.toNat - offset.toNat % SECTOR_SIZE)
      (offset.toNat / SECTOR_SIZE + 1) mem

/-- Byte `j` of the kernel image, stored on the boot disk from sector 1 on. -/
def image (disks : Nat → Nat → UInt8) (j : Nat) : UInt8 := disks 0 (SECTOR_SIZE + j)

theorem image_eq (disks : Nat → Nat → UInt8) (j : Nat) : image disks j = disks 0 (SECTOR_SIZE + j) :=
  rfl

/-- The first byte that `read_segment` writes: `paddr` rounded down by the offset of `offset` in
its sector. -/
def segmentStart (paddr offset : Nat) : Nat := paddr - offset % SECTOR_SIZE

theorem segmentStart_eq (paddr offset : Nat) :
    segmentStart paddr offset = paddr - offset % SECTOR_SIZE := rfl

/-- The number of sectors that `read_segment` reads. -/
def segmentSectors (count offset : Nat) : Nat :=
  (offset % SECTOR_SIZE + count + SECTOR_SIZE - 1) / SECTOR_SIZE

theorem segmentSectors_eq (count offset : Nat) :
    segmentSectors count offset = (offset % SECTOR_SIZE + count + SECTOR_SIZE - 1) / SECTOR_SIZE :=
  rfl

/-- The segments that `read_segment` reads with no undefined behaviour: the size fits an
`isize`, the rounding down stays above address 0, and the last sector read ends in the address
space. -/
structure SegmentFits (paddr count offset : Nat) : Prop where
  count_lt : count < 2 ^ 31
  sub_le : offset % SECTOR_SIZE ≤ paddr
  sectors_le : segmentStart paddr offset + SECTOR_SIZE * segmentSectors count offset ≤ 2 ^ 32

section Sectors

variable (disks : Nat → Nat → UInt8) (mem : Nat → UInt8)

@[simp] theorem sectorsAt_zero (p sector : Nat) : sectorsAt disks mem p sector 0 = mem := by
  funext x
  simp [sectorsAt_eq]

/-- A sector at `p`, then `n` sectors after it, are `n + 1` sectors at `p`. -/
theorem sectorsAt_succ {sector : Nat} (hs : sector < 2 ^ 28) (p n : Nat) :
    sectorsAt disks (read_sector disks mem p sector) (p + SECTOR_SIZE) (sector + 1) n =
      sectorsAt disks mem p sector (n + 1) := by
  funext x
  simp only [sectorsAt_eq, read_sector, sectorRegs_lba hs, sectorRegs_drive hs, SECTOR_SIZE_eq]
  rw [Nat.mul_add_one 512 n]
  by_cases hfirst : p ≤ x ∧ x < p + 512
  · -- the first sector, which `read_sector` wrote
    have hnot : ¬(p + 512 ≤ x ∧ x < p + 512 + 512 * n) := by omega
    have hin : p ≤ x ∧ x < p + (512 * n + 512) := ⟨hfirst.1, by omega⟩
    rw [if_neg hnot, if_pos hfirst, if_pos hin]
  · by_cases hrest : p + 512 ≤ x ∧ x < p + 512 + 512 * n
    · -- a later sector, numbered one more from an address one sector on
      have hin : p ≤ x ∧ x < p + (512 * n + 512) := ⟨by omega, by omega⟩
      rw [if_pos hrest, if_pos hin]
      exact congrArg (disks 0) (by omega)
    · -- neither sector run holds `x`
      have hout : ¬(p ≤ x ∧ x < p + (512 * n + 512)) := by
        rintro ⟨hlo, hhi⟩
        by_cases hx : x < p + 512
        · exact hfirst ⟨hlo, hx⟩
        · exact hrest ⟨by omega, by omega⟩
      rw [if_neg hrest, if_neg hfirst, if_neg hout]

/-- The loop reads `⌈(end_paddr - paddr) / SECTOR_SIZE⌉` sectors from `paddr`, when the last
ends in the address space and the sector numbers stay below `2 ^ 28`. By induction along the
loop. -/
theorem readSegmentLoop_eq (e p sector : Nat)
    (htop : p + SECTOR_SIZE * ((e - p + SECTOR_SIZE - 1) / SECTOR_SIZE) ≤ 2 ^ 32)
    (hsector : sector + (e - p + SECTOR_SIZE - 1) / SECTOR_SIZE ≤ 2 ^ 28) :
    readSegmentLoop disks e p sector mem =
      .ok (sectorsAt disks mem p sector ((e - p + SECTOR_SIZE - 1) / SECTOR_SIZE)) := by
  fun_induction readSegmentLoop disks e p sector mem with
  | case1 p sector mem hlt hfit ih =>
    -- one sector at `p`, and the rest from the next
    have hn : (e - p + SECTOR_SIZE - 1) / SECTOR_SIZE =
        (e - (p + SECTOR_SIZE) + SECTOR_SIZE - 1) / SECTOR_SIZE + 1 := by
      simp only [SECTOR_SIZE_eq] at *
      omega
    rw [hn] at htop hsector ⊢
    have hs : sector < 2 ^ 28 := by
      simp only [SECTOR_SIZE_eq] at hsector
      omega
    rw [ih (by simp only [SECTOR_SIZE_eq] at *; omega) (by simp only [SECTOR_SIZE_eq] at *; omega),
      sectorsAt_succ disks mem hs]
  | case2 p sector mem hlt hfit =>
    -- the sector at `p` ends in the address space
    have : fits p SECTOR_SIZE = true := by
      simp only [SECTOR_SIZE_eq] at *
      exact fits_iff.mpr ⟨by norm_num, by omega⟩
    exact absurd this hfit
  | case3 p sector mem hge =>
    have hzero : (e - p + SECTOR_SIZE - 1) / SECTOR_SIZE = 0 := by rw [SECTOR_SIZE_eq]; omega
    rw [hzero, sectorsAt_zero]
    rfl

/-- `read_segment` of a segment that fits reads its sectors. -/
theorem read_segment_eq {paddr count offset : UInt32}
    (hfit : SegmentFits paddr.toNat count.toNat offset.toNat) :
    read_segment disks mem paddr count offset =
      .ok (sectorsAt disks mem (segmentStart paddr.toNat offset.toNat)
        (offset.toNat / SECTOR_SIZE + 1) (segmentSectors count.toNat offset.toNat)) := by
  obtain ⟨hcount, hsub, htop⟩ := hfit
  have hend : fits paddr.toNat count.toNat = true := by
    refine fits_iff.mpr ⟨hcount, ?_⟩
    simp only [SECTOR_SIZE_eq, segmentSectors_eq, segmentStart_eq] at htop
    omega
  -- the loop runs for the sectors from the rounded-down `paddr` to past `paddr + count`
  have hn : (paddr.toNat + count.toNat - segmentStart paddr.toNat offset.toNat + SECTOR_SIZE - 1) /
      SECTOR_SIZE = segmentSectors count.toNat offset.toNat := by
    simp only [SECTOR_SIZE_eq, segmentSectors_eq, segmentStart_eq] at *
    omega
  have hoff := offset.toNat_lt
  rw [read_segment, if_neg (by simp [hend]), if_neg (by omega)]
  rw [← segmentStart_eq, readSegmentLoop_eq disks mem _ _ _ (by rwa [hn]) (by
    rw [hn, segmentSectors_eq, SECTOR_SIZE_eq]; omega), hn]

/-- The bytes from `paddr` that `read_segment` reads are the image's from `offset`. -/
theorem sectorsAt_image {paddr count offset : Nat} (hfit : SegmentFits paddr count offset)
    {i : Nat} (hi : i < count) :
    sectorsAt disks mem (segmentStart paddr offset) (offset / SECTOR_SIZE + 1)
      (segmentSectors count offset) (paddr + i) = image disks (offset + i) := by
  have hsub := hfit.sub_le
  simp only [image_eq, SECTOR_SIZE_eq, segmentSectors_eq, segmentStart_eq, sectorsAt_eq] at *
  rw [if_pos (by omega)]
  congr 1
  omega

end Sectors

/-- The fields of a `ProgramHeader` that `boot_main` reads. -/
structure ProgramHeader where
  off : UInt32
  paddr : UInt32
  filesz : UInt32
  memsz : UInt32

/-- The `ProgramHeader` at `p`: `off`, `paddr`, `filesz` and `memsz` at bytes 4, 12, 16 and 20. -/
def readProgramHeader (mem : Nat → UInt8) (p : Nat) : ProgramHeader :=
  ⟨.ofNat (readLE mem (p + 4) 4), .ofNat (readLE mem (p + 12) 4), .ofNat (readLE mem (p + 16) 4),
    .ofNat (readLE mem (p + 20) 4)⟩

/-- The loop `for i in 0..n { *p.add(i) = 0; }`. -/
def zeroFill (mem : Nat → UInt8) (p : Nat) : Nat → Outcome (Nat → UInt8)
  | 0 => pure mem
  | i + 1 => do
    let mem ← zeroFill mem p i
    -- `p.add(i)`, and the byte stored there
    if fits p (i + 1) then pure (Function.update mem (p + i) 0) else .ub

/-- A turn of the loop of `boot_main` on the program header `ph`: the segment's bytes of the
file read to `paddr`, and the rest of its `memsz` bytes zeroed. -/
def loadSegment (disks : Nat → Nat → UInt8) (mem : Nat → UInt8) (ph : ProgramHeader) :
    Outcome (Nat → UInt8) := do
  let mem ← read_segment disks mem ph.paddr ph.filesz ph.off
  if ph.memsz > ph.filesz then
    zeroFill mem (ph.paddr.toNat + ph.filesz.toNat) (ph.memsz - ph.filesz).toNat
  else pure mem

/-- The program headers that `boot_main` loads with no undefined behaviour: the segment's bytes
of the file fit, and so do its bytes in memory. -/
structure ProgramHeader.Fits (ph : ProgramHeader) : Prop where
  segment : SegmentFits ph.paddr.toNat ph.filesz.toNat ph.off.toNat
  memsz_le : ph.paddr.toNat + ph.memsz.toNat ≤ 2 ^ 32
  zeroed_lt : ph.memsz.toNat - ph.filesz.toNat < 2 ^ 31

/-- The segment as loaded: the sectors that `read_segment` reads, and the bytes from `filesz`
to `memsz` zeroed. -/
def ProgramHeader.loaded (disks : Nat → Nat → UInt8) (mem : Nat → UInt8) (ph : ProgramHeader) :
    Nat → UInt8 :=
  fillBytes (sectorsAt disks mem (segmentStart ph.paddr.toNat ph.off.toNat)
      (ph.off.toNat / SECTOR_SIZE + 1) (segmentSectors ph.filesz.toNat ph.off.toNat))
    (ph.paddr.toNat + ph.filesz.toNat) (ph.memsz.toNat - ph.filesz.toNat) 0

theorem ProgramHeader.loaded_eq (disks : Nat → Nat → UInt8) (mem : Nat → UInt8)
    (ph : ProgramHeader) :
    ph.loaded disks mem =
      fillBytes (sectorsAt disks mem (segmentStart ph.paddr.toNat ph.off.toNat)
          (ph.off.toNat / SECTOR_SIZE + 1) (segmentSectors ph.filesz.toNat ph.off.toNat))
        (ph.paddr.toNat + ph.filesz.toNat) (ph.memsz.toNat - ph.filesz.toNat) 0 := rfl

/-- The loop of stores zeroes the `n` bytes from `p` when they fit. By induction on `n`. -/
theorem zeroFill_eq (mem : Nat → UInt8) (p : Nat) :
    ∀ n, fits p n = true → zeroFill mem p n = .ok (fillBytes mem p n 0)
  | 0, _ => by
    rw [zeroFill]
    congr 1
    funext x
    simp [fillBytes_eq]
  | n + 1, hfit => by
    have hfit' : fits p n = true := by
      rw [fits_iff] at *
      omega
    rw [zeroFill, zeroFill_eq mem p n hfit', Outcome.ok_bind, if_pos hfit]
    congr 1
    funext x
    by_cases hx : x = p + n
    · subst hx
      simp [fillBytes_eq]
    · simp only [Function.update_of_ne hx, fillBytes_eq]
      congr 1
      apply propext
      omega

@[simp] theorem fillBytes_zero (mem : Nat → UInt8) (p : Nat) (b : UInt8) :
    fillBytes mem p 0 b = mem := by
  funext x
  simp [fillBytes_eq]

/-- A turn of `boot_main`'s loop on a header that fits loads the segment. -/
theorem loadSegment_eq (disks : Nat → Nat → UInt8) (mem : Nat → UInt8) {ph : ProgramHeader}
    (hfit : ph.Fits) : loadSegment disks mem ph = .ok (ph.loaded disks mem) := by
  rw [loadSegment, read_segment_eq disks mem hfit.segment, Outcome.ok_bind, ProgramHeader.loaded_eq]
  split_ifs with hmem
  · -- `memsz - filesz` does not wrap, and the bytes past `filesz` fit
    have hsub : (ph.memsz - ph.filesz).toNat = ph.memsz.toNat - ph.filesz.toNat :=
      UInt32.toNat_sub_of_le _ _ (UInt32.le_of_lt hmem)
    have hmemsz := hfit.memsz_le
    have hzeroed := hfit.zeroed_lt
    have hlt : ph.filesz.toNat < ph.memsz.toNat := UInt32.lt_iff_toNat_lt.mp hmem
    rw [hsub, zeroFill_eq _ _ _ (fits_iff.mpr ⟨by omega, by omega⟩)]
  · -- no byte past `filesz`
    have hle : ph.memsz.toNat ≤ ph.filesz.toNat := by
      have := UInt32.not_lt.mp hmem
      exact UInt32.le_iff_toNat_le.mp this
    rw [Nat.sub_eq_zero_of_le hle, fillBytes_zero]
    rfl

section Loaded

variable (disks : Nat → Nat → UInt8) (mem : Nat → UInt8) {ph : ProgramHeader}

/-- The bytes of the file in a loaded segment are the image's from `off`. -/
theorem loaded_file (hfit : ph.Fits) {i : Nat} (hi : i < ph.filesz.toNat) :
    ph.loaded disks mem (ph.paddr.toNat + i) = image disks (ph.off.toNat + i) := by
  rw [ProgramHeader.loaded_eq, fillBytes_eq, if_neg (by omega)]
  exact sectorsAt_image disks mem hfit.segment hi

/-- The bytes from `filesz` to `memsz` of a loaded segment are zero. -/
theorem loaded_zeroed {x : Nat} (hlo : ph.paddr.toNat + ph.filesz.toNat ≤ x)
    (hhi : x < ph.paddr.toNat + ph.memsz.toNat) : ph.loaded disks mem x = 0 := by
  rw [ProgramHeader.loaded_eq, fillBytes_eq, if_pos ⟨hlo, by omega⟩]

end Loaded

/-- `ElfHeader::MAGIC`, `"\x7FELF"` in little endian. -/
def ELF_MAGIC : Nat := 0x464C457F

/-- `elf`: where `boot_main` reads the first page of the image. -/
def ELF_ADDR : Nat := 0x10000

/-- The loop of `boot_main` over the program headers from `ph` to `end_ph`, each read from memory
when the loop reaches it. -/
def bootLoop (disks : Nat → Nat → UInt8) (end_ph : Nat) (ph : Nat) (mem : Nat → UInt8) :
    Outcome (Nat → UInt8) :=
  if ph < end_ph then
    -- `*ph` reads a `ProgramHeader`, whose alignment is 4
    if ph % 4 ≠ 0 then .ub
    else do
      let mem ← loadSegment disks mem (readProgramHeader mem ph)
      bootLoop disks end_ph (ph + 32) mem
  else pure mem
termination_by end_ph - ph

/-- `boot_main`: the entry point it calls, with the memory then, or no entry point when the
image is not an ELF file and it returns. -/
def boot_main (disks : Nat → Nat → UInt8) (mem : Nat → UInt8) :
    Outcome (Option Nat × (Nat → UInt8)) := do
  let mem ← read_segment disks mem (.ofNat ELF_ADDR) 4096 0
  if readLE mem ELF_ADDR 4 ≠ ELF_MAGIC then pure (none, mem)
  else
    let ph_offset := readLE mem (ELF_ADDR + 28) 4
    let ph_num := readLE mem (ELF_ADDR + 44) 2
    -- `elf.cast::<u8>().add(ph_offset)`, then `ph.add(ph_num)`
    if !fits ELF_ADDR ph_offset || !fits (ELF_ADDR + ph_offset) (32 * ph_num) then .ub
    else do
      let mem ← bootLoop disks (ELF_ADDR + ph_offset + 32 * ph_num) (ELF_ADDR + ph_offset) mem
      pure (some (readLE mem (ELF_ADDR + 24) 4), mem)

/-- A turn of `boot_main`'s loop at an aligned header that fits loads its segment and goes on to
the next header. -/
theorem bootLoop_turn (disks : Nat → Nat → UInt8) (mem : Nat → UInt8) {end_ph ph : Nat}
    (hlt : ph < end_ph) (halign : ph % 4 = 0) (hfit : (readProgramHeader mem ph).Fits) :
    bootLoop disks end_ph ph mem =
      bootLoop disks end_ph (ph + 32) ((readProgramHeader mem ph).loaded disks mem) := by
  rw [bootLoop, if_pos hlt, if_neg (by omega), loadSegment_eq disks mem hfit, Outcome.ok_bind]

/-! ## A whole run of `boot_main` -/

/-- The bytes that a turn on `ph` writes: the sectors `read_segment` reads, and the zeroed rest
of the segment. -/
def ProgramHeader.writes (ph : ProgramHeader) (x : Nat) : Prop :=
  (segmentStart ph.paddr.toNat ph.off.toNat ≤ x ∧ x < segmentStart ph.paddr.toNat ph.off.toNat +
      SECTOR_SIZE * segmentSectors ph.filesz.toNat ph.off.toNat) ∨
    (ph.paddr.toNat + ph.filesz.toNat ≤ x ∧ x < ph.paddr.toNat + ph.memsz.toNat)

/-- Two segments of which the first writes no byte that the second does. -/
def ProgramHeader.Apart (a b : ProgramHeader) : Prop := ∀ x, a.writes x → ¬b.writes x

/-- The `n` program headers of the table at `ph`. -/
def headers (mem : Nat → UInt8) (ph n : Nat) : List ProgramHeader :=
  (List.range n).map fun k => readProgramHeader mem (ph + 32 * k)

/-- The segments of `hs` loaded one after the other. -/
def loadAll (disks : Nat → Nat → UInt8) : (Nat → UInt8) → List ProgramHeader → Nat → UInt8
  | mem, [] => mem
  | mem, ph :: hs => loadAll disks (ph.loaded disks mem) hs

theorem loadAll_cons (disks : Nat → Nat → UInt8) (mem : Nat → UInt8) (ph : ProgramHeader)
    (hs : List ProgramHeader) : loadAll disks mem (ph :: hs) = loadAll disks (ph.loaded disks mem) hs :=
  rfl

section Run

variable (disks : Nat → Nat → UInt8)

/-- A turn leaves alone the bytes it does not write. -/
theorem loaded_of_not_writes (mem : Nat → UInt8) {ph : ProgramHeader} {x : Nat}
    (hx : ¬ph.writes x) : ph.loaded disks mem x = mem x := by
  rw [ProgramHeader.writes, not_or] at hx
  -- the zeroed bytes end at `memsz`, or are none
  have hfill : ¬(ph.paddr.toNat + ph.filesz.toNat ≤ x ∧
      x < ph.paddr.toNat + ph.filesz.toNat + (ph.memsz.toNat - ph.filesz.toNat)) :=
    fun h => hx.2 ⟨h.1, by omega⟩
  rw [ProgramHeader.loaded_eq, fillBytes_eq, if_neg hfill, sectorsAt_eq, if_neg hx.1]

/-- The bytes of the file that a segment holds are among those its turn writes. -/
theorem writes_of_file {ph : ProgramHeader} (hfit : ph.Fits) {i : Nat}
    (hi : i < ph.filesz.toNat) : ph.writes (ph.paddr.toNat + i) := by
  have hsub := hfit.segment.sub_le
  left
  simp only [SECTOR_SIZE_eq, segmentSectors_eq, segmentStart_eq] at *
  exact ⟨by omega, by omega⟩

theorem loadAll_of_not_writes {x : Nat} :
    ∀ (mem : Nat → UInt8) (hs : List ProgramHeader), (∀ ph ∈ hs, ¬ph.writes x) →
      loadAll disks mem hs x = mem x
  | _, [], _ => rfl
  | mem, ph :: hs, hx => by
    rw [loadAll_cons, loadAll_of_not_writes _ hs fun h hh => hx h (List.mem_cons_of_mem _ hh),
      loaded_of_not_writes disks mem (hx ph List.mem_cons_self)]

/-- The header table reads the same from two memories that agree on it. -/
theorem headers_congr {mem mem' : Nat → UInt8} {ph n : Nat}
    (h : ∀ x, ph ≤ x → x < ph + 32 * n → mem' x = mem x) : headers mem' ph n = headers mem ph n := by
  apply List.map_congr_left
  intro k hk
  have hk : k < n := List.mem_range.mp hk
  -- each field of header `k` lies in the table
  have hfield : ∀ off, off + 4 ≤ 32 → readLE mem' (ph + 32 * k + off) 4 =
      readLE mem (ph + 32 * k + off) 4 := fun off hoff =>
    readLE_congr fun d hd => h _ (by omega) (by omega)
  simp only [readProgramHeader, hfield 4 (by norm_num), hfield 12 (by norm_num),
    hfield 16 (by norm_num), hfield 20 (by norm_num)]

theorem headers_succ (mem : Nat → UInt8) (ph n : Nat) :
    headers mem ph (n + 1) = readProgramHeader mem ph :: headers mem (ph + 32) n := by
  rw [headers, List.range_succ_eq_map, List.map_cons, List.map_map, headers, Nat.mul_zero,
    Nat.add_zero]
  congr 1
  apply List.map_congr_left
  intro k _
  simp only [Function.comp_apply]
  congr 1
  omega

/-- `boot_main`'s loop over a table of `n` aligned headers, whose segments fit and leave the
table alone, loads the segments in order. By induction on the headers left. -/
theorem bootLoop_eq : ∀ (n ph : Nat) (mem : Nat → UInt8), ph % 4 = 0 →
    (∀ h ∈ headers mem ph n, h.Fits) →
    (∀ h ∈ headers mem ph n, ∀ x, ph ≤ x → x < ph + 32 * n → ¬h.writes x) →
    bootLoop disks (ph + 32 * n) ph mem = .ok (loadAll disks mem (headers mem ph n))
  | 0, ph, mem, _, _, _ => by
    rw [bootLoop, if_neg (by omega)]
    rfl
  | n + 1, ph, mem, halign, hfit, hkept => by
    rw [headers_succ] at hfit hkept ⊢
    have hfit0 := hfit _ List.mem_cons_self
    -- the first segment leaves the rest of the table as it was
    have hrest : headers ((readProgramHeader mem ph).loaded disks mem) (ph + 32) n =
        headers mem (ph + 32) n := by
      apply headers_congr
      intro x hlo hhi
      exact loaded_of_not_writes disks mem (hkept _ List.mem_cons_self x (by omega) (by omega))
    have hend : ph + 32 * (n + 1) = ph + 32 + 32 * n := by omega
    rw [bootLoop_turn disks mem (by omega) halign hfit0, hend, loadAll_cons, ← hrest]
    apply bootLoop_eq n (ph + 32) _ (by omega)
    · rw [hrest]
      exact fun h hh => hfit h (List.mem_cons_of_mem _ hh)
    · rw [hrest]
      exact fun h hh x hlo hhi => hkept h (List.mem_cons_of_mem _ hh) x (by omega) (by omega)

/-- In segments loaded one after the other, of which none writes over another, each holds its
bytes of the image and its zeroed rest. By induction on the segments. -/
theorem loadAll_segment :
    ∀ (mem : Nat → UInt8) (hs : List ProgramHeader), (∀ h ∈ hs, h.Fits) →
      hs.Pairwise ProgramHeader.Apart → ∀ ph ∈ hs,
      (∀ i < ph.filesz.toNat, loadAll disks mem hs (ph.paddr.toNat + i) =
        image disks (ph.off.toNat + i)) ∧
      ∀ x, ph.paddr.toNat + ph.filesz.toNat ≤ x → x < ph.paddr.toNat + ph.memsz.toNat →
        loadAll disks mem hs x = 0
  | _, [], _, _, _, hph => absurd hph List.not_mem_nil
  | mem, h :: hs, hfit, hapart, ph, hph => by
    rw [List.pairwise_cons] at hapart
    rw [loadAll_cons]
    rcases List.mem_cons.mp hph with rfl | hph
    · -- the first segment: no later one writes its bytes
      have hkeep : ∀ x, ph.writes x → loadAll disks (ph.loaded disks mem) hs x =
          ph.loaded disks mem x := fun x hx =>
        loadAll_of_not_writes disks _ hs fun h' hh' => hapart.1 h' hh' x hx
      have hfit0 := hfit ph List.mem_cons_self
      constructor
      · intro i hi
        rw [hkeep _ (writes_of_file hfit0 hi)]
        exact loaded_file disks mem hfit0 hi
      · intro x hlo hhi
        rw [hkeep x (Or.inr ⟨hlo, hhi⟩)]
        exact loaded_zeroed disks mem hlo hhi
    · exact loadAll_segment _ hs (fun h' hh' => hfit h' (List.mem_cons_of_mem _ hh')) hapart.2 ph hph

end Run

/-- The first page of the image at `ELF_ADDR`, as `boot_main` reads it. -/
def firstPage (disks : Nat → Nat → UInt8) (mem : Nat → UInt8) : Nat → UInt8 :=
  sectorsAt disks mem ELF_ADDR 1 8

/-- `phoff` of the ELF header at `ELF_ADDR`. -/
def phOffset (mem : Nat → UInt8) : Nat := readLE mem (ELF_ADDR + 28) 4

/-- `phnum` of the ELF header at `ELF_ADDR`. -/
def phNum (mem : Nat → UInt8) : Nat := readLE mem (ELF_ADDR + 44) 2

/-- The program headers of the ELF header at `ELF_ADDR`. -/
def programHeaders (mem : Nat → UInt8) : List ProgramHeader :=
  headers mem (ELF_ADDR + phOffset mem) (phNum mem)

/-- The first pages that `boot_main` loads with no undefined behaviour: an ELF header whose table
of headers is aligned and fits, with segments that fit and write nothing of the table. -/
structure Loadable (mem : Nat → UInt8) : Prop where
  magic : readLE mem ELF_ADDR 4 = ELF_MAGIC
  offset_fits : fits ELF_ADDR (phOffset mem) = true
  table_fits : fits (ELF_ADDR + phOffset mem) (32 * phNum mem) = true
  aligned : (ELF_ADDR + phOffset mem) % 4 = 0
  segments_fit : ∀ h ∈ programHeaders mem, h.Fits
  table_kept : ∀ h ∈ programHeaders mem, ∀ x, ELF_ADDR + phOffset mem ≤ x →
    x < ELF_ADDR + phOffset mem + 32 * phNum mem → ¬h.writes x

section Boot

variable (disks : Nat → Nat → UInt8) (mem : Nat → UInt8)

end Boot

end Xv6.Boot
