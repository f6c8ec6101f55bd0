import Mathlib
import Xv6.Vm

/-!
# `copy_out`

`uva_to_ka` and `copy_out` of `vm.rs`: the copy of `len` bytes from the kernel to the user address
`va` of the page table `pgdir`, page by page, through the kernel addresses of the user pages. The
source `p` is given by the bytes it points to, `src`; `copy_nonoverlapping` requires it to be
apart from the bytes written, so the copy does not change it.

The loop takes at its first turn the bytes from `va` to the end of its page, and then a page at a
time, each turn looking the page up again, so a turn sees the page table as the turns before have
left it. `translate` is the physical byte of a user address, `mappedPrefix` the bytes of the range
before the first page that is not present with `PTE_U`.

Two pages of the range that share a physical page, or a user page that holds an entry of the page
table, break the picture of a copy into the user's memory: a later turn overwrites an earlier one
(`copy_out_aliased`). When the bytes of the range translate to distinct physical bytes, none of
which holds an entry that the lookups read (`CopyOk`), `copy_out` returns `true` exactly when every
page of the range is present with `PTE_U`, the byte that translates `va + i` is then `src i`,
and only the translations of the bytes before the first missing page are written
(`copy_out_spec`).
-/

namespace Xv6

open Machine

/-! ## Page arithmetic -/

/-- The mask of `pg_rounddown` keeps the multiple of the page size below a 32-bit number. -/
theorem and_pageMask {n : Nat} (hn : n < 2 ^ 32) : n &&& 0xFFFFF000 = n / 4096 * 4096 := by
  apply Nat.eq_of_testBit_eq
  intro i
  have hshift : n / 4096 * 4096 = (n >>> 12) <<< 12 := by
    rw [Nat.shiftLeft_eq, Nat.shiftRight_eq_div_pow]
  have hmask : (0xFFFFF000 : Nat) = (2 ^ 20 - 1) <<< 12 := by
    rw [Nat.shiftLeft_eq]
    norm_num
  rw [hshift, hmask, Nat.testBit_and, Nat.testBit_shiftLeft, Nat.testBit_shiftLeft,
    Nat.testBit_shiftRight, Nat.testBit_two_pow_sub_one]
  -- the bits from 12 to 31 are kept, the others are zero on both sides
  by_cases h12 : 12 ≤ i
  · have hi : 12 + (i - 12) = i := by omega
    rw [hi]
    by_cases h32 : i < 32
    · simp [h12, show i - 12 < 20 by omega]
    · have hbit : n.testBit i = false :=
        Nat.testBit_lt_two_pow (lt_of_lt_of_le hn (Nat.pow_le_pow_right (by norm_num) (by omega)))
      simp [hbit]
  · simp [h12]

theorem pg_rounddown_toNat (x : UInt32) : (pg_rounddown x).toNat = x.toNat / 4096 * 4096 := by
  have hmask : ~~~(UInt32.ofNat PGSIZE - 1) = (0xFFFFF000 : UInt32) := by decide
  unfold pg_rounddown
  rw [hmask, UInt32.toNat_and]
  exact and_pageMask x.toNat_lt

/-- The offset of an address in its page. -/
theorem sub_pg_rounddown_toNat (x : UInt32) : (x - pg_rounddown x).toNat = x.toNat % 4096 := by
  have hr := pg_rounddown_toNat x
  have hle : pg_rounddown x ≤ x := by
    rw [UInt32.le_iff_toNat_le, hr]
    exact Nat.div_mul_le_self _ _
  rw [UInt32.toNat_sub_of_le _ _ hle, hr]
  omega

/-- Within a page, an address keeps its page and adds to its offset. -/
theorem pg_rounddown_add_of_lt {x : UInt32} {j : Nat} (h : x.toNat % 4096 + j < 4096) :
    pg_rounddown (x + UInt32.ofNat j) = pg_rounddown x ∧
      (x + UInt32.ofNat j).toNat = x.toNat + j := by
  have hx := x.toNat_lt
  have hsum : (x + UInt32.ofNat j).toNat = x.toNat + j := by
    rw [UInt32.toNat_add, UInt32.toNat_ofNat']
    have : x.toNat + j < 2 ^ 32 := by omega
    rw [Nat.mod_eq_of_lt (by omega : j < 2 ^ 32), Nat.mod_eq_of_lt this]
  refine ⟨?_, hsum⟩
  apply UInt32.toNat_inj.mp
  rw [pg_rounddown_toNat, pg_rounddown_toNat, hsum]
  omega

/-- The address of an entry is page aligned. -/
theorem PTE.address_toNat (e : PTE) : e.address.toNat % 4096 = 0 := by
  have hmask : ~~~(0xfff : UInt32) = 0xFFFFF000 := by decide
  have hval : (0xFFFFF000 : UInt32).toNat = 0xFFFFF000 := rfl
  unfold PTE.address
  rw [hmask, UInt32.toNat_and, hval, and_pageMask e.bits.toNat_lt]
  exact Nat.mul_mod_left _ _

@[simp] theorem v2p_p2v (pa : UInt32) : v2p (p2v pa) = pa := by
  unfold v2p p2v
  exact UInt32.add_sub_cancel _ _

/-! ## The model -/

/-- `uva_to_ka`: the kernel address of the user page `uva`, when its entry is present and has
`PTE_U`. -/
def uva_to_ka (s : VmState) (pgdir uva : UInt32) : Option UInt32 :=
  match (walk_pgdir s pgdir uva false).1 with
  | some pte =>
    if (s.load pte).isPresent && (s.load pte).isUser then some (p2v (s.load pte).address)
    else none
  | none => none

/-- `copy_nonoverlapping(src, dst, n)` into memory: the `n` bytes of `src` from the kernel address
`dst`. -/
def VmState.copyIn (s : VmState) (dst : UInt32) (src : Nat → UInt8) (n : Nat) : VmState :=
  { s with
    mem := fun x => if (v2p dst).toNat ≤ x ∧ x < (v2p dst).toNat + n then src (x - (v2p dst).toNat)
      else s.mem x }

/-- The `while` loop of `copy_out` at `va`, with `len` bytes left, the next one at `buf` in the
source. Each turn copies at least one byte, so `len` turns are enough (`copy_out` gives them); a
loop without them is given no meaning. -/
def copyOutLoop (pgdir : UInt32) (src : Nat → UInt8) :
    Nat → VmState → UInt32 → UInt32 → Nat → Outcome (Bool × VmState)
  | 0, s, _, len, _ => if len = 0 then pure (true, s) else .ub
  | fuel + 1, s, va, len, buf =>
    if len = 0 then pure (true, s)
    else
      let va0 := pg_rounddown va
      match uva_to_ka s pgdir va0 with
      | none => pure (false, s)
      | some pa0 =>
        let n := min (UInt32.ofNat PGSIZE - (va - va0)) len
        let s := s.copyIn (pa0 + (va - va0)) (fun j => src (buf + j)) n.toNat
        copyOutLoop pgdir src fuel s (va0 + UInt32.ofNat PGSIZE) (len - n) (buf + n.toNat)

/-- `copy_out(pgdir, va, p, len)`, with `src` the bytes at `p`. -/
def copy_out (s : VmState) (pgdir va : UInt32) (src : Nat → UInt8) (len : UInt32) :
    Outcome (Bool × VmState) :=
  copyOutLoop pgdir src len.toNat s va len 0

/-- The physical byte of the user address `x`, when its page is present with `PTE_U`. -/
def translate (s : VmState) (pgdir x : UInt32) : Option Nat :=
  (uva_to_ka s pgdir (pg_rounddown x)).map fun ka => (v2p ka).toNat + x.toNat % 4096

/-- The length of the prefix of `[0, len)` on which `g` holds. -/
def prefixLen (g : Nat → Bool) : Nat → Nat
  | 0 => 0
  | m + 1 => if g 0 then prefixLen (fun i => g (i + 1)) m + 1 else 0

/-- The bytes of `[va, va + len)` before the first page that is not present with `PTE_U`. -/
def mappedPrefix (s : VmState) (pgdir va : UInt32) (len : Nat) : Nat :=
  prefixLen (fun i => (translate s pgdir (va + UInt32.ofNat i)).isSome) len

/-- The physical bytes that `uva_to_ka` reads for the page `a`: the entry of `a` in the directory,
and, when that entry is present, the entry of `a` in its page table. -/
def walkBytes (s : VmState) (pgdir a : UInt32) (x : Nat) : Prop :=
  let pde := pgdir + 4 * PDE.index a
  ((v2p pde).toNat ≤ x ∧ x < (v2p pde).toNat + 4) ∨
    ((s.load pde).isPresent = true ∧
      (v2p (p2v (s.load pde).address + 4 * PTE.index a)).toNat ≤ x ∧
      x < (v2p (p2v (s.load pde).address + 4 * PTE.index a)).toNat + 4)

/-! ## Prefixes -/

section Prefix

variable {g g' : Nat → Bool}

theorem prefixLen_succ (g : Nat → Bool) (m : Nat) :
    prefixLen g (m + 1) = if g 0 then prefixLen (fun i => g (i + 1)) m + 1 else 0 := rfl

theorem prefixLen_le (g : Nat → Bool) (m : Nat) : prefixLen g m ≤ m := by
  induction m generalizing g with
  | zero => rfl
  | succ m ih =>
    simp only [prefixLen_succ]
    split_ifs
    · exact Nat.succ_le_succ (ih _)
    · exact Nat.zero_le _

theorem of_lt_prefixLen {m i : Nat} (h : i < prefixLen g m) : g i = true := by
  induction m generalizing g i with
  | zero => exact absurd h (Nat.not_lt_zero _)
  | succ m ih =>
    simp only [prefixLen_succ] at h
    split_ifs at h with h0
    · cases i with
      | zero => exact h0
      | succ i => exact ih (g := fun i => g (i + 1)) (by omega)
    · exact absurd h (Nat.not_lt_zero _)

/-- The prefix is the whole range exactly when `g` holds on all of it. -/
theorem prefixLen_eq_iff {m : Nat} : prefixLen g m = m ↔ ∀ i < m, g i = true := by
  constructor
  · intro h i hi
    exact of_lt_prefixLen (m := m) (by omega)
  · intro h
    induction m generalizing g with
    | zero => rfl
    | succ m ih =>
      simp only [prefixLen_succ]
      rw [if_pos (h 0 (Nat.succ_pos m)), ih (fun i hi => h (i + 1) (by omega))]

theorem prefixLen_congr {m : Nat} (h : ∀ i < m, g i = g' i) : prefixLen g m = prefixLen g' m := by
  induction m generalizing g g' with
  | zero => rfl
  | succ m ih =>
    simp only [prefixLen_succ]
    rw [h 0 (Nat.succ_pos m), ih (fun i hi => h (i + 1) (by omega))]

theorem prefixLen_of_false {m : Nat} (h : g 0 = false) : prefixLen g m = 0 := by
  cases m with
  | zero => rfl
  | succ m =>
    simp only [prefixLen_succ]
    rw [if_neg (by simp [h])]

/-- Over a first stretch where `g` holds, the prefix goes on from its end. -/
theorem prefixLen_add {n m : Nat} (h : ∀ i < n, g i = true) :
    prefixLen g (n + m) = n + prefixLen (fun i => g (n + i)) m := by
  induction n generalizing g with
  | zero => simp
  | succ n ih =>
    rw [Nat.add_right_comm, prefixLen_succ, if_pos (h 0 (Nat.succ_pos n)),
      ih (fun i hi => h (i + 1) (by omega))]
    have hshift : (fun i => g (n + i + 1)) = fun i => g (n + 1 + i) := by
      funext i
      rw [Nat.add_right_comm]
    rw [hshift]
    omega

theorem mappedPrefix_le (s : VmState) (pgdir va : UInt32) (len : Nat) :
    mappedPrefix s pgdir va len ≤ len :=
  prefixLen_le _ _

end Prefix

/-! ## What the lookups read -/

section Lookup

variable {s s' : VmState} {pgdir a : UInt32}

theorem VmState.load_congr {va : UInt32}
    (h : ∀ d < 4, s'.mem ((v2p va).toNat + d) = s.mem ((v2p va).toNat + d)) :
    s'.load va = s.load va := by
  unfold VmState.load
  rw [readLE_congr h]

/-- `uva_to_ka` reads only the bytes of `walkBytes`. -/
theorem uva_to_ka_congr (h : ∀ x, walkBytes s pgdir a x → s'.mem x = s.mem x) :
    uva_to_ka s' pgdir a = uva_to_ka s pgdir a := by
  have hpde : s'.load (pgdir + 4 * PDE.index a) = s.load (pgdir + 4 * PDE.index a) :=
    VmState.load_congr fun d hd => h _ (Or.inl ⟨by omega, by omega⟩)
  unfold uva_to_ka walk_pgdir
  dsimp only
  rw [hpde]
  by_cases hp : (s.load (pgdir + 4 * PDE.index a)).isPresent = true
  · -- the entry of the page table, at the address the directory gives
    have hpte : s'.load (p2v (s.load (pgdir + 4 * PDE.index a)).address + 4 * PTE.index a) =
        s.load (p2v (s.load (pgdir + 4 * PDE.index a)).address + 4 * PTE.index a) :=
      VmState.load_congr fun d hd => h _ (Or.inr ⟨hp, by omega, by omega⟩)
    simp only [hp, if_true, hpte]
  · simp [hp]

/-- Nor does `walkBytes` read more than its own bytes. -/
theorem walkBytes_congr (h : ∀ x, walkBytes s pgdir a x → s'.mem x = s.mem x) :
    walkBytes s' pgdir a = walkBytes s pgdir a := by
  have hpde : s'.load (pgdir + 4 * PDE.index a) = s.load (pgdir + 4 * PDE.index a) :=
    VmState.load_congr fun d hd => h _ (Or.inl ⟨by omega, by omega⟩)
  funext x
  unfold walkBytes
  dsimp only
  rw [hpde]

/-- The kernel address that `uva_to_ka` gives is that of a whole physical page. -/
theorem uva_to_ka_aligned {ka : UInt32} (h : uva_to_ka s pgdir a = some ka) :
    (v2p ka).toNat % 4096 = 0 ∧ (v2p ka).toNat + 4096 ≤ 2 ^ 32 := by
  unfold uva_to_ka at h
  split at h
  · rename_i pte _
    split_ifs at h
    rw [← Option.some.inj h, v2p_p2v]
    have halign := PTE.address_toNat (s.load pte)
    have hlt := (s.load pte).address.toNat_lt
    omega
  · cases h

end Lookup

/-! ## One turn of the loop -/

section Turn

variable {s : VmState} {pgdir va pa0 : UInt32}

/-- The bytes of the page of `va` from `va` on translate through the kernel address of the
page. -/
theorem translate_chunk (hka : uva_to_ka s pgdir (pg_rounddown va) = some pa0) {j : Nat}
    (hj : va.toNat % 4096 + j < 4096) :
    translate s pgdir (va + UInt32.ofNat j) = some ((v2p pa0).toNat + va.toNat % 4096 + j) := by
  obtain ⟨hpage, hsum⟩ := pg_rounddown_add_of_lt hj
  unfold translate
  rw [hpage, hka, hsum]
  simp only [Option.map_some, Option.some.injEq]
  omega

/-- A turn writes from the offset of `va` in the physical page. -/
theorem v2p_chunk (hka : uva_to_ka s pgdir (pg_rounddown va) = some pa0) :
    (v2p (pa0 + (va - pg_rounddown va))).toNat = (v2p pa0).toNat + va.toNat % 4096 := by
  obtain ⟨halign, hfit⟩ := uva_to_ka_aligned hka
  have hv : v2p (pa0 + (va - pg_rounddown va)) = v2p pa0 + (va - pg_rounddown va) := by
    unfold v2p
    grind
  have hoff : va.toNat % 4096 < 4096 := Nat.mod_lt _ (by norm_num)
  rw [hv, UInt32.toNat_add, sub_pg_rounddown_toNat]
  exact Nat.mod_eq_of_lt (by omega)

/-- A turn copies the bytes to the end of the page, or those left when fewer. -/
theorem chunk_toNat (va len : UInt32) :
    (min (UInt32.ofNat PGSIZE - (va - pg_rounddown va)) len).toNat =
      min (4096 - va.toNat % 4096) len.toNat := by
  have hoff := sub_pg_rounddown_toNat va
  have hlt : va.toNat % 4096 < 4096 := Nat.mod_lt _ (by norm_num)
  have hpg : (UInt32.ofNat PGSIZE).toNat = 4096 := rfl
  have hsub : (UInt32.ofNat PGSIZE - (va - pg_rounddown va)).toNat = 4096 - va.toNat % 4096 := by
    rw [UInt32.toNat_sub_of_le _ _ (by rw [UInt32.le_iff_toNat_le, hoff, hpg]; omega), hoff, hpg]
  have hiff : UInt32.ofNat PGSIZE - (va - pg_rounddown va) ≤ len ↔
      4096 - va.toNat % 4096 ≤ len.toNat := by
    rw [UInt32.le_iff_toNat_le, hsub]
  rw [UInt32.min_def, Nat.min_def]
  by_cases hle : 4096 - va.toNat % 4096 ≤ len.toNat
  · rw [if_pos (hiff.mpr hle), if_pos hle, hsub]
  · rw [if_neg (mt hiff.mp hle), if_neg hle]

/-- The bytes a turn writes are the translations of the first bytes of the range. -/
theorem copyIn_turn_mem (hka : uva_to_ka s pgdir (pg_rounddown va) = some pa0) (f : Nat → UInt8)
    (n x : Nat) :
    (s.copyIn (pa0 + (va - pg_rounddown va)) f n).mem x =
      if (v2p pa0).toNat + va.toNat % 4096 ≤ x ∧ x < (v2p pa0).toNat + va.toNat % 4096 + n then
        f (x - ((v2p pa0).toNat + va.toNat % 4096))
      else s.mem x := by
  unfold VmState.copyIn
  rw [v2p_chunk hka]

/-- A byte of the stretch a turn writes translates the byte of the range at the same offset. -/
theorem translate_of_mem_chunk (hka : uva_to_ka s pgdir (pg_rounddown va) = some pa0) {n x : Nat}
    (hn : va.toNat % 4096 + n ≤ 4096)
    (hx : (v2p pa0).toNat + va.toNat % 4096 ≤ x ∧ x < (v2p pa0).toNat + va.toNat % 4096 + n) :
    translate s pgdir (va + UInt32.ofNat (x - ((v2p pa0).toNat + va.toNat % 4096))) = some x := by
  rw [translate_chunk hka (by omega)]
  congr 1
  omega

/-- After a turn that ends the page, the range goes on at the next page. -/
theorem next_page {n : Nat} (hfull : va.toNat % 4096 + n = 4096) (i : Nat) :
    pg_rounddown va + UInt32.ofNat PGSIZE + UInt32.ofNat i = va + UInt32.ofNat (n + i) := by
  have hn : UInt32.ofNat n = UInt32.ofNat PGSIZE - (va - pg_rounddown va) := by
    apply UInt32.toNat_inj.mp
    have hoff := sub_pg_rounddown_toNat va
    have hpg : (UInt32.ofNat PGSIZE).toNat = 4096 := rfl
    rw [UInt32.toNat_sub_of_le _ _ (by rw [UInt32.le_iff_toNat_le, hoff, hpg]; omega), hoff, hpg,
      UInt32.toNat_ofNat', Nat.mod_eq_of_lt (by omega : n < 2 ^ 32)]
    omega
  rw [UInt32.ofNat_add, hn]
  grind

end Turn

/-! ## The loop -/

/-- The conditions under which `copy_out` is a copy into the user's memory: the bytes of the range
translate to distinct physical bytes, and none of them is a byte of an entry that the lookups of
the range read. -/
structure CopyOk (s : VmState) (pgdir va : UInt32) (len : Nat) : Prop where
  inj : ∀ i < len, ∀ j < len, ∀ x, translate s pgdir (va + UInt32.ofNat i) = some x →
    translate s pgdir (va + UInt32.ofNat j) = some x → i = j
  sep : ∀ i < len, ∀ j < len, ∀ x, translate s pgdir (va + UInt32.ofNat i) = some x →
    ¬walkBytes s pgdir (pg_rounddown (va + UInt32.ofNat j)) x

/-- What a copy of `[va, va + len)` from `f` leaves in `s'`: the translation of each byte before
the first missing page holds its byte of `f`, and every other physical byte is as in `s`. -/
structure Copied (s s' : VmState) (pgdir va : UInt32) (len : Nat) (f : Nat → UInt8) : Prop where
  written : ∀ i < mappedPrefix s pgdir va len, ∀ x, translate s pgdir (va + UInt32.ofNat i) = some x →
    s'.mem x = f i
  frame : ∀ x, (∀ i < mappedPrefix s pgdir va len, translate s pgdir (va + UInt32.ofNat i) ≠ some x) →
    s'.mem x = s.mem x

section TurnState

variable {s : VmState} {pgdir va pa0 : UInt32} {len n : Nat} {f : Nat → UInt8}

/-- A turn leaves the lookups of the range as they were: it writes no byte they read. -/
theorem translate_turn (hka : uva_to_ka s pgdir (pg_rounddown va) = some pa0)
    (hn : va.toNat % 4096 + n ≤ 4096) (hnl : n ≤ len) (hok : CopyOk s pgdir va len) {i : Nat}
    (hi : i < len) :
    translate (s.copyIn (pa0 + (va - pg_rounddown va)) f n) pgdir (va + UInt32.ofNat i) =
        translate s pgdir (va + UInt32.ofNat i) ∧
      walkBytes (s.copyIn (pa0 + (va - pg_rounddown va)) f n) pgdir
          (pg_rounddown (va + UInt32.ofNat i)) =
        walkBytes s pgdir (pg_rounddown (va + UInt32.ofNat i)) := by
  have hkeep : ∀ x, walkBytes s pgdir (pg_rounddown (va + UInt32.ofNat i)) x →
      (s.copyIn (pa0 + (va - pg_rounddown va)) f n).mem x = s.mem x := by
    intro x hw
    rw [copyIn_turn_mem hka]
    split_ifs with hx
    · exact absurd hw (hok.sep _ (by omega) i hi x (translate_of_mem_chunk hka hn hx))
    · rfl
  refine ⟨?_, walkBytes_congr hkeep⟩
  unfold translate
  rw [uva_to_ka_congr hkeep]

/-- After a turn that leaves bytes, the turn ended the page: byte `i` of the rest is byte `n + i`
of the range, with the same lookups. -/
theorem translate_rest (hka : uva_to_ka s pgdir (pg_rounddown va) = some pa0)
    (hN : n = min (4096 - va.toNat % 4096) len) (hok : CopyOk s pgdir va len) {i : Nat}
    (hi : i < len - n) :
    translate (s.copyIn (pa0 + (va - pg_rounddown va)) f n) pgdir
        (pg_rounddown va + UInt32.ofNat PGSIZE + UInt32.ofNat i) =
      translate s pgdir (va + UInt32.ofNat (n + i)) ∧
    walkBytes (s.copyIn (pa0 + (va - pg_rounddown va)) f n) pgdir
        (pg_rounddown (pg_rounddown va + UInt32.ofNat PGSIZE + UInt32.ofNat i)) =
      walkBytes s pgdir (pg_rounddown (va + UInt32.ofNat (n + i))) := by
  have hoff : va.toNat % 4096 < 4096 := Nat.mod_lt _ (by norm_num)
  rw [next_page (n := n) (by omega) i]
  exact translate_turn hka (by omega) (by omega) hok (by omega)

/-- After a turn, the rest of the range meets the conditions. -/
theorem CopyOk.turn (hka : uva_to_ka s pgdir (pg_rounddown va) = some pa0)
    (hN : n = min (4096 - va.toNat % 4096) len) (hok : CopyOk s pgdir va len) :
    CopyOk (s.copyIn (pa0 + (va - pg_rounddown va)) f n) pgdir
      (pg_rounddown va + UInt32.ofNat PGSIZE) (len - n) := by
  constructor
  · intro i hi j hj x hxi hxj
    rw [(translate_rest hka hN hok hi).1] at hxi
    rw [(translate_rest hka hN hok hj).1] at hxj
    have := hok.inj (n + i) (by omega) (n + j) (by omega) x hxi hxj
    omega
  · intro i hi j hj x hxi
    rw [(translate_rest hka hN hok hi).1] at hxi
    rw [(translate_rest hka hN hok hj).2]
    exact hok.sep (n + i) (by omega) (n + j) (by omega) x hxi

/-- The mapped prefix of the range is the stretch of the first turn and the mapped prefix of the
rest. -/
theorem mappedPrefix_turn (hka : uva_to_ka s pgdir (pg_rounddown va) = some pa0)
    (hN : n = min (4096 - va.toNat % 4096) len) (hok : CopyOk s pgdir va len) :
    mappedPrefix s pgdir va len =
      n + mappedPrefix (s.copyIn (pa0 + (va - pg_rounddown va)) f n) pgdir
        (pg_rounddown va + UInt32.ofNat PGSIZE) (len - n) := by
  have hsplit : len = n + (len - n) := by omega
  unfold mappedPrefix
  conv_lhs => rw [hsplit]
  rw [prefixLen_add fun i hi => by rw [translate_chunk hka (by omega)]; rfl]
  apply congrArg (n + ·)
  apply prefixLen_congr
  intro i hi
  rw [(translate_rest hka hN hok hi).1]

/-- A turn, then a copy of the rest: a copy of the range. -/
theorem Copied.turn (hka : uva_to_ka s pgdir (pg_rounddown va) = some pa0)
    (hN : n = min (4096 - va.toNat % 4096) len) (hok : CopyOk s pgdir va len) {s' : VmState}
    (hrest : Copied (s.copyIn (pa0 + (va - pg_rounddown va)) f n) s' pgdir
      (pg_rounddown va + UInt32.ofNat PGSIZE) (len - n) fun i => f (n + i)) :
    Copied s s' pgdir va len f := by
  have hoff : va.toNat % 4096 < 4096 := Nat.mod_lt _ (by norm_num)
  have hmp := mappedPrefix_turn (f := f) hka hN hok
  have hmp_le := mappedPrefix_le (s.copyIn (pa0 + (va - pg_rounddown va)) f n) pgdir
    (pg_rounddown va + UInt32.ofNat PGSIZE) (len - n)
  -- a byte the rest writes is not one of the first turn
  have hnot_first : ∀ i < n, ∀ x, translate s pgdir (va + UInt32.ofNat i) = some x →
      ∀ k < mappedPrefix (s.copyIn (pa0 + (va - pg_rounddown va)) f n) pgdir
          (pg_rounddown va + UInt32.ofNat PGSIZE) (len - n),
        translate (s.copyIn (pa0 + (va - pg_rounddown va)) f n) pgdir
          (pg_rounddown va + UInt32.ofNat PGSIZE + UInt32.ofNat k) ≠ some x := by
    intro i hi x hx k hk hk'
    rw [(translate_rest hka hN hok (by omega)).1] at hk'
    have := hok.inj i (by omega) (n + k) (by omega) x hx hk'
    omega
  constructor
  · intro i hi x hx
    by_cases hin : i < n
    · -- written by the first turn, and left alone by the rest
      have hxval : x = (v2p pa0).toNat + va.toNat % 4096 + i := by
        rw [translate_chunk hka (by omega)] at hx
        exact (Option.some.inj hx).symm
      rw [hrest.frame x (hnot_first i hin x hx), copyIn_turn_mem hka, if_pos (by omega)]
      congr 1
      omega
    · -- written by the rest
      have hk : i - n < mappedPrefix (s.copyIn (pa0 + (va - pg_rounddown va)) f n) pgdir
          (pg_rounddown va + UInt32.ofNat PGSIZE) (len - n) := by omega
      have hx' := hx
      rw [show i = n + (i - n) by omega, ← (translate_rest hka hN hok (by omega)).1] at hx'
      rw [hrest.written (i - n) hk x hx']
      congr 1
      omega
  · intro x hx
    have hnone : ∀ k < mappedPrefix (s.copyIn (pa0 + (va - pg_rounddown va)) f n) pgdir
        (pg_rounddown va + UInt32.ofNat PGSIZE) (len - n),
        translate (s.copyIn (pa0 + (va - pg_rounddown va)) f n) pgdir
          (pg_rounddown va + UInt32.ofNat PGSIZE + UInt32.ofNat k) ≠ some x := by
      intro k hk hk'
      rw [(translate_rest hka hN hok (by omega)).1] at hk'
      exact hx (n + k) (by omega) hk'
    rw [hrest.frame x hnone, copyIn_turn_mem hka]
    split_ifs with hin
    · exact absurd (translate_of_mem_chunk hka (by omega) hin)
        (hx _ (by rw [hmp]; omega))
    · rfl

end TurnState

/-- A copy that writes nothing leaves a range whose first page is missing. -/
theorem Copied.of_mappedPrefix_eq_zero {s : VmState} {pgdir va : UInt32} {len : Nat}
    {f : Nat → UInt8} (h : mappedPrefix s pgdir va len = 0) : Copied s s pgdir va len f where
  written := fun i hi => absurd hi (by omega)
  frame := fun _ _ => rfl

section Loop

variable {pgdir : UInt32} {src : Nat → UInt8}

/-- A turn of the loop at a page present with `PTE_U`: it copies to the end of the page, or the
bytes left, and goes on at the next page. -/
theorem copyOutLoop_turn {fuel : Nat} {s : VmState} {va len pa0 : UInt32} {buf : Nat}
    (hlen : len ≠ 0) (hka : uva_to_ka s pgdir (pg_rounddown va) = some pa0) :
    copyOutLoop pgdir src (fuel + 1) s va len buf =
      copyOutLoop pgdir src fuel
        (s.copyIn (pa0 + (va - pg_rounddown va)) (fun j => src (buf + j))
          (min (4096 - va.toNat % 4096) len.toNat))
        (pg_rounddown va + UInt32.ofNat PGSIZE)
        (len - min (UInt32.ofNat PGSIZE - (va - pg_rounddown va)) len)
        (buf + min (4096 - va.toNat % 4096) len.toNat) := by
  rw [copyOutLoop, if_neg hlen]
  dsimp only
  rw [hka]
  dsimp only
  rw [chunk_toNat]

/-- The bytes left after a turn. -/
theorem toNat_sub_chunk (va len : UInt32) :
    (len - min (UInt32.ofNat PGSIZE - (va - pg_rounddown va)) len).toNat =
      len.toNat - min (4096 - va.toNat % 4096) len.toNat := by
  rw [UInt32.toNat_sub_of_le _ _ (UInt32.le_iff_toNat_le.mpr (by rw [chunk_toNat]; omega)),
    chunk_toNat]

/-- The loop, given a turn for each byte, is a copy of the range, and answers whether the whole
range was mapped. By induction on the turns, each a `Copied.turn`. -/
theorem copyOutLoop_spec : ∀ (fuel : Nat) (s : VmState) (va len : UInt32) (buf : Nat),
    len.toNat ≤ fuel → CopyOk s pgdir va len.toNat →
    ∃ s', copyOutLoop pgdir src fuel s va len buf =
        .ok (decide (mappedPrefix s pgdir va len.toNat = len.toNat), s') ∧
      Copied s s' pgdir va len.toNat fun i => src (buf + i) := by
  intro fuel
  induction fuel with
  | zero =>
    intro s va len buf hfuel _
    have hlen : len = 0 := UInt32.toNat_inj.mp (by simpa using hfuel)
    subst hlen
    exact ⟨s, by simp [copyOutLoop, mappedPrefix, prefixLen], Copied.of_mappedPrefix_eq_zero rfl⟩
  | succ fuel ih =>
    intro s va len buf hfuel hok
    by_cases hlen : len = 0
    · subst hlen
      exact ⟨s, by simp [copyOutLoop, mappedPrefix, prefixLen],
        Copied.of_mappedPrefix_eq_zero rfl⟩
    have hlen' : len.toNat ≠ 0 := fun h => hlen (UInt32.toNat_inj.mp h)
    cases hka : uva_to_ka s pgdir (pg_rounddown va) with
    | none =>
      -- the first page is missing: nothing is written
      have hmp : mappedPrefix s pgdir va len.toNat = 0 := by
        apply prefixLen_of_false
        simp [translate, hka]
      refine ⟨s, ?_, Copied.of_mappedPrefix_eq_zero hmp⟩
      rw [copyOutLoop, if_neg hlen]
      dsimp only
      rw [hka, hmp]
      simp [Ne.symm hlen']
    | some pa0 =>
      have hpos : 0 < min (4096 - va.toNat % 4096) len.toNat := by
        have := Nat.mod_lt va.toNat (by norm_num : 4096 > 0)
        omega
      -- the rest of the range, after the first turn
      obtain ⟨s', hrun, hcopied⟩ := ih
        (s.copyIn (pa0 + (va - pg_rounddown va)) (fun j => src (buf + j))
          (min (4096 - va.toNat % 4096) len.toNat))
        (pg_rounddown va + UInt32.ofNat PGSIZE)
        (len - min (UInt32.ofNat PGSIZE - (va - pg_rounddown va)) len)
        (buf + min (4096 - va.toNat % 4096) len.toNat)
        (by rw [toNat_sub_chunk]; omega)
        (by rw [toNat_sub_chunk]; exact CopyOk.turn hka rfl hok)
      refine ⟨s', ?_, ?_⟩
      · rw [copyOutLoop_turn hlen hka, hrun, toNat_sub_chunk,
          mappedPrefix_turn (f := fun j => src (buf + j)) hka rfl hok]
        simp only [Outcome.ok.injEq, Prod.mk.injEq, and_true]
        apply decide_eq_decide.mpr
        omega
      · rw [toNat_sub_chunk] at hcopied
        apply Copied.turn hka rfl hok
        simpa only [Nat.add_assoc] using hcopied

end Loop

/-! ## `copy_out` -/

/-- When the bytes of `[va, va + len)` translate to distinct physical bytes, none of them a byte
of an entry that the lookups read, `copy_out` answers whether every page of the range is present
with `PTE_U`, writes the translation of each byte before the first missing page, the byte `src i`
to the translation of `va + i`, and changes no other physical byte. -/
theorem copy_out_spec (s : VmState) (pgdir va : UInt32) (src : Nat → UInt8) (len : UInt32)
    (hok : CopyOk s pgdir va len.toNat) :
    ∃ b s', copy_out s pgdir va src len = .ok (b, s') ∧
      (b = true ↔ ∀ i < len.toNat, (translate s pgdir (va + UInt32.ofNat i)).isSome) ∧
      Copied s s' pgdir va len.toNat src := by
  obtain ⟨s', hrun, hcopied⟩ := @copyOutLoop_spec pgdir src len.toNat s va len 0
    (Nat.le_refl _) hok
  refine ⟨_, s', hrun, ?_, by simpa using hcopied⟩
  rw [decide_eq_true_iff]
  exact prefixLen_eq_iff

/-- Physical memory with a page directory at `0x1000`, whose first entry, user and writable, is
the page table at `0x2000` with the entries `pte0` and `pte1` for the first two pages. -/
def twoPageState (pte0 pte1 : UInt32) : VmState where
  mem := writeLE (writeLE (writeLE (fun _ => 0) 0x1000 4 0x2007) 0x2000 4 pte0.toNat) 0x2004 4
    pte1.toNat
  freelist := []
  kend := 0

/-- With the first two user pages at `0x3000` and `0x4000`, the two bytes on either side of the
page boundary meet the conditions of `copy_out_spec`. -/
theorem copyOk_across_pages :
    CopyOk (twoPageState 0x3007 0x4007) 0x80001000 0xFFF (UInt32.toNat 2) := by
  have ht : ∀ i < 2, translate (twoPageState 0x3007 0x4007) 0x80001000 (0xFFF + UInt32.ofNat i) =
      some (0x3FFF + i) := by decide
  have hw : ∀ i < 2, ∀ j < 2, ¬walkBytes (twoPageState 0x3007 0x4007) 0x80001000
      (pg_rounddown (0xFFF + UInt32.ofNat j)) (0x3FFF + i) := by
    unfold walkBytes
    decide
  constructor
  · intro i hi j hj x hxi hxj
    rw [ht i hi] at hxi
    rw [ht j hj] at hxj
    have := (Option.some.inj hxi).trans (Option.some.inj hxj).symm
    omega
  · intro i hi j hj x hxi
    rw [ht i hi] at hxi
    rw [← Option.some.inj hxi]
    exact hw i hi j hj

/-- A copy of two bytes across the boundary of those pages. -/
theorem copy_out_across_pages :
    ∃ b s', copy_out (twoPageState 0x3007 0x4007) 0x80001000 0xFFF (fun i => UInt8.ofNat i) 2 =
        .ok (b, s') ∧
      (b = true ↔ ∀ i < UInt32.toNat 2,
        (translate (twoPageState 0x3007 0x4007) 0x80001000 (0xFFF + UInt32.ofNat i)).isSome) ∧
      Copied (twoPageState 0x3007 0x4007) s' 0x80001000 0xFFF (UInt32.toNat 2)
        (fun i => UInt8.ofNat i) :=
  copy_out_spec _ _ _ _ _ copyOk_across_pages

/-- With both pages on the physical page `0x3000`, a copy of `0x2000` bytes returns `true` and
leaves at the translation of `va` the byte of the second page. -/
theorem copy_out_aliased :
    ∃ s', copy_out (twoPageState 0x3007 0x3007) 0x80001000 0 (fun i => UInt8.ofNat (i / 4096))
        0x2000 = .ok (true, s') ∧
      translate (twoPageState 0x3007 0x3007) 0x80001000 0 = some 0x3000 ∧ s'.mem 0x3000 = 1 :=
  ⟨_, rfl, by decide, by decide⟩

end Xv6
