import Mathlib
import Xv6.Lib.Outcome

/-!
# The string functions of the kernel

`strlen`, `safestrcpy`, `memcmp` and `memmove` of `string.rs`, on a byte memory whose addresses are those of the 32-bit
address space. A pointer operation whose range would leave the address space, or whose size does
not fit an `isize`, is undefined behaviour, and so is a `copy_from_nonoverlapping` whose ranges
overlap.

`safestrcpy(s, t, n)` zeroes the `n` bytes of `s`, then copies all `strlen(t)` bytes of `t`
whatever `n` is, and then puts a zero at `s[n - 1]` (`safestrcpy_eq`). A source longer than `n`
is copied past the end of the buffer (`safestrcpy_writes_past`), as `exec` does with the last
element of a path longer than the 16 bytes of a process's name.

`memcmp` scans from the last index down, so when the ranges differ it answers the difference at
the last index where they do (`memcmp_last_difference`), where C's `memcmp` answers that at the
first (`memcmp_crossed`). `memmove` picks its direction so that no source byte is overwritten
before it is read, and copies its `n` bytes for every overlap (`memmove_eq_copyBytes`).
-/

namespace Xv6.Str

open Machine

/-- `strlen`: the number of bytes before the first zero byte from `s`. -/
def strlen (mem : Nat → UInt8) (s : Nat) : Outcome Nat :=
  Outcome.countWhile (fun i => pure (mem (s + i) != 0)) (2 ^ 32 - s) 0

/-- `write_bytes(b, n)` at `p`: the `n` bytes from `p` set to `b`. -/
def fillBytes (mem : Nat → UInt8) (p n : Nat) (b : UInt8) : Nat → UInt8 :=
  fun x => if p ≤ x ∧ x < p + n then b else mem x

theorem fillBytes_eq (mem : Nat → UInt8) (p n : Nat) (b : UInt8) (x : Nat) :
    fillBytes mem p n b x = if p ≤ x ∧ x < p + n then b else mem x := rfl

/-- `copy_from_nonoverlapping(src, n)` at `dst`: the `n` bytes from `src` copied to `dst`. -/
def copyBytes (mem : Nat → UInt8) (dst src n : Nat) : Nat → UInt8 :=
  fun x => if dst ≤ x ∧ x < dst + n then mem (src + (x - dst)) else mem x

theorem copyBytes_eq (mem : Nat → UInt8) (dst src n x : Nat) :
    copyBytes mem dst src n x = if dst ≤ x ∧ x < dst + n then mem (src + (x - dst)) else mem x := rfl

/-- A range of `n` bytes from `p` that a pointer operation may cover: its size fits an `isize`
and it stays in the address space. -/
def fits (p n : Nat) : Bool := n < 2 ^ 31 && p + n ≤ 2 ^ 32

/-- The two ranges of `n` bytes from `p` and from `q` overlap. -/
def overlap (p q n : Nat) : Bool := 0 < n && p < q + n && q < p + n

/-- `safestrcpy`: zero the `n` bytes of `s`, copy the `strlen(t)` bytes of `t` to `s`, and put a
zero at `s[n - 1]`, with `n - 1` computed in `usize`. -/
def safestrcpy (mem : Nat → UInt8) (s t n : UInt32) : Outcome (Nat → UInt8) :=
  if !fits s.toNat n.toNat then .ub
  else do
    let mem := fillBytes mem s.toNat n.toNat 0
    let len ← strlen mem t.toNat
    if !fits s.toNat len || overlap s.toNat t.toNat len then .ub
    else
      let mem := copyBytes mem s.toNat t.toNat len
      -- the store through `s.add(n - 1)`
      if !fits s.toNat ((n - 1).toNat + 1) then .ub
      else pure (Function.update mem (s.toNat + (n - 1).toNat) 0)

/-! ## `strlen` -/

/-- `strlen` ends at `n` exactly when the `n` bytes from `s` are not zero, the byte after them
is, and the loop stays in the address space. -/
theorem strlen_eq_ok {mem : Nat → UInt8} {s n : Nat} :
    strlen mem s = .ok n ↔ s + n < 2 ^ 32 ∧ (∀ j < n, mem (s + j) ≠ 0) ∧ mem (s + n) = 0 := by
  rw [strlen, Outcome.countWhile_eq_ok]
  simp only [Outcome.pure_eq, Outcome.ok.injEq, bne_iff_ne, bne_eq_false_iff_eq, Nat.zero_le,
    true_and, true_implies, Nat.zero_add]
  constructor
  · rintro ⟨hlt, hall, hend⟩
    exact ⟨by omega, hall, hend⟩
  · rintro ⟨hlt, hall, hend⟩
    exact ⟨by omega, hall, hend⟩

/-- `strlen` reads only the bytes up to the terminator. -/
theorem strlen_congr {mem mem' : Nat → UInt8} {s n : Nat} (h : strlen mem s = .ok n)
    (hsame : ∀ j ≤ n, mem' (s + j) = mem (s + j)) : strlen mem' s = .ok n := by
  obtain ⟨hlt, hall, hend⟩ := strlen_eq_ok.mp h
  refine strlen_eq_ok.mpr ⟨hlt, fun j hj => ?_, ?_⟩
  · rw [hsame j (Nat.le_of_lt hj)]
    exact hall j hj
  · rw [hsame n (Nat.le_refl n)]
    exact hend

/-! ## `safestrcpy` -/

section Copy

variable {mem : Nat → UInt8} {s t n : UInt32} {L : Nat}

/-- What `safestrcpy` does when it is defined for `n ≥ 1`: the destination zeroed, the whole
source copied over it, and a zero at `s[n - 1]`. The source is the string of `L` bytes at `t`,
whose bytes and terminator lie outside the destination's `n` bytes. -/
theorem safestrcpy_eq (hn : 1 ≤ n.toNat) (hfit : fits s.toNat n.toNat = true)
    (hstr : strlen mem t.toNat = .ok L) (hfitL : fits s.toNat L = true)
    (hov : overlap s.toNat t.toNat L = false)
    (hsep : t.toNat + L < s.toNat ∨ s.toNat + n.toNat ≤ t.toNat) :
    safestrcpy mem s t n = .ok (Function.update
      (copyBytes (fillBytes mem s.toNat n.toNat 0) s.toNat t.toNat L)
      (s.toNat + (n.toNat - 1)) 0) := by
  -- zeroing the destination leaves the source's bytes alone
  have hstr' : strlen (fillBytes mem s.toNat n.toNat 0) t.toNat = .ok L :=
    strlen_congr hstr fun j hj => by
      simp only [fillBytes_eq]
      rw [if_neg (by omega)]
  -- `n - 1` does not wrap
  have hsub : (n - 1).toNat = n.toNat - 1 := by
    rw [UInt32.toNat_sub_of_le _ _ (UInt32.le_iff_toNat_le.mpr (show (1 : UInt32).toNat ≤ n.toNat from hn))]
    rfl
  have hlast : n.toNat - 1 + 1 = n.toNat := by omega
  simp only [safestrcpy, hfit, hstr', hfitL, hov, hsub, hlast, Bool.not_true, Bool.false_or,
    Bool.false_eq_true, ↓reduceIte, Outcome.ok_bind, Outcome.pure_eq]

/-- A source of `L` bytes is copied whole, past the end of the destination when `L > n`: byte `k`
of the source lands at `s + k` for every `k` from `n` to `L`. -/
theorem safestrcpy_writes_past (hn : 1 ≤ n.toNat) (hfit : fits s.toNat n.toNat = true)
    (hstr : strlen mem t.toNat = .ok L) (hfitL : fits s.toNat L = true)
    (hov : overlap s.toNat t.toNat L = false)
    (hsep : t.toNat + L < s.toNat ∨ s.toNat + n.toNat ≤ t.toNat) :
    ∃ mem', safestrcpy mem s t n = .ok mem' ∧
      ∀ k, n.toNat ≤ k → k < L → mem' (s.toNat + k) = mem (t.toNat + k) := by
  refine ⟨_, safestrcpy_eq hn hfit hstr hfitL hov hsep, fun k hk hkL => ?_⟩
  -- `s + k` is past the final zero, inside the copy, and reads a byte the zeroing left alone
  have hne : s.toNat + k ≠ s.toNat + (n.toNat - 1) := by omega
  have hsrc : ¬ (s.toNat ≤ t.toNat + k ∧ t.toNat + k < s.toNat + n.toNat) := by omega
  simp only [Function.update_of_ne hne, copyBytes_eq, fillBytes_eq]
  rw [if_pos (by omega), Nat.add_sub_cancel_left, if_neg hsrc]

/-- A memory holding, at `0x2000`, the last element of a path: twenty bytes `'a'` and a zero. -/
def longName : Nat → UInt8 := fun x => if 0x2000 ≤ x ∧ x < 0x2014 then 0x61 else 0

/-- `exec` copies that element into the 16-byte name of a process at `0x1000`: the byte after the
name, zero before, receives an `'a'`. -/
theorem safestrcpy_writes_past_name :
    ∃ mem', safestrcpy longName 0x1000 0x2000 16 = .ok mem' ∧ mem' 0x1010 = 0x61 ∧
      longName 0x1010 = 0 := by
  obtain ⟨mem', hrun, hpast⟩ := @safestrcpy_writes_past longName 0x1000 0x2000 16 20
    (by decide) (by decide)
    (strlen_eq_ok.mpr ⟨by decide, by decide, by decide⟩) (by decide) (by decide) (by decide)
  exact ⟨mem', hrun, hpast 16 (by decide) (by decide), by decide⟩

end Copy

/-! ## `memcmp` -/

/-- The loop of `memcmp` over the indices below `i`, from `i - 1` down: the difference of the
first pair of bytes it finds differing, or zero. -/
def memcmpLoop (mem : Nat → UInt8) (s1 s2 : Nat) : Nat → Int
  | 0 => 0
  | i + 1 =>
    let a := mem (s1 + i)
    let b := mem (s2 + i)
    if a != b then (a.toNat : Int) - b.toNat else memcmpLoop mem s1 s2 i

theorem memcmpLoop_zero (mem : Nat → UInt8) (s1 s2 : Nat) : memcmpLoop mem s1 s2 0 = 0 := rfl

theorem memcmpLoop_succ (mem : Nat → UInt8) (s1 s2 i : Nat) :
    memcmpLoop mem s1 s2 (i + 1) =
      if mem (s1 + i) != mem (s2 + i) then ((mem (s1 + i)).toNat : Int) - (mem (s2 + i)).toNat
      else memcmpLoop mem s1 s2 i := rfl

/-- `memcmp`: compare the `n` bytes from `s1` with the `n` bytes from `s2`, the last index
first, as the Rust port's `(0..n).rev()` does. -/
def memcmp (mem : Nat → UInt8) (s1 s2 n : UInt32) : Outcome Int :=
  if !fits s1.toNat n.toNat || !fits s2.toNat n.toNat then .ub
  else pure (memcmpLoop mem s1.toNat s2.toNat n.toNat)

section Memcmp

variable {mem : Nat → UInt8} {s1 s2 : Nat}

/-- The loop answers zero exactly when the bytes below `i` agree. -/
theorem memcmpLoop_eq_zero_iff (i : Nat) :
    memcmpLoop mem s1 s2 i = 0 ↔ ∀ k < i, mem (s1 + k) = mem (s2 + k) := by
  induction i with
  | zero => simp [memcmpLoop_zero]
  | succ i ih =>
    by_cases hi : mem (s1 + i) = mem (s2 + i)
    · -- the byte at `i` agrees: the answer is that of the bytes below it
      have hstep : memcmpLoop mem s1 s2 (i + 1) = memcmpLoop mem s1 s2 i := by
        simp [memcmpLoop_succ, hi]
      rw [hstep, ih]
      constructor
      · intro hall k hk
        rcases Nat.lt_succ_iff_lt_or_eq.mp hk with hlt | rfl
        · exact hall k hlt
        · exact hi
      · intro hall k hk
        exact hall k (Nat.lt_succ_of_lt hk)
    · -- the byte at `i` differs: a non-zero difference, and not every byte agrees
      have hval : (mem (s1 + i)).toNat ≠ (mem (s2 + i)).toNat := fun h =>
        hi (UInt8.toNat_inj.mp h)
      have hstep : memcmpLoop mem s1 s2 (i + 1) =
          ((mem (s1 + i)).toNat : Int) - (mem (s2 + i)).toNat := by
        simp [memcmpLoop_succ, hi]
      rw [hstep]
      constructor
      · intro h
        omega
      · intro hall
        exact absurd (hall i (Nat.lt_succ_self i)) hi

/-- The loop answers the difference at the highest index below `i` where the bytes differ. -/
theorem memcmpLoop_of_last {i k : Nat} (hk : k < i) (hne : mem (s1 + k) ≠ mem (s2 + k))
    (habove : ∀ j, k < j → j < i → mem (s1 + j) = mem (s2 + j)) :
    memcmpLoop mem s1 s2 i = ((mem (s1 + k)).toNat : Int) - (mem (s2 + k)).toNat := by
  induction i with
  | zero => omega
  | succ i ih =>
    rcases Nat.lt_succ_iff_lt_or_eq.mp hk with hlt | rfl
    · -- the byte at `i` lies above `k`, agrees, and the loop goes on down
      have hi : mem (s1 + i) = mem (s2 + i) := habove i hlt (Nat.lt_succ_self i)
      have hstep : memcmpLoop mem s1 s2 (i + 1) = memcmpLoop mem s1 s2 i := by
        simp [memcmpLoop_succ, hi]
      rw [hstep]
      exact ih hlt fun j hkj hji => habove j hkj (Nat.lt_succ_of_lt hji)
    · simp [memcmpLoop_succ, hne]

end Memcmp

/-- What `memcmp` answers on two ranges that it may read: zero exactly when they agree, and
otherwise the difference of the bytes at the last index where they differ. -/
theorem memcmp_last_difference (mem : Nat → UInt8) (s1 s2 n : UInt32)
    (h1 : fits s1.toNat n.toNat = true) (h2 : fits s2.toNat n.toNat = true) :
    ∃ v, memcmp mem s1 s2 n = .ok v ∧
      (v = 0 ↔ ∀ k < n.toNat, mem (s1.toNat + k) = mem (s2.toNat + k)) ∧
      ∀ k < n.toNat, mem (s1.toNat + k) ≠ mem (s2.toNat + k) →
        (∀ j, k < j → j < n.toNat → mem (s1.toNat + j) = mem (s2.toNat + j)) →
        v = ((mem (s1.toNat + k)).toNat : Int) - (mem (s2.toNat + k)).toNat := by
  refine ⟨memcmpLoop mem s1.toNat s2.toNat n.toNat, ?_, memcmpLoop_eq_zero_iff n.toNat,
    fun k hk hne habove => memcmpLoop_of_last hk hne habove⟩
  simp [memcmp, h1, h2]

/-- Two byte strings at `0` and at `2` that differ at both of their indices, in opposite
orders: `1, 2` and `2, 1`. -/
def crossedBytes : Nat → UInt8 := fun x => if x = 1 ∨ x = 2 then 2 else if x = 3 then 1 else
  if x = 0 then 1 else 0

/-- `memcmp` of the two answers `1`, the sign of their last bytes `2 - 1`, where C's `memcmp`
answers the sign of their first bytes `1 - 2`. -/
theorem memcmp_crossed : memcmp crossedBytes 0 2 2 = .ok 1 ∧ crossedBytes 0 < crossedBytes 2 := by
  obtain ⟨v, hrun, -, hlast⟩ := memcmp_last_difference crossedBytes 0 2 2 (by decide) (by decide)
  have hv : v = 1 := hlast 1 (by decide) (by decide) fun j h1 h2 => by
    have : (2 : UInt32).toNat = 2 := rfl
    omega
  exact ⟨hv ▸ hrun, by decide⟩

/-! ## `memmove` -/

/-- The backward loop of `memmove`: the `n` bytes below `s` copied to the `n` bytes below `d`,
the last one first, both addresses stepped down in `usize`. -/
def memmoveBack (mem : Nat → UInt8) (s d : UInt32) : Nat → Nat → UInt8
  | 0 => mem
  | n + 1 =>
    let d := d - 1
    let s := s - 1
    memmoveBack (Function.update mem d.toNat (mem s.toNat)) s d n

/-- The forward loop of `memmove`: the `n` bytes from `s` copied to the `n` bytes from `d`, the
first one first, both addresses stepped up in `usize`. -/
def memmoveFwd (mem : Nat → UInt8) (s d : UInt32) : Nat → Nat → UInt8
  | 0 => mem
  | n + 1 => memmoveFwd (Function.update mem d.toNat (mem s.toNat)) (s + 1) (d + 1) n

/-- `memmove`: copy backward from the ends when the source starts below the destination and
runs into it, and forward otherwise; the sums are `usize` sums. -/
def memmove (mem : Nat → UInt8) (dst src n : UInt32) : Nat → UInt8 :=
  if src < dst ∧ src + n > dst then memmoveBack mem (src + n) (dst + n) n.toNat
  else memmoveFwd mem src dst n.toNat

section Memmove

variable {mem : Nat → UInt8}

/-- A first byte copied, then the `n` after it: the copy of `n + 1` bytes, when the write of
the first byte is not a byte still to be read. -/
theorem copyBytes_update_first {d s n : Nat} (hdir : d ≤ s ∨ s + (n + 1) ≤ d) :
    copyBytes (Function.update mem d (mem s)) (d + 1) (s + 1) n = copyBytes mem d s (n + 1) := by
  funext x
  simp only [copyBytes_eq, Function.update_apply]
  by_cases hx : d ≤ x ∧ x < d + (n + 1)
  · rw [if_pos hx]
    by_cases hd : x = d
    · -- the first byte, written before the loop goes on
      subst hd
      rw [if_neg (by omega), if_pos rfl, Nat.sub_self, Nat.add_zero]
    · -- a later byte: its source is not the first byte's destination
      rw [if_pos (show d + 1 ≤ x ∧ x < d + 1 + n by omega), if_neg (show s + 1 + (x - (d + 1)) ≠ d by omega)]
      congr 1
      omega
  · rw [if_neg (show ¬(d + 1 ≤ x ∧ x < d + 1 + n) by omega), if_neg hx, if_neg (show x ≠ d by omega)]

/-- The last byte copied, then the `n` below it: the copy of `n + 1` bytes, when the source does
not start above the destination. -/
theorem copyBytes_update_last {d s n : Nat} (hdir : s ≤ d) :
    copyBytes (Function.update mem (d + n) (mem (s + n))) d s n = copyBytes mem d s (n + 1) := by
  funext x
  simp only [copyBytes_eq, Function.update_apply]
  by_cases hx : d ≤ x ∧ x < d + n
  · -- a byte below the last: its source lies below the last byte's destination
    rw [if_pos hx, if_neg (show s + (x - d) ≠ d + n by omega),
      if_pos (show d ≤ x ∧ x < d + (n + 1) by omega)]
  · by_cases hd : x = d + n
    · subst hd
      rw [if_neg hx, if_pos rfl, if_pos (show d ≤ d + n ∧ d + n < d + (n + 1) by omega)]
      congr 1
      omega
    · rw [if_neg hx, if_neg hd, if_neg (show ¬(d ≤ x ∧ x < d + (n + 1)) by omega)]

/-- The forward loop is the copy of its `n` bytes when the destination does not start inside
the source: every byte is read before it could be overwritten. -/
theorem memmoveFwd_eq (n : Nat) {s d : Nat} (hs : s + n ≤ 2 ^ 32) (hd : d + n ≤ 2 ^ 32)
    (hdir : d ≤ s ∨ s + n ≤ d) :
    memmoveFwd mem (UInt32.ofNat s) (UInt32.ofNat d) n = copyBytes mem d s n := by
  induction n generalizing mem s d with
  | zero =>
    funext x
    simp [memmoveFwd, copyBytes_eq]
  | succ n ih =>
    have hs' : (UInt32.ofNat s).toNat = s := by
      rw [UInt32.toNat_ofNat']
      exact Nat.mod_eq_of_lt (by omega)
    have hd' : (UInt32.ofNat d).toNat = d := by
      rw [UInt32.toNat_ofNat']
      exact Nat.mod_eq_of_lt (by omega)
    rw [memmoveFwd, hs', hd', ← UInt32.ofNat_one, ← UInt32.ofNat_add, ← UInt32.ofNat_add,
      ih (by omega) (by omega) (by omega)]
    exact copyBytes_update_first hdir

/-- The backward loop, from the ends of the two ranges, is the copy of its `n` bytes when the
source does not start above the destination. -/
theorem memmoveBack_eq (n : Nat) {s d : Nat} (hdir : s ≤ d) (hd : d + n ≤ 2 ^ 32) :
    memmoveBack mem (UInt32.ofNat (s + n)) (UInt32.ofNat (d + n)) n = copyBytes mem d s n := by
  induction n generalizing mem with
  | zero =>
    funext x
    simp [memmoveBack, copyBytes_eq]
  | succ n ih =>
    -- stepping an end down by one, in `usize`, is the end of the range one byte shorter
    have hdown : ∀ p, p + n < 2 ^ 32 → UInt32.ofNat (p + (n + 1)) - 1 = UInt32.ofNat (p + n) := by
      intro p hp
      rw [show p + (n + 1) = p + n + 1 by omega, UInt32.ofNat_add, UInt32.ofNat_one,
        UInt32.add_sub_cancel]
    have hlast : ∀ p, p + n < 2 ^ 32 → (UInt32.ofNat (p + n)).toNat = p + n := by
      intro p hp
      rw [UInt32.toNat_ofNat']
      exact Nat.mod_eq_of_lt hp
    rw [memmoveBack, hdown s (by omega), hdown d (by omega), hlast s (by omega),
      hlast d (by omega), ih (by omega)]
    exact copyBytes_update_last hdir

/-- `memmove` copies its `n` bytes, whatever the overlap, for two ranges in the address space. -/
theorem memmove_eq_copyBytes {dst src n : UInt32} (hd : dst.toNat + n.toNat ≤ 2 ^ 32)
    (hs : src.toNat + n.toNat ≤ 2 ^ 32) :
    memmove mem dst src n = copyBytes mem dst.toNat src.toNat n.toNat := by
  have hsum : (src + n).toNat = (src.toNat + n.toNat) % 2 ^ 32 := UInt32.toNat_add src n
  unfold memmove
  split_ifs with hback
  · -- the source runs into the destination from below: neither end wraps
    obtain ⟨hlt, -⟩ := hback
    rw [UInt32.lt_iff_toNat_lt] at hlt
    have hsrc : src + n = UInt32.ofNat (src.toNat + n.toNat) := by
      rw [UInt32.ofNat_add, UInt32.ofNat_toNat, UInt32.ofNat_toNat]
    have hdst : dst + n = UInt32.ofNat (dst.toNat + n.toNat) := by
      rw [UInt32.ofNat_add, UInt32.ofNat_toNat, UInt32.ofNat_toNat]
    rw [hsrc, hdst]
    exact memmoveBack_eq n.toNat (Nat.le_of_lt hlt) hd
  · -- otherwise the destination does not start inside the source
    have hdir : dst.toNat ≤ src.toNat ∨ src.toNat + n.toNat ≤ dst.toNat := by
      rw [not_and_or, UInt32.lt_iff_toNat_lt, gt_iff_lt, UInt32.lt_iff_toNat_lt, hsum] at hback
      omega
    have hfwd : memmoveFwd mem (UInt32.ofNat src.toNat) (UInt32.ofNat dst.toNat) n.toNat = _ :=
      memmoveFwd_eq n.toNat hs hd hdir
    rwa [UInt32.ofNat_toNat, UInt32.ofNat_toNat] at hfwd

end Memmove

/-- `memmove` of `n` bytes between two ranges of the address space, overlapping or not: the `n`
bytes from `dst` are then the `n` bytes that were at `src`, and every other byte is as it was. -/
theorem memmove_copies (mem : Nat → UInt8) (dst src n : UInt32)
    (hd : dst.toNat + n.toNat ≤ 2 ^ 32) (hs : src.toNat + n.toNat ≤ 2 ^ 32) :
    (∀ k < n.toNat, memmove mem dst src n (dst.toNat + k) = mem (src.toNat + k)) ∧
      ∀ x, x < dst.toNat ∨ dst.toNat + n.toNat ≤ x → memmove mem dst src n x = mem x := by
  rw [memmove_eq_copyBytes hd hs]
  constructor
  · intro k hk
    simp only [copyBytes_eq]
    rw [if_pos (by omega), Nat.add_sub_cancel_left]
  · intro x hx
    simp only [copyBytes_eq]
    rw [if_neg (by omega)]

/-- The bytes `0, 1, 2, ...` of a memory whose byte at `x` is `x` modulo `256`. -/
def countingBytes : Nat → UInt8 := fun x => UInt8.ofNat x

/-- Four bytes moved up by two, onto their own last two: the backward copy. -/
theorem memmove_up_two :
    (∀ k < (4 : UInt32).toNat, memmove countingBytes 2 0 4 ((2 : UInt32).toNat + k) =
      countingBytes ((0 : UInt32).toNat + k)) ∧
      ∀ x, x < (2 : UInt32).toNat ∨ (2 : UInt32).toNat + (4 : UInt32).toNat ≤ x →
        memmove countingBytes 2 0 4 x = countingBytes x :=
  memmove_copies countingBytes 2 0 4 (by decide) (by decide)

end Xv6.Str
