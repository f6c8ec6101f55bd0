import Mathlib
import Xv6.KvmSetup
import Xv6.UvmDealloc

/-!
# `uvm_copy`

`uvm_copy` makes the child's page table for `fork`: a new directory from `kvm_setup`, then, for
each user page below `size`, a fresh page holding a copy of the parent's, mapped at the same
address with the parent's flags. When no page can be had for a copy, the code calls
`vm_free(pgdir)` and returns none; `pgdir` is the parent's directory, not the child's `dir`.

`uvm_copy_frees_parent` follows that path. A free list that `kvm_setup` uses up leaves no page for
the first copy, and `uvm_copy` then frees the parent's page tables and directory, fills the
directory with junk, and keeps none of the 65 pages the child's table took: they are neither free
nor reachable from a directory. `uvm_copy_frees_parent_twoPages` is that run on `twoPages`.
-/

namespace Xv6

open Machine

/-- `core::ptr::copy_nonoverlapping(src, dst, count)` between kernel addresses: the `count`
bytes from `dst` take the values of those from `src`. -/
def copy_nonoverlapping (s : VmState) (src dst : UInt32) (count : Nat) : VmState :=
  { s with mem := fun x =>
      if (v2p dst).toNat ≤ x ∧ x < (v2p dst).toNat + count then
        s.mem (x - (v2p dst).toNat + (v2p src).toNat)
      else s.mem x }

/-- The closure that `uvm_copy` gives to `kalloc().and_then`: copy the page at the physical
address `pa` into the new page and map it at `i` in `dir` with `flags`; when `map_pages` fails,
free the new page. Whether a page was mapped. -/
def copyPage (s : VmState) (dir i pa flags : UInt32) : Outcome (Bool × VmState) :=
  match kalloc s with
  | (none, s) => pure (false, s)
  | (some mem, s) => do
    let s := copy_nonoverlapping s (p2v pa) mem PGSIZE
    let (ok, s) ← map_pages s dir i (UInt32.ofNat PGSIZE) (v2p mem) flags
    if ok then pure (true, s)
    else do
      let s ← kfree s mem
      pure (false, s)

/-- The loop of `uvm_copy` over the user pages `is` of the parent's directory `pgdir`, into the
child's `dir`: a page without a page table or without a present entry panics; when a page cannot
be copied, free `pgdir` and return none. -/
def copyLoop (pgdir dir : UInt32) : List UInt32 → VmState → Outcome (Option UInt32 × VmState)
  | [], s => pure (some dir, s)
  | i :: rest, s =>
    match walk_pgdir s pgdir i false with
    | (none, _) => .panic "uvm_copy: pte should exist"
    | (some pte, s) =>
      if !(s.load pte).isPresent then .panic "uvm_copy: page not present"
      else do
        let (success, s) ← copyPage s dir i (s.load pte).address (s.load pte).flags
        if success then copyLoop pgdir dir rest s
        else do
          let s ← vm_free s pgdir
          pure (none, s)

/-- `uvm_copy`: the child's page table for the parent's directory `pgdir` of `size` bytes; `data`
is the address of the kernel's data, which `kvm_setup` maps. -/
def uvm_copy (s : VmState) (data pgdir size : UInt32) : Outcome (Option UInt32 × VmState) := do
  let (dir, s) ← kvm_setup s data
  match dir with
  | none => pure (none, s)
  | some dir => copyLoop pgdir dir (stepRange 0 size) s

/-! ## The failure path -/

section Failure

variable {s : VmState} {pgdir dir : UInt32}

/-- With the free list empty, the copy of a page fails and changes nothing. -/
theorem copyPage_of_empty (h : s.freelist = []) (i pa flags : UInt32) :
    copyPage s dir i pa flags = .ok (false, s) := by
  unfold copyPage kalloc
  rw [h]
  rfl

/-- A turn of the loop at a page the parent maps, with the free list empty: `vm_free` of the
parent's directory, and none. -/
theorem copyLoop_of_empty {i : UInt32} {rest : List UInt32} (hp : (s.pde pgdir i).isPresent = true)
    (he : (s.load (s.slot pgdir i)).isPresent = true) (h : s.freelist = []) :
    copyLoop pgdir dir (i :: rest) s = (do
      let s ← vm_free s pgdir
      pure (none, s)) := by
  rw [copyLoop, walk_pgdir_of_present false hp]
  dsimp only
  rw [if_neg (by simp [he]), copyPage_of_empty h, Outcome.ok_bind]
  rfl

/-- Two page-aligned addresses of one page are equal. -/
theorem eq_of_page_eq {a b : UInt32} (ha : a.toNat % PGSIZE = 0) (hb : b.toNat % PGSIZE = 0)
    (h : a.toNat / PGSIZE = b.toNat / PGSIZE) : a = b := by
  apply UInt32.toNat_inj.mp
  unfold PGSIZE at *
  omega

/-- The pages of a directory and of its page tables are none of a fit free list's. -/
theorem FreeOk.not_tablePages (hf : FreeOk s pgdir) (hd : DirOk s pgdir) {f : UInt32}
    (hm : f ∈ s.freelist) {x : Nat} (hx : TablePages s pgdir (x / PGSIZE)) :
    x / PGSIZE ≠ (v2p f).toNat / PGSIZE := by
  intro heq
  rcases hx with h | ⟨y, hy, h⟩
  · exact hf.ne_dir f hm (eq_of_page_eq (hf.aligned f hm) hd.aligned (heq.symm.trans h))
  · exact hf.ne_table f hm y hy
      (eq_of_page_eq (table_aligned s pgdir y) (hf.aligned f hm) (h.symm.trans heq))

/-- When `kvm_setup` takes the last free pages, the copy of the parent's first page finds none,
and `uvm_copy` returns none after `vm_free` of the parent's directory rather than the child's:
the free list then holds exactly the parent's directory and page tables, and none of the 65 pages
the child's table took, and every entry of the parent's directory is junk. -/
theorem uvm_copy_frees_parent {data size : UInt32} (hdata : data.toNat % PGSIZE = 0)
    (htext : KERNLINK < data.toNat) (hphys : data.toNat < KERNBASE + PHYSTOP)
    (hfree : FreeOk s pgdir) (hlen : s.freelist.length = 65) (hparent : Freeable s pgdir)
    (hsize : 0 < size.toNat) (hmapped : s.mapped pgdir 0 = true) :
    ∃ s', uvm_copy s data pgdir size = .ok (none, s') ∧
      s'.freelist = pgdir :: (dirTables s pgdir).reverse ∧
      ∀ x, s'.pde pgdir x = ⟨0x01010101⟩ := by
  obtain ⟨d, rest, hl⟩ : ∃ d rest, s.freelist = d :: rest := by
    cases h : s.freelist with
    | nil =>
      rw [h] at hlen
      cases hlen
    | cons d rest => exact ⟨d, rest, rfl⟩
  have hrest : rest.length = 64 := by
    rw [hl, List.length_cons] at hlen
    omega
  obtain ⟨s1, hsetup, hfl1, -, hmem1, hk1⟩ := kvm_setup_spec hdata htext hphys hl (by omega)
    hfree.aligned hfree.nodup
  have hempty : s1.freelist = [] := by
    rw [hfl1]
    exact List.drop_eq_nil_of_le (by omega)
  -- `kvm_setup` writes only free pages, and the parent's are none of them
  have hkeep : ∀ x, TablePages s pgdir (x / PGSIZE) → s1.mem x = s.mem x :=
    fun x hx => hmem1 x fun f hf => hfree.not_tablePages hparent.dir hf hx
  have hpde1 : ∀ y, s1.pde pgdir y = s.pde pgdir y :=
    VmState.pde_eq_of_mem hparent.dir.aligned fun x hx => hkeep x (.inl hx)
  -- the first page is still mapped in the parent
  have hp0 : (s1.pde pgdir 0).isPresent = true := by
    rw [hpde1]
    exact VmState.isPresent_of_mapped hmapped
  have he0 : (s1.load (s1.slot pgdir 0)).isPresent = true := by
    have hm1 : s1.mapped pgdir 0 = true := by
      rw [VmState.mapped, VmState.entry_eq_of_mem hparent.dir.aligned hkeep 0]
      exact hmapped
    obtain ⟨e, he, hep⟩ := VmState.mapped_iff.mp hm1
    rw [VmState.entry, if_pos hp0] at he
    rw [Option.some.inj he]
    exact hep
  obtain ⟨rest', hrange⟩ := stepRange_of_lt (UInt32.lt_iff_toNat_lt.mpr hsize :
    (0 : UInt32) < size)
  obtain ⟨s2, hfree2, hfl2, hpde2⟩ := vm_free_spec (hparent.of_mem hkeep hk1)
  refine ⟨s2, ?_, ?_, hpde2⟩
  · rw [uvm_copy, hsetup, Outcome.ok_bind]
    dsimp only
    rw [hrange, copyLoop_of_empty hp0 he0 hempty, hfree2]
    rfl
  · have htables : dirTables s1 pgdir = dirTables s pgdir := by
      unfold dirTables
      exact List.filterMap_congr fun i hi => tableAt_congr hpde1 (List.mem_range.mp hi)
    rw [hfl2, hempty, List.append_nil, htables]

end Failure

/-! ## The run on `twoPages` -/

/-- The words of `twoPages`'s page table: its pages `0x3000` and `0x4000`, then nulls. -/
theorem twoPages_table {j : Nat} (hj : j < 1024) :
    readLE twoPages.mem (0x2000 + 4 * j) 4 =
      if j = 0 then 0x3007 else if j = 1 then 0x4007 else 0 := by
  rcases j with _ | _ | j
  · decide
  · decide
  · rw [readLE_twoPages_of_gap (by omega), if_neg (by omega), if_neg (by omega)]

/-- The entries of `twoPages`: its two user pages in the first 4 MB, and nothing else. -/
theorem twoPages_entry (x : UInt32) :
    twoPages.entry (p2v 0x1000) x = if x.toNat / 2 ^ 22 = 0 then
      some (if x.toNat / 4096 = 0 then ⟨0x3007⟩ else if x.toNat / 4096 = 1 then ⟨0x4007⟩
        else PTE.NULL)
    else none := by
  by_cases h0 : x.toNat / 2 ^ 22 = 0
  · have hslot : (v2p (twoPages.slot (p2v 0x1000) x)).toNat = 0x2000 + 4 * (x.toNat / 4096) := by
      unfold VmState.slot
      rw [twoPages_pde, if_pos h0, slotAddr_toNat (by decide)]
      have haddr : (PTE.address ⟨0x2007⟩).toNat = 0x2000 := by decide
      rw [haddr]
      omega
    rw [VmState.entry, twoPages_pde, if_pos h0, if_pos (by decide), if_pos h0, VmState.load,
      hslot, twoPages_table (by omega)]
    split_ifs <;> rfl
  · rw [VmState.entry_of_absent (by rw [twoPages_pde, if_neg h0]; decide), if_neg h0]

/-- `twoPages` with 65 free pages, from the physical page `0x100000` up. -/
def forkTwoPages : VmState :=
  { twoPages with
    freelist := (List.range 65).map fun j => p2v (UInt32.ofNat (0x100000 + j * PGSIZE)) }

/-- The free pages of `forkTwoPages`, by their physical addresses. -/
theorem forkTwoPages_free {f : UInt32} (hf : f ∈ forkTwoPages.freelist) :
    ∃ j < 65, (v2p f).toNat = 0x100000 + j * PGSIZE := by
  obtain ⟨j, hj, rfl⟩ := List.mem_map.mp hf
  have hj' := List.mem_range.mp hj
  refine ⟨j, hj', ?_⟩
  rw [v2p_p2v, UInt32.toNat_ofNat']
  unfold PGSIZE
  omega

set_option maxRecDepth 20000 in
/-- `fork` of `twoPages` when `kvm_setup` takes all 65 free pages: `uvm_copy` returns none with
the parent's directory and page table on the free list, and the child's 65 pages nowhere. -/
theorem uvm_copy_frees_parent_twoPages :
    FreeOk forkTwoPages (p2v 0x1000) ∧ forkTwoPages.freelist.length = 65 ∧
      Freeable forkTwoPages (p2v 0x1000) ∧ forkTwoPages.mapped (p2v 0x1000) 0 = true ∧
      ∃ s', uvm_copy forkTwoPages 0x80108000 (p2v 0x1000) 8192 = .ok (none, s') ∧
        s'.freelist = [p2v 0x1000, p2v 0x2000] := by
  -- `forkTwoPages` has the memory, hence the page table, of `twoPages`
  have hD : (v2p (p2v 0x1000)).toNat % PGSIZE = 0 := by decide
  have hpde : ∀ x, forkTwoPages.pde (p2v 0x1000) x = twoPages.pde (p2v 0x1000) x :=
    VmState.pde_eq_of_mem hD fun _ _ => rfl
  have hentry : ∀ x, forkTwoPages.entry (p2v 0x1000) x = twoPages.entry (p2v 0x1000) x :=
    VmState.entry_eq_of_mem hD fun _ _ => rfl
  have htable : ∀ x, (forkTwoPages.pde (p2v 0x1000) x).isPresent = true →
      forkTwoPages.pde (p2v 0x1000) x = ⟨0x2007⟩ := by
    intro x hx
    rw [hpde] at hx ⊢
    rw [twoPages_pde, if_pos (twoPages_present hx)]
  have hfree : FreeOk forkTwoPages (p2v 0x1000) :=
    { aligned := fun f hf => by
        obtain ⟨j, _, h⟩ := forkTwoPages_free hf
        rw [h]
        unfold PGSIZE
        omega
      ne_dir := fun f hf heq => by
        obtain ⟨j, _, h⟩ := forkTwoPages_free hf
        have hdir : (v2p (p2v 0x1000)).toNat = 0x1000 := by decide
        rw [heq, hdir] at h
        unfold PGSIZE at h
        omega
      ne_table := fun f hf x hx heq => by
        obtain ⟨j, _, h⟩ := forkTwoPages_free hf
        have htab : (forkTwoPages.pde (p2v 0x1000) x).address.toNat = 0x2000 := by
          rw [htable x hx]
          decide
        rw [← heq, htab] at h
        unfold PGSIZE at h
        omega
      nodup := by decide }
  have hfreeable : Freeable forkTwoPages (p2v 0x1000) :=
    { dir := twoPages_dirOk.of_pde hpde
      user := fun x e _ he hp => by
        rw [hentry, twoPages_entry] at he
        split_ifs at he <;> cases he
        · decide
        · decide
        · cases hp
      tables := fun x hx => by
        rw [htable x hx]
        decide
      ne_zero := by decide
      kend_le := by decide
      lt_phystop := by decide }
  have hmapped : forkTwoPages.mapped (p2v 0x1000) 0 = true := by
    rw [VmState.mapped, hentry, twoPages_entry]
    decide
  obtain ⟨s', hrun, hfl, -⟩ := uvm_copy_frees_parent
    (by decide : (0x80108000 : UInt32).toNat % PGSIZE = 0) (by decide) (by decide) hfree
    (by decide) hfreeable (by decide : 0 < (8192 : UInt32).toNat) hmapped
  refine ⟨hfree, by decide, hfreeable, hmapped, s', hrun, ?_⟩
  rw [hfl, show dirTables forkTwoPages (p2v 0x1000) = [p2v 0x2000] by decide]
  rfl

end Xv6
