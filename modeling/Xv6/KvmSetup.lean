import Mathlib
import Xv6.MapFresh

/-!
# `kvm_setup`

`kvm_setup` takes a zeroed page for a directory and maps the four ranges of `kmap` into it, the
kernel's half of every address space: the I/O space at `KERNBASE`, the kernel's text and
read-only data from `KERNLINK` up to `data`, its data and the rest of physical memory from `data`
up to `KERNBASE + PHYSTOP`, and the devices from `DEVSPACE` to the top. `data` is the symbol the
linker script puts at the first page after the kernel's read-only data; it is a parameter here.

The first three ranges make one contiguous block, and the last another: each range starts where
the one before it ended. `MappedBlock` states what the ranges mapped so far in a block leave: a page
table for each 4 MB region the block touches, taken from the free list in order; nothing mapped
outside the block; and no byte written outside the pages `map_pages` may write. `MappedBlock.map`
extends a block by one range, with the page tables it takes counted by `newTables_eq`, and
`kvm_setup_spec` chains the four ranges: from a free list of 65 pages or more, `kvm_setup`
succeeds and takes exactly 65 of them (the directory, 56 page tables for the 224 MB above
`KERNBASE` and 8 for the 32 MB of devices), leaves the user half of the directory empty, and
leaves every byte outside the free pages as it was.
-/

namespace Xv6

open Machine

/-- `EXTMEM`, the start of extended memory. -/
def EXTMEM : Nat := 0x100000

/-- `KERNLINK`, the address where the kernel is linked. -/
def KERNLINK : Nat := KERNBASE + EXTMEM

/-- `DEVSPACE`: other devices are at high addresses. -/
def DEVSPACE : Nat := 0xFE000000

/-- An entry of `kmap`: the kernel addresses from `virt` map to the physical addresses from
`phys_start` below `phys_end`, with the permissions `perm`. -/
structure KMap where
  virt : UInt32
  phys_start : UInt32
  phys_end : UInt32
  perm : UInt32

/-- `kmap`, the kernel's mappings, present in every process's page table; `data` is the address
of the kernel's data. -/
def kmap (data : UInt32) : List KMap :=
  [ -- I/O space
    { virt := UInt32.ofNat KERNBASE, phys_start := 0, phys_end := UInt32.ofNat EXTMEM,
      perm := PTE.W },
    -- kern text+rodata
    { virt := UInt32.ofNat KERNLINK, phys_start := v2p (UInt32.ofNat KERNLINK),
      phys_end := v2p data, perm := 0 },
    -- kern data+memory
    { virt := data, phys_start := v2p data, phys_end := UInt32.ofNat PHYSTOP, perm := PTE.W },
    -- more devices
    { virt := UInt32.ofNat DEVSPACE, phys_start := UInt32.ofNat DEVSPACE,
      phys_end := 0xFFFFFFFF, perm := PTE.W } ]

/-- The `for k in kmap` loop of `kvm_setup` over the directory `pgdir`: map each entry; when a
`map_pages` fails, free the directory and return none. -/
def kvmMapLoop (pgdir : UInt32) : List KMap → VmState → Outcome (Option UInt32 × VmState)
  | [], s => pure (some pgdir, s)
  | k :: ks, s => do
    let (ok, s) ← map_pages s pgdir k.virt (k.phys_end - k.phys_start) k.phys_start k.perm
    if ok then kvmMapLoop pgdir ks s
    else do
      let s ← vm_free s pgdir
      pure (none, s)

/-- `kvm_setup`: a new directory holding the kernel's mappings; none when the free list runs
out. -/
def kvm_setup (s : VmState) (data : UInt32) : Outcome (Option UInt32 × VmState) :=
  match kalloc_zeroed s with
  | (none, s) => pure (none, s)
  | (some pgdir, s) =>
    if UInt32.ofNat DEVSPACE < p2v (UInt32.ofNat PHYSTOP) then .panic "PHYSTOP too high"
    else kvmMapLoop pgdir (kmap data) s

/-- A step of the loop whose `map_pages` succeeds goes on with the next entry. -/
theorem kvmMapLoop_cons {pgdir : UInt32} (k : KMap) {ks : List KMap} {s s' : VmState}
    (h : map_pages s pgdir k.virt (k.phys_end - k.phys_start) k.phys_start k.perm =
      .ok (true, s')) :
    kvmMapLoop pgdir (k :: ks) s = kvmMapLoop pgdir ks s' := by
  rw [kvmMapLoop, h]
  rfl

/-- The loop over `kmap` when its four `map_pages` succeed. -/
theorem kvmMapLoop_kmap {pgdir data : UInt32} {s s2 s3 s4 s5 : VmState}
    (h2 : map_pages s pgdir (UInt32.ofNat KERNBASE) (UInt32.ofNat EXTMEM - 0) 0 PTE.W =
      .ok (true, s2))
    (h3 : map_pages s2 pgdir (UInt32.ofNat KERNLINK) (v2p data - v2p (UInt32.ofNat KERNLINK))
      (v2p (UInt32.ofNat KERNLINK)) 0 = .ok (true, s3))
    (h4 : map_pages s3 pgdir data (UInt32.ofNat PHYSTOP - v2p data) (v2p data) PTE.W =
      .ok (true, s4))
    (h5 : map_pages s4 pgdir (UInt32.ofNat DEVSPACE) (0xFFFFFFFF - UInt32.ofNat DEVSPACE)
      (UInt32.ofNat DEVSPACE) PTE.W = .ok (true, s5)) :
    kvmMapLoop pgdir (kmap data) s = .ok (some pgdir, s5) := by
  rw [kmap, kvmMapLoop_cons ⟨UInt32.ofNat KERNBASE, 0, UInt32.ofNat EXTMEM, PTE.W⟩ h2,
    kvmMapLoop_cons ⟨UInt32.ofNat KERNLINK, v2p (UInt32.ofNat KERNLINK), v2p data, 0⟩ h3,
    kvmMapLoop_cons ⟨data, v2p data, UInt32.ofNat PHYSTOP, PTE.W⟩ h4,
    kvmMapLoop_cons ⟨UInt32.ofNat DEVSPACE, UInt32.ofNat DEVSPACE, 0xFFFFFFFF, PTE.W⟩ h5]
  rfl

/-! ## Blocks of ranges -/

/-- The number of 4 MB regions that the addresses below `top` touch. -/
def regionsBelow (top : Nat) : Nat := (top + 2 ^ 22 - 1) / 2 ^ 22

/-- What the ranges mapped into the directory `d` from `lo` up to `top` leave of `s0`: a page
table present for each region from `lo` that `[lo, top)` touches, those of `s0` as they were, and
the page tables taken from the head of the free list; nothing mapped outside `[lo, top)` that
`s0` did not map; no byte written outside the pages that `map_pages` may write from `s0`. -/
structure MappedBlock (s0 s : VmState) (d : UInt32) (lo top : Nat) : Prop where
  dir : DirOk s d
  free : FreeOk s d
  freelist : s.freelist = s0.freelist.drop (regionsBelow top - lo / 2 ^ 22)
  present : ∀ x : UInt32, (s.pde d x).isPresent = true ↔
    (lo ≤ x.toNat ∧ x.toNat / 2 ^ 22 < regionsBelow top) ∨ (s0.pde d x).isPresent = true
  mapped : ∀ x, s.mapped d x = true → (lo ≤ x.toNat ∧ x.toNat < top) ∨ s0.mapped d x = true
  mayWrite : ∀ p, MayWrite s d p → MayWrite s0 d p
  mem_frame : ∀ x, ¬ MayWrite s0 d (x / PGSIZE) → s.mem x = s0.mem x
  kend : s.kend = s0.kend

/-- The regions of the `c` pages from a page-aligned `top` are those from the region of `top` up
to the last that the addresses below `top + c * PGSIZE` touch. -/
theorem exists_page_of_region {top c r : Nat} (htop : top % PGSIZE = 0) (hc : 0 < c) :
    (∃ j < c, (top + j * PGSIZE) / 2 ^ 22 = r) ↔
      top / 2 ^ 22 ≤ r ∧ r < regionsBelow (top + c * PGSIZE) := by
  unfold regionsBelow
  unfold PGSIZE at htop ⊢
  constructor
  · rintro ⟨j, hj, rfl⟩
    have hjc : j * 4096 + 4096 ≤ c * 4096 := by omega
    constructor <;> omega
  · rintro ⟨hlo, hhi⟩
    by_cases hr : r = top / 2 ^ 22
    · exact ⟨0, hc, by omega⟩
    · -- the page that starts the region `r`
      refine ⟨(r * 2 ^ 22 - top) / 4096, ?_, ?_⟩
      · omega
      · omega

section Blocks

variable {s0 s : VmState} {d : UInt32} {lo top : Nat}

/-- Every state is an empty block of itself, at the start of a region. -/
theorem MappedBlock.start (hd : DirOk s0 d) (hf : FreeOk s0 d) (hlo : lo % 2 ^ 22 = 0) :
    MappedBlock s0 s0 d lo lo where
  dir := hd
  free := hf
  freelist := by
    have h0 : regionsBelow lo - lo / 2 ^ 22 = 0 := by
      unfold regionsBelow
      omega
    rw [h0, List.drop_zero]
  present x := by
    refine ⟨.inr, ?_⟩
    rintro (⟨hx, hr⟩ | h)
    · unfold regionsBelow at hr
      omega
    · exact h
  mapped _ h := .inr h
  mayWrite _ h := h
  mem_frame _ _ := rfl
  kend := rfl

/-- A page at or above the top of a block is unmapped, when `s0` has no page table from `lo`. -/
theorem MappedBlock.unmapped (hb : MappedBlock s0 s d lo top) (hlotop : lo ≤ top)
    (hclear : ∀ x : UInt32, lo ≤ x.toNat → (s0.pde d x).isPresent = false) {x : UInt32}
    (hx : top ≤ x.toNat) : s.mapped d x = false := by
  cases hm : s.mapped d x with
  | false => rfl
  | true =>
    rcases hb.mapped x hm with ⟨-, hlt⟩ | h0
    · omega
    · have hp := VmState.isPresent_of_mapped h0
      rw [hclear x (by omega)] at hp
      cases hp

/-- The directory entries of a block's state past the regions it touches are missing. -/
theorem MappedBlock.absent (hb : MappedBlock s0 s d lo top)
    (hclear : ∀ x : UInt32, lo ≤ x.toNat → (s0.pde d x).isPresent = false) {x : UInt32}
    (hx : lo ≤ x.toNat) (hr : regionsBelow top ≤ x.toNat / 2 ^ 22) :
    (s.pde d x).isPresent = false := by
  cases hp : (s.pde d x).isPresent with
  | false => rfl
  | true =>
    rcases (hb.present x).mp hp with ⟨-, hlt⟩ | h0
    · omega
    · rw [hclear x hx] at h0
      cases h0

/-- A range from the top of a block takes one page table for each region it adds to the
block. -/
theorem MappedBlock.newTables_top (hb : MappedBlock s0 s d lo top) (hlotop : lo ≤ top)
    (hclear : ∀ x : UInt32, lo ≤ x.toNat → (s0.pde d x).isPresent = false) {a0 : UInt32}
    (ha0 : a0.toNat = top) (htop : top % PGSIZE = 0) {n : Nat}
    (hn : top + n * PGSIZE < 2 ^ 32) :
    newTables s d a0 (n + 1) = regionsBelow (top + n * PGSIZE + PGSIZE) - regionsBelow top := by
  -- the first page needs a page table exactly when it starts a region
  have hfirst : (s.pde d a0).isPresent = false ↔ top % 2 ^ 22 = 0 := by
    constructor
    · intro hp
      by_contra hmid
      have hin : (lo ≤ a0.toNat ∧ a0.toNat / 2 ^ 22 < regionsBelow top) ∨
          (s0.pde d a0).isPresent = true := by
        left
        unfold regionsBelow
        omega
      rw [← hb.present a0, hp] at hin
      cases hin
    · intro hstart
      exact hb.absent hclear (by omega) (by unfold regionsBelow; omega)
  have hrest : ∀ x : UInt32, a0.toNat / 2 ^ 22 < x.toNat / 2 ^ 22 →
      x.toNat / 2 ^ 22 ≤ (a0.toNat + n * PGSIZE) / 2 ^ 22 → (s.pde d x).isPresent = false :=
    fun x hlt _ => hb.absent hclear (by omega) (by unfold regionsBelow; omega)
  rw [newTables_eq (by rw [ha0]; exact htop) n (by rw [ha0]; exact hn) hrest, ha0]
  unfold regionsBelow
  unfold PGSIZE at htop ⊢
  by_cases hp : (s.pde d a0).isPresent = false
  · have hstart := hfirst.mp hp
    rw [if_pos hp]
    omega
  · have hmid : top % 2 ^ 22 ≠ 0 := fun h => hp (hfirst.mpr h)
    rw [if_neg hp]
    omega

/-- One range mapped from the top of a block extends the block by its pages, when the free list
has a page for each region the range adds. -/
theorem MappedBlock.map (hb : MappedBlock s0 s d lo top) (va size pa perm : UInt32)
    (hlotop : lo ≤ top) (hlo : lo % 2 ^ 22 = 0)
    (hclear : ∀ x : UInt32, lo ≤ x.toNat → (s0.pde d x).isPresent = false)
    (hva : va.toNat = top) (htop : top % PGSIZE = 0) (hsize : 1 ≤ size.toNat)
    (hwrap : va.toNat + size.toNat - 1 < 2 ^ 32)
    (henough : regionsBelow (top + pageCount va size * PGSIZE) - regionsBelow top ≤
      s.freelist.length) :
    ∃ s', map_pages s d va size pa perm = .ok (true, s') ∧
      MappedBlock s0 s' d lo (top + pageCount va size * PGSIZE) := by
  have ha0 : (pg_rounddown va).toNat = top := by
    rw [pg_rounddown_toNat, hva]
    unfold PGSIZE at htop
    omega
  obtain ⟨n, hn⟩ : ∃ n, pageCount va size = n + 1 := ⟨_, rfl⟩
  have hlast := pageCount_last hsize hwrap
  rw [hn, ha0, Nat.add_sub_cancel] at hlast
  have hbound : top + n * PGSIZE < 2 ^ 32 := hlast ▸ (pg_rounddown (va + size - 1)).toNat_lt
  have hpage : ∀ j, j < n + 1 → (pageAt (pg_rounddown va) j).toNat = top + j * PGSIZE := by
    intro j hj
    rw [pageAt_toNat, ha0]
    rw [ha0]
    exact lt_of_le_of_lt (Nat.add_le_add_left (Nat.mul_le_mul_right PGSIZE
      (Nat.lt_succ_iff.mp hj)) _) hbound
  have htables := hb.newTables_top hlotop hclear ha0 htop hbound
  -- the range is unmapped, and the free list has its page tables
  have hfresh : ∀ j < pageCount va size, s.mapped d (pageAt (pg_rounddown va) j) = false := by
    intro j hj
    rw [hn] at hj
    exact hb.unmapped hlotop hclear (by rw [hpage j hj]; omega)
  have henough' : newTables s d (pg_rounddown va) (pageCount va size) ≤ s.freelist.length := by
    rw [hn, htables, Nat.add_assoc, ← Nat.succ_mul]
    rw [hn] at henough
    exact henough
  have hmap : ∃ s', map_pages s d va size pa perm = .ok (true, s') ∧ DirOk s' d ∧ FreeOk s' d ∧
      MapsRange s s' d (pg_rounddown va) pa perm (pageCount va size) ∧
      FreshRun s s' d (pg_rounddown va) (pageCount va size) :=
    map_pages_fresh hb.dir hb.free hsize hwrap hfresh henough'
  obtain ⟨s', hrun, hd', hf', hr, hfr⟩ := hmap
  rw [hn] at hr hfr
  have hsub : ∀ f ∈ s'.freelist, f ∈ s.freelist := fun f hf =>
    List.mem_of_mem_drop (hfr.freelist ▸ hf)
  refine ⟨s', hrun, ?_⟩
  rw [hn, Nat.succ_mul, ← Nat.add_assoc]
  unfold PGSIZE at htop hbound hpage ⊢
  exact {
    dir := hd'
    free := hf'
    freelist := by
      rw [hfr.freelist, hb.freelist, List.drop_drop, htables]
      congr 1
      unfold regionsBelow PGSIZE
      omega
    present := fun x => by
      by_cases hv : ∃ j < n + 1, x.toNat / 2 ^ 22 = (pageAt (pg_rounddown va) j).toNat / 2 ^ 22
      · -- the region of one of the range's pages: its page table is there now
        obtain ⟨j, hj, hxj⟩ := hv
        have hxj' : (top + j * 4096) / 2 ^ 22 = x.toNat / 2 ^ 22 := by
          rw [← hpage j hj]
          exact hxj.symm
        obtain ⟨hreg1, hreg2⟩ := (exists_page_of_region htop (Nat.succ_pos n)).mp ⟨j, hj, hxj'⟩
        refine iff_of_true ?_ (.inl ⟨?_, ?_⟩)
        · rw [VmState.pde_congr hxj]
          exact hfr.visited j hj
        · omega
        · unfold regionsBelow at hreg2 ⊢
          unfold PGSIZE at hreg2
          omega
      · rw [hfr.pde_frame x fun j hj h => hv ⟨j, hj, h⟩, hb.present x]
        refine or_congr_left ⟨fun ⟨hx, hr⟩ => ⟨hx, ?_⟩, fun ⟨hx, hr⟩ => ⟨hx, ?_⟩⟩
        · unfold regionsBelow at hr ⊢
          omega
        · -- a region the range added would be the region of one of its pages
          by_contra hge
          obtain ⟨j, hj, hxj⟩ := (exists_page_of_region (r := x.toNat / 2 ^ 22) htop
            (Nat.succ_pos n)).mpr
            ⟨by unfold regionsBelow at hge; omega, by rw [Nat.succ_mul, ← Nat.add_assoc]; exact hr⟩
          exact hv ⟨j, hj, by rw [hpage j hj]; exact hxj.symm⟩
    mapped := fun x h => by
      by_cases hin : inPages (pg_rounddown va) (n + 1) x
      · left
        unfold inPages at hin
        rw [ha0, pg_rounddown_toNat x, Nat.succ_mul, ← Nat.add_assoc] at hin
        unfold PGSIZE at hin
        omega
      · rw [VmState.mapped_eq_of_entry (hr.frame x hin)] at h
        rcases hb.mapped x h with ⟨h1, h2⟩ | h0
        · exact .inl ⟨h1, by omega⟩
        · exact .inr h0
    mayWrite := fun p h => hb.mayWrite p (hr.mayWrite hb.free hsub h)
    mem_frame := fun x hx => (hfr.mem_frame x fun h => hx (hb.mayWrite _ h)).trans
      (hb.mem_frame x hx)
    kend := hfr.kend.trans hb.kend }

end Blocks

/-! ## `kvm_setup` -/

/-- The physical address of a kernel address. -/
theorem v2p_toNat {va : UInt32} (h : KERNBASE ≤ va.toNat) : (v2p va).toNat = va.toNat - KERNBASE := by
  have hk : (UInt32.ofNat KERNBASE).toNat = KERNBASE := rfl
  unfold v2p
  rw [UInt32.toNat_sub_of_le _ _ (by rw [UInt32.le_iff_toNat_le, hk]; exact h), hk]

/-- A directory whose page is zeroed has no entry. -/
theorem pde_fill_zero (s : VmState) {d : UInt32} (hD : (v2p d).toNat % PGSIZE = 0) (x : UInt32) :
    ((s.fill d 0).pde d x).isPresent = false := by
  have hx := x.toNat_lt
  unfold VmState.pde
  rw [VmState.load_fill_zero (by rw [pdeAddr_toNat hD]; omega)
    (by rw [pdeAddr_toNat hD]; unfold PGSIZE; omega)]
  exact PTE.isPresent_NULL

/-- A directory without entries is well formed. -/
theorem DirOk.of_absent {s : VmState} {d : UInt32} (hD : (v2p d).toNat % PGSIZE = 0)
    (h : ∀ x, (s.pde d x).isPresent = false) : DirOk s d where
  aligned := hD
  table_ne_dir x hx := by
    rw [h x] at hx
    cases hx
  table_inj x _ hx := by
    rw [h x] at hx
    cases hx

/-- From a free list of 65 distinct pages or more and a `data` between the kernel's text and the
top of physical memory, `kvm_setup` returns the head of the free list as the new directory and
takes 64 more pages for its page tables; the directory is well formed with the rest of the free
list, has no entry below `KERNBASE`, and names only pages of the free list it started from; no
byte outside the free pages changes. -/
theorem kvm_setup_fit {s : VmState} {data d : UInt32} {rest : List UInt32}
    (hdata : data.toNat % PGSIZE = 0) (htext : KERNLINK < data.toNat)
    (hphys : data.toNat < KERNBASE + PHYSTOP) (hl : s.freelist = d :: rest)
    (hlen : 64 ≤ rest.length) (haligned : ∀ f ∈ s.freelist, (v2p f).toNat % PGSIZE = 0)
    (hnodup : (s.freelist.map v2p).Nodup) :
    ∃ s', kvm_setup s data = .ok (some d, s') ∧ s'.freelist = rest.drop 64 ∧
      DirOk s' d ∧ FreeOk s' d ∧
      (∀ x : UInt32, x.toNat < KERNBASE → (s'.pde d x).isPresent = false) ∧
      (∀ p, MayWrite s' d p → ∃ f ∈ s.freelist, p = (v2p f).toNat / PGSIZE) ∧
      (∀ x, (∀ f ∈ s.freelist, x / PGSIZE ≠ (v2p f).toNat / PGSIZE) → s'.mem x = s.mem x) ∧
      s'.kend = s.kend := by
  -- the directory: the head of the free list, zeroed
  have hD : (v2p d).toNat % PGSIZE = 0 := haligned d (by simp [hl])
  have hnodup' := hnodup
  rw [hl, List.map_cons, List.nodup_cons] at hnodup'
  obtain ⟨hnotin, hrest⟩ := hnodup'
  set s1 := ({ s with freelist := rest } : VmState).fill d 0 with hs1
  have hl1 : s1.freelist = rest := rfl
  have hzero : ∀ x, (s1.pde d x).isPresent = false := pde_fill_zero _ hD
  have hfree1 : FreeOk s1 d :=
    { aligned := fun f hf => haligned f (by rw [hl]; exact List.mem_cons_of_mem _ hf)
      ne_dir := fun f hf heq => hnotin (heq ▸ List.mem_map_of_mem hf)
      ne_table := fun f _ x hx => by
        rw [hzero x] at hx
        cases hx
      nodup := hrest }
  have hsetup : kvm_setup s data = kvmMapLoop d (kmap data) s1 := by
    simp only [kvm_setup, kalloc_zeroed, kalloc, hl]
    rw [if_neg (by decide)]
  have hclear1 : ∀ x : UInt32, KERNBASE ≤ x.toNat → (s1.pde d x).isPresent = false :=
    fun x _ => hzero x
  have hbase : KERNBASE ≤ data.toNat := by
    unfold KERNLINK at htext
    omega
  have hK : (UInt32.ofNat KERNLINK).toNat = KERNLINK := rfl
  have hdata32 := data.toNat_lt
  -- the I/O space, from `KERNBASE` to `KERNLINK`
  have hc2 : KERNBASE + pageCount (UInt32.ofNat KERNBASE) (UInt32.ofNat EXTMEM - 0) * PGSIZE =
      KERNLINK := by decide
  obtain ⟨s2, h2, hb2⟩ := (MappedBlock.start (DirOk.of_absent hD hzero) hfree1
    (by decide)).map (UInt32.ofNat KERNBASE) (UInt32.ofNat EXTMEM - 0) 0 PTE.W le_rfl (by decide)
    hclear1 rfl (by decide) (by decide) (by decide)
    (by rw [hc2, hl1, show regionsBelow KERNLINK - regionsBelow KERNBASE = 1 by decide]; omega)
  rw [hc2] at hb2
  -- the kernel's text and read-only data, from `KERNLINK` to `data`
  have hRB : 512 ≤ regionsBelow data.toNat ∧ regionsBelow data.toNat ≤ 568 := by
    unfold regionsBelow
    unfold KERNBASE at hphys hbase
    unfold PHYSTOP at hphys
    omega
  have hsz2 : (v2p data - v2p (UInt32.ofNat KERNLINK)).toNat = data.toNat - KERNLINK := by
    have hk : (v2p (UInt32.ofNat KERNLINK)).toNat = EXTMEM := by decide
    rw [UInt32.toNat_sub_of_le _ _ (by
      rw [UInt32.le_iff_toNat_le, hk, v2p_toNat hbase]
      unfold KERNLINK at htext
      omega), hk, v2p_toNat hbase]
    unfold KERNLINK
    omega
  have hc3 : KERNLINK + pageCount (UInt32.ofNat KERNLINK) (v2p data - v2p (UInt32.ofNat KERNLINK)) *
      PGSIZE = data.toNat :=
    @pageCount_segment (UInt32.ofNat KERNLINK) _ _ (by decide) hdata (by rw [hK]; exact htext)
      (by omega) (by rw [hsz2, hK])
  obtain ⟨s3, h3, hb3⟩ := hb2.map (UInt32.ofNat KERNLINK) (v2p data - v2p (UInt32.ofNat KERNLINK))
    (v2p (UInt32.ofNat KERNLINK)) 0 (by decide) (by decide) hclear1 rfl (by decide)
    (by rw [hsz2]; omega) (by rw [hsz2, hK]; omega)
    (by
      rw [hc3, hb2.freelist, hl1, List.length_drop,
        show regionsBelow KERNLINK - KERNBASE / 2 ^ 22 = 1 by decide,
        show regionsBelow KERNLINK = 513 by decide]
      omega)
  rw [hc3] at hb3
  -- the kernel's data and the rest of physical memory, from `data` to `KERNBASE + PHYSTOP`
  have hsz3 : (UInt32.ofNat PHYSTOP - v2p data).toNat = KERNBASE + PHYSTOP - data.toNat := by
    have hp : (UInt32.ofNat PHYSTOP).toNat = PHYSTOP := rfl
    rw [UInt32.toNat_sub_of_le _ _ (by rw [UInt32.le_iff_toNat_le, hp, v2p_toNat hbase]; omega),
      hp, v2p_toNat hbase]
    omega
  have hc4 : data.toNat + pageCount data (UInt32.ofNat PHYSTOP - v2p data) * PGSIZE =
      KERNBASE + PHYSTOP :=
    pageCount_segment hdata (by decide) hphys (by decide) hsz3
  obtain ⟨s4, h4, hb4⟩ := hb3.map data (UInt32.ofNat PHYSTOP - v2p data) (v2p data) PTE.W
    hbase (by decide) hclear1 rfl hdata (by rw [hsz3]; omega)
    (by rw [hsz3]; unfold KERNBASE PHYSTOP at *; omega)
    (by
      rw [hc4, hb3.freelist, hl1, List.length_drop,
        show regionsBelow (KERNBASE + PHYSTOP) = 568 by decide,
        show KERNBASE / 2 ^ 22 = 512 by decide]
      omega)
  rw [hc4] at hb4
  -- the devices, from `DEVSPACE` to the top: a block of its own
  have hclear4 : ∀ x : UInt32, DEVSPACE ≤ x.toNat → (s4.pde d x).isPresent = false :=
    fun x hx => hb4.absent hclear1 (by unfold DEVSPACE KERNBASE at *; omega)
      (by rw [show regionsBelow (KERNBASE + PHYSTOP) = 568 by decide]; unfold DEVSPACE at hx; omega)
  have hc5 : DEVSPACE + pageCount (UInt32.ofNat DEVSPACE) (0xFFFFFFFF - UInt32.ofNat DEVSPACE) *
      PGSIZE = 2 ^ 32 := by decide
  obtain ⟨s5, h5, hb5⟩ := (MappedBlock.start hb4.dir hb4.free (by decide)).map
    (UInt32.ofNat DEVSPACE) (0xFFFFFFFF - UInt32.ofNat DEVSPACE) (UInt32.ofNat DEVSPACE) PTE.W
    le_rfl (by decide) hclear4 rfl (by decide) (by decide) (by decide)
    (by
      rw [hc5, hb4.freelist, hl1, List.length_drop,
        show regionsBelow (2 ^ 32) - regionsBelow DEVSPACE = 8 by decide,
        show regionsBelow (KERNBASE + PHYSTOP) - KERNBASE / 2 ^ 22 = 56 by decide]
      omega)
  rw [hc5] at hb5
  refine ⟨s5, ?_, ?_, hb5.dir, hb5.free, ?_, ?_, ?_, hb5.kend.trans hb4.kend⟩
  · rw [hsetup]
    exact kvmMapLoop_kmap h2 h3 h4 h5
  · rw [hb5.freelist, hb4.freelist, hl1, List.drop_drop,
      show regionsBelow (2 ^ 32) - DEVSPACE / 2 ^ 22 = 8 by decide,
      show regionsBelow (KERNBASE + PHYSTOP) - KERNBASE / 2 ^ 22 = 56 by decide]
  · -- the four ranges lie above `KERNBASE`
    intro x hx
    cases hp : (s5.pde d x).isPresent with
    | false => rfl
    | true =>
      rcases (hb5.present x).mp hp with ⟨hlo, -⟩ | h4p
      · unfold DEVSPACE KERNBASE at *
        omega
      · rcases (hb4.present x).mp h4p with ⟨hlo, -⟩ | h1p
        · omega
        · rw [hzero x] at h1p
          cases h1p
  · -- the pages that the directory may write were all free: it had no page table at first
    intro p hp
    rcases hb4.mayWrite p (hb5.mayWrite p hp) with h | ⟨y, hy, -⟩ | ⟨f, hf, h⟩
    · exact ⟨d, by simp [hl], h⟩
    · rw [hzero y] at hy
      cases hy
    · rw [hl1] at hf
      exact ⟨f, by simp [hl, hf], h⟩
  · intro x hx
    have hd : d ∈ s.freelist := by simp [hl]
    have hnot : ¬ MayWrite s1 d (x / PGSIZE) := by
      rintro (h | ⟨y, hy, -⟩ | ⟨f, hf, h⟩)
      · exact hx d hd h
      · rw [hzero y] at hy
        cases hy
      · rw [hl1] at hf
        exact hx f (by simp [hl, hf]) h
    have hout : x < (v2p d).toNat ∨ (v2p d).toNat + PGSIZE ≤ x := by
      have hne := hx d hd
      unfold PGSIZE at *
      omega
    calc s5.mem x = s4.mem x := hb5.mem_frame x fun h => hnot (hb4.mayWrite _ h)
      _ = s1.mem x := hb4.mem_frame x hnot
      _ = s.mem x := VmState.mem_fill_of_not_mem 0 hout

/-- From a free list of 65 distinct pages or more and a `data` between the kernel's text and the
top of physical memory, `kvm_setup` returns the head of the free list as the new directory and
takes 64 more pages for its page tables; the directory has no entry below `KERNBASE`, and no byte
outside the free pages changes. -/
theorem kvm_setup_spec {s : VmState} {data d : UInt32} {rest : List UInt32}
    (hdata : data.toNat % PGSIZE = 0) (htext : KERNLINK < data.toNat)
    (hphys : data.toNat < KERNBASE + PHYSTOP) (hl : s.freelist = d :: rest)
    (hlen : 64 ≤ rest.length) (haligned : ∀ f ∈ s.freelist, (v2p f).toNat % PGSIZE = 0)
    (hnodup : (s.freelist.map v2p).Nodup) :
    ∃ s', kvm_setup s data = .ok (some d, s') ∧ s'.freelist = rest.drop 64 ∧
      (∀ x : UInt32, x.toNat < KERNBASE → (s'.pde d x).isPresent = false) ∧
      (∀ x, (∀ f ∈ s.freelist, x / PGSIZE ≠ (v2p f).toNat / PGSIZE) → s'.mem x = s.mem x) ∧
      s'.kend = s.kend := by
  obtain ⟨s', hrun, hfl, -, -, habs, -, hmem, hk⟩ :=
    kvm_setup_fit hdata htext hphys hl hlen haligned hnodup
  exact ⟨s', hrun, hfl, habs, hmem, hk⟩

end Xv6
