import Mathlib
import Xv6.Lib.Outcome

/-!
# The user heap allocator

`umalloc.c`, the allocator of Kernighan and Ritchie that user programs link. The free blocks form
a circular list through the static `base`, in address order apart from one wrap point; each block
starts with a `Header` that holds the next free block and the block's size in `Header` units.
`free` walks the list to the block after which the freed one belongs and joins it to its
neighbours; `malloc` walks from `freep` for the first block of `nunits` units, splitting a larger
one from its tail, and asks the kernel for memory with `morecore` when a whole round finds none.

The headers are a map from address to `Header`, the pointers `uint` addresses with the code's
wrapping arithmetic, and the kernel's `sbrk` is given by whether it grants the call. The two
`for` loops have no bound; each runs for at most `fuel` turns, and a loop that has not ended by
then is given no meaning (`ub`): on a list that is well formed, fuel for one round of the list
and one call of `morecore` is enough.

A block that `malloc` returns has exactly `nunits` units (`mallocLoop_size`). `nunits` is
computed in `uint`, and for a request of more than `2 ^ 32 - 8` bytes it wraps to one unit, the
header alone (`malloc_huge_request`).
-/

namespace Xv6.Umalloc

open Machine

/-- `sizeof(Header)`: a pointer and a `uint` on a 32-bit machine. -/
def HEADER : UInt32 := 8

/-- `Header`: the next block of the free list, and the size of this block in units. -/
structure Header where
  ptr : UInt32
  size : UInt32
  deriving DecidableEq, Repr

/-- The allocator's memory: the headers by address, `freep` (`0` is null), and the program break
that `sbrk` moves. -/
structure Heap where
  mem : UInt32 → Header
  freep : UInt32
  brk : UInt32

/-- A store of the header at `a`. -/
def Heap.set (h : Heap) (a : UInt32) (hd : Header) : Heap :=
  { h with mem := Function.update h.mem a hd }

section Set

variable (h : Heap) (a : UInt32) (hd : Header)

@[simp] theorem Heap.set_mem_self : (h.set a hd).mem a = hd := Function.update_self _ _ _

@[simp] theorem Heap.set_mem_of_ne {b : UInt32} (hb : b ≠ a) : (h.set a hd).mem b = h.mem b :=
  Function.update_of_ne hb _ _

@[simp] theorem Heap.set_freep : (h.set a hd).freep = h.freep := rfl

@[simp] theorem Heap.set_brk : (h.set a hd).brk = h.brk := rfl

end Set

/-! ## `free` -/

/-- The search loop of `free`, from `p`: the block after which `bp` belongs, where `bp` lies
between `p` and the next block, or `p` is the block before the wrap point and `bp` lies beyond it
or before the first. -/
def freeSearch (h : Heap) (bp : UInt32) : Nat → UInt32 → Outcome UInt32
  | 0, _ => .ub
  | fuel + 1, p =>
    if bp > p ∧ bp < (h.mem p).ptr then .ok p
    else if p ≥ (h.mem p).ptr ∧ (bp > p ∨ bp < (h.mem p).ptr) then .ok p
    else freeSearch h bp fuel (h.mem p).ptr

/-- `free(ap)`: put the block of `ap` after the block `p` that the search finds, joined to the
block after it and to `p` where they touch, and start the next search at `p`. -/
def free (fuel : Nat) (ap : UInt32) (h : Heap) : Outcome Heap := do
  let bp := ap - HEADER
  let p ← freeSearch h bp fuel h.freep
  -- join to the upper neighbour
  let h :=
    if bp + (h.mem bp).size * HEADER = (h.mem p).ptr then
      let h := h.set bp { h.mem bp with size := (h.mem bp).size + (h.mem (h.mem p).ptr).size }
      h.set bp { h.mem bp with ptr := (h.mem (h.mem p).ptr).ptr }
    else h.set bp { h.mem bp with ptr := (h.mem p).ptr }
  -- join to the lower neighbour
  let h :=
    if p + (h.mem p).size * HEADER = bp then
      let h := h.set p { h.mem p with size := (h.mem p).size + (h.mem bp).size }
      h.set p { h.mem p with ptr := (h.mem bp).ptr }
    else h.set p { h.mem p with ptr := bp }
  pure { h with freep := p }

/-! ## `morecore` and `malloc` -/

/-- `sbrk(n)` as the kernel answers it: the old break, with the break moved by `n`, or `-1`.
`growproc` adds the `int` to the `uint` size, which is the wrapping sum. -/
def sbrk (grant : Bool) (n : UInt32) (h : Heap) : UInt32 × Heap :=
  if grant then (h.brk, { h with brk := h.brk + n }) else (0xFFFFFFFF, h)

/-- `morecore(nu)`: ask the kernel for at least 4096 units, free them into the list and return
`freep`; `0` when `sbrk` fails. -/
def morecore (grant : Bool) (fuel : Nat) (nu : UInt32) (h : Heap) : Outcome (UInt32 × Heap) :=
  let nu := if nu < 4096 then 4096 else nu
  let (p, h) := sbrk grant (nu * HEADER) h
  if p = 0xFFFFFFFF then pure (0, h)
  else do
    let h := h.set p { h.mem p with size := nu }
    let h ← free fuel (p + HEADER) h
    pure (h.freep, h)

/-- `nunits`: the units a request of `nbytes` takes with its header, in `uint` arithmetic. -/
def nunits (nbytes : UInt32) : UInt32 := (nbytes + HEADER - 1) / HEADER + 1

/-- The loop of `malloc` for `nunits` units, at `p = prevp->s.ptr`: the first block of at least
`nunits` units is unlinked when it fits exactly, or gives up its tail; a round that comes back to
`freep` calls `morecore`. -/
def mallocLoop (grant : Bool) (nunits : UInt32) :
    Nat → UInt32 → UInt32 → Heap → Outcome (UInt32 × Heap)
  | 0, _, _, _ => .ub
  | fuel + 1, prevp, p, h =>
    if (h.mem p).size ≥ nunits then
      if (h.mem p).size = nunits then
        let h := h.set prevp { h.mem prevp with ptr := (h.mem p).ptr }
        pure (p + HEADER, { h with freep := prevp })
      else
        -- the tail of the block
        let h := h.set p { h.mem p with size := (h.mem p).size - nunits }
        let p := p + (h.mem p).size * HEADER
        let h := h.set p { h.mem p with size := nunits }
        pure (p + HEADER, { h with freep := prevp })
    else if p = h.freep then do
      let (p, h) ← morecore grant fuel nunits h
      if p = 0 then pure (0, h)
      else mallocLoop grant nunits fuel p (h.mem p).ptr h
    else mallocLoop grant nunits fuel p (h.mem p).ptr h

/-- `malloc(nbytes)`, with `base` the address of the static `base`: the first call makes the
empty list of `base` alone. -/
def malloc (base : UInt32) (grant : Bool) (fuel : Nat) (nbytes : UInt32) (h : Heap) :
    Outcome (UInt32 × Heap) :=
  let nunits := nunits nbytes
  let h := if h.freep = 0 then { h.set base ⟨base, 0⟩ with freep := base } else h
  mallocLoop grant nunits fuel h.freep (h.mem h.freep).ptr h

/-! ## The blocks `malloc` returns -/

/-- A block that `malloc`'s loop returns has exactly `nunits` units: the header before the
returned pointer says so. -/
theorem mallocLoop_size {grant : Bool} {nunits : UInt32} {fuel : Nat} {prevp p q : UInt32}
    {h h' : Heap} (hret : mallocLoop grant nunits fuel prevp p h = .ok (q, h')) (hq : q ≠ 0) :
    (h'.mem (q - HEADER)).size = nunits := by
  induction fuel generalizing prevp p h with
  | zero => cases hret
  | succ fuel ih =>
    unfold mallocLoop at hret
    split_ifs at hret with hfit hexact hround
    · -- the block fits exactly, and is unlinked: only `prevp`'s link changes
      cases hret
      rw [UInt32.add_sub_cancel]
      by_cases hp : p = prevp
      · subst hp
        simpa using hexact
      · simpa [hp] using hexact
    · -- the tail of a larger block, with its own header
      cases hret
      rw [UInt32.add_sub_cancel]
      simp
    · -- a round came back to `freep`: `morecore`, then the loop goes on unless it failed
      obtain ⟨⟨p', h1⟩, -, hrest⟩ := Outcome.bind_eq_ok.mp hret
      dsimp only at hrest
      split_ifs at hrest with hp'
      · cases hrest
        exact absurd rfl hq
      · exact ih hrest
    · exact ih hret

/-- A request of more than `2 ^ 32 - 8` bytes wraps to one unit. -/
theorem nunits_of_huge {nbytes : UInt32} (hbig : 2 ^ 32 - 8 < nbytes.toNat) : nunits nbytes = 1 := by
  unfold nunits HEADER
  apply UInt32.toNat_inj.mp
  have hlt := nbytes.toNat_lt
  -- `nbytes + 7` wraps below `8`
  simp only [UInt32.toNat_add, UInt32.toNat_sub, UInt32.toNat_div, UInt32.toNat_ofNat,
    Nat.reduceMod, Nat.reducePow]
  omega

section Malloc

variable {base : UInt32} {grant : Bool} {fuel : Nat} {nbytes q : UInt32} {h h' : Heap}

/-- A block that `malloc` returns has `nunits` units. -/
theorem malloc_size (hret : malloc base grant fuel nbytes h = .ok (q, h')) (hq : q ≠ 0) :
    (h'.mem (q - HEADER)).size = nunits nbytes :=
  mallocLoop_size hret hq

/-- A request of more than `2 ^ 32 - 8` bytes that `malloc` serves gets a block of one unit: its
header, with no byte for the caller. -/
theorem malloc_huge_request (hret : malloc base grant fuel nbytes h = .ok (q, h')) (hq : q ≠ 0)
    (hbig : 2 ^ 32 - 8 < nbytes.toNat) : (h'.mem (q - HEADER)).size = 1 := by
  rw [malloc_size hret hq]
  exact nunits_of_huge hbig

end Malloc

/-- A process before its first `malloc`, its break at `0x3000` and `base` at `0x2000`. -/
def freshHeap : Heap := ⟨fun _ => ⟨0, 0⟩, 0, 0x3000⟩

/-- `malloc(0xFFFFFFFF)` in a fresh process returns the break itself, the end of the memory that
`morecore` got, as a block of one unit. -/
theorem malloc_huge_request_fresh :
    ∃ h', malloc 0x2000 true 4 0xFFFFFFFF freshHeap = .ok (0xB000, h') ∧
      (h'.mem (0xB000 - HEADER)).size = 1 :=
  ⟨_, rfl, @malloc_huge_request 0x2000 true 4 0xFFFFFFFF 0xB000 freshHeap _ rfl (by decide)
    (by decide)⟩

end Xv6.Umalloc
