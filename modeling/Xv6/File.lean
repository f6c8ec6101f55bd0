import Xv6.Param
import Xv6.Lib.Outcome
import Xv6.Lib.ArrayVec

/-!
# The open-file table

`FileTable` of `file.rs` keeps the open files inline in an `ArrayVec<File, NFILE>`. `filealloc`
pushes a new file and hands out a pointer to it, that is, its position; `filedup` adds a
reference; `fileclose` drops one, and when the last one goes it finds the file by value and takes
it out with `ArrayVec::remove`, which moves every later file one position down while the
processes' `ofile` tables keep the old positions. A step through a position that holds no file
any more goes through a dangling pointer, which the model leaves undefined.

`TableOk` says that every file in the table is referenced. `pipe_write_end_moved` is a run of
`pipealloc` and `close` after which the pipe's write end is another file: closing a last reference
moves the later files down under the handles that still name them.
-/

namespace Xv6

open Machine

/-- `FileKind`. -/
inductive FileKind where
  | none
  | pipe
  | inode
  deriving DecidableEq, Repr

/-- `File`; the pointers `pipe` and `ip` are addresses, zero for null. -/
structure File where
  /-- What the file is. -/
  kind : FileKind
  /-- The reference count, an `i32`; the references are bounded by the processes' `ofile`
  slots, far from overflow. -/
  ref_count : Int
  /-- One when the file may be read. -/
  readable : UInt8
  /-- One when the file may be written. -/
  writable : UInt8
  /-- The pipe of a pipe end. -/
  pipe : Nat
  /-- The inode of an inode file. -/
  ip : Nat
  /-- The offset of the next read or write. -/
  offset : UInt32
  deriving DecidableEq, Repr

/-- `File::new`: of no kind, with no reference. -/
def File.new : File := ⟨.none, 0, 0, 0, 0, 0, 0⟩

/-- What `FileTable::close` goes on to do with a file it removed: close its end of the pipe,
put its inode back inside a transaction (`begin_op`, `iput`, `end_op`), or nothing. -/
inductive Closing where
  | none
  | pipeclose (pipe : Nat) (writable : Nat)
  | iput (ip : Nat)
  deriving DecidableEq, Repr

/-- The `match ty` at the end of `FileTable::close`. -/
def File.closing (f : File) : Closing :=
  match f.kind with
  | .pipe => .pipeclose f.pipe f.writable.toNat
  | .inode => .iput f.ip
  | .none => .none

/-- `FileTable`: the open files, in an `ArrayVec` of capacity `NFILE`. -/
structure FileTable where
  /-- The open files, at their positions. -/
  files : ArrayVec File NFILE

namespace FileTable

/-- `FileTable::new`: no files. -/
def new : FileTable := ⟨ArrayVec.empty⟩

/-- `FileTable::alloc` (`filealloc`): push a new file, with `try_push(..).unwrap()`, and take a
reference to the last file; its position is returned. -/
def alloc (t : FileTable) : Outcome (FileTable × Nat) :=
  match t.files.tryPush File.new with
  | some files =>
    pure (⟨files.modify (files.len - 1) fun f => { f with ref_count := f.ref_count + 1 }⟩,
      files.len - 1)
  | none => .panic "called `Result::unwrap()` on an `Err` value: CapacityError: insufficient capacity"

/-- `FileTable::dup` (`filedup`) on the file at position `idx`, which it returns. -/
def dup (t : FileTable) (idx : Nat) : Outcome FileTable :=
  match t.files.get? idx with
  | some f =>
    if f.ref_count < 1 then .panic "filedup"
    else pure ⟨t.files.modify idx fun f => { f with ref_count := f.ref_count + 1 }⟩
  | none => .ub

/-- `FileTable::close` (`fileclose`) on the file at position `idx`: drop a reference; when none
is left, find the first file equal to this one, remove it, and close its pipe end or inode. -/
def close (t : FileTable) (idx : Nat) : Outcome (FileTable × Closing) :=
  match t.files.get? idx with
  | some f =>
    if f.ref_count < 1 then .panic "fileclose"
    else
      let f := { f with ref_count := f.ref_count - 1 }
      let files := t.files.modify idx fun _ => f
      if f.ref_count == 0 then
        match files.position fun file => file == f with
        | some index => pure (⟨files.remove index⟩, f.closing)
        | none => .panic "called `Option::unwrap()` on a `None` value"
      else pure (⟨files⟩, .none)
  | none => .ub

/-- A write to the fields of the file at position `idx`, through the pointer. -/
def update (t : FileTable) (idx : Nat) (g : File → File) : Outcome FileTable :=
  match t.files.get? idx with
  | some _ => pure ⟨t.files.modify idx g⟩
  | none => .ub

/-- `FileTable::read` (`fileread`) on the file at position `idx`, given what the call it makes
returns, a C `int`. `piperead`'s result is returned as it is. `readi` is declared to Rust as
returning a `u32`, so its result is read as the unsigned number of the same bits, added to the
offset when it is not zero, and returned as an `i32`. Locking the inode around the call is the
inode layer's business. -/
def read (t : FileTable) (idx : Nat) (result : Int32) : Outcome (FileTable × Int32) :=
  match t.files.get? idx with
  | some f =>
    if f.readable == 0 then pure (t, -1)
    else
      match f.kind with
      | .pipe => pure (t, result)
      | .inode =>
        let read := result.toUInt32
        let files :=
          if read > 0 then t.files.modify idx fun f => { f with offset := f.offset + read }
          else t.files
        pure (⟨files⟩, read.toInt32)
      | .none => .panic "fileread"
  | none => .ub

end FileTable

/-- `pipealloc`, where `page` is what `kalloc` returns: two files, the read and the write end of
a pipe at `page`; with no page, both files closed again and `-1` (`none`). `filealloc` panics
rather than return null, so the tests for null are never taken. -/
def pipealloc (t : FileTable) (page : Option Nat) : Outcome (FileTable × Option (Nat × Nat)) := do
  let (t, f0) ← t.alloc
  let (t, f1) ← t.alloc
  match page with
  | none =>
    let (t, _) ← t.close f0
    let (t, _) ← t.close f1
    pure (t, none)
  | some p =>
    let t ← t.update f0 fun f => { f with kind := .pipe, readable := 1, writable := 0, pipe := p }
    let t ← t.update f1 fun f => { f with kind := .pipe, readable := 0, writable := 1, pipe := p }
    pure (t, some (f0, f1))

/-! ## What the operations keep -/

/-- Every file in the table is referenced: a file whose last reference goes leaves the table. -/
def TableOk (t : FileTable) : Prop := ∀ f ∈ t.files.toList, 0 < f.ref_count

namespace FileTable

/-- The new file with its one reference, as `alloc` leaves it. -/
def opened : File := { File.new with ref_count := 1 }

/-- In a table whose other files are referenced, the first file equal to the unreferenced file
at `idx` is that one: the search of `close` finds the position it was called on. -/
theorem position_unreferenced {files : ArrayVec File NFILE} {idx : Nat} {f : File}
    (hf : files.get? idx = some f) (hzero : f.ref_count = 0)
    (hothers : ∀ j, j ≠ idx → ∀ g, files.get? j = some g → 0 < g.ref_count) :
    files.position (fun file => file == f) = some idx := by
  rw [ArrayVec.get?, List.getElem?_eq_some_iff] at hf
  obtain ⟨hidx, rfl⟩ := hf
  rw [ArrayVec.position_eq_some]
  refine ⟨hidx, by simp, fun j hji heq => ?_⟩
  -- a file before `idx` is referenced, so it is not the unreferenced one
  have hpos := hothers j (Nat.ne_of_lt hji) _ (List.getElem?_eq_getElem (by omega))
  rw [beq_iff_eq] at heq
  rw [heq, hzero] at hpos
  exact Int.lt_irrefl 0 hpos

/-- `close` of the last reference to the file at `idx`, in a table where every file is
referenced, removes that file and goes on to close what it was. -/
theorem close_last {t : FileTable} {idx : Nat} {f : File} (ht : TableOk t)
    (hf : t.files.get? idx = some f) (hone : f.ref_count = 1) :
    t.close idx = .ok (⟨t.files.remove idx⟩, f.closing) := by
  have hpos : (t.files.modify idx fun _ => { f with ref_count := f.ref_count - 1 }).position
      (fun file => file == { f with ref_count := f.ref_count - 1 }) = some idx := by
    apply position_unreferenced
    · rw [ArrayVec.get?_modify_self, hf]
      rfl
    · show f.ref_count - 1 = 0
      omega
    · intro j hj g hg
      rw [ArrayVec.get?_modify_ne _ _ (Ne.symm hj)] at hg
      exact ht g (ArrayVec.mem_of_get? hg)
  unfold close
  rw [hf]
  dsimp only
  rw [if_neg (by omega), if_pos (by simp [hone]), hpos]
  -- removing the position forgets the decrement written there
  have hrm : (t.files.modify idx fun _ => { f with ref_count := f.ref_count - 1 }).remove idx =
      t.files.remove idx := by
    ext1
    exact List.eraseIdx_modify_of_eq _ _ _
  dsimp only
  rw [hrm]
  rfl

end FileTable

/-! ## `read` -/

section Read

variable {t : FileTable} {idx : Nat} {f : File}

/-- A read of a readable inode file, whatever `readi` returns: the offset moves by the result
read as a `u32`, and the same bits come back as an `i32`. -/
theorem read_inode (hf : t.files.get? idx = some f) (hr : f.readable ≠ 0) (hk : f.kind = .inode)
    (result : Int32) :
    ∃ t', t.read idx result = .ok (t', result) ∧
      (t'.files.get? idx).map (·.offset) = some (f.offset + result.toUInt32) := by
  have hread : (f.readable == 0) = false := by simpa using hr
  have hbits : result.toUInt32.toInt32 = result := Int32.toInt32_toUInt32 result
  by_cases hpos : result.toUInt32 > 0
  · refine ⟨_, by simp only [FileTable.read, hf, hread, hk, hpos, if_true, hbits]; rfl, ?_⟩
    simp [hf]
  · -- a zero result leaves the offset where it is
    have hzero : result.toUInt32 = 0 := by
      simp only [gt_iff_lt, UInt32.lt_iff_toNat_lt, UInt32.toNat_zero, Nat.not_lt,
        Nat.le_zero] at hpos
      exact UInt32.toNat_inj.mp hpos
    refine ⟨t, by simp only [FileTable.read, hf, hread, hk, hpos, if_false, hbits]; rfl, ?_⟩
    simp [hf, hzero]

/-- A read of a readable inode file whose `readi` returns `-1` moves the offset back by one: the
`u32` of `-1` is positive, and adding it wraps. -/
theorem read_error_rewinds (hf : t.files.get? idx = some f) (hr : f.readable ≠ 0)
    (hk : f.kind = .inode) :
    ∃ t', t.read idx (-1) = .ok (t', -1) ∧
      (t'.files.get? idx).map (·.offset) = some (f.offset - 1) := by
  obtain ⟨t', hread, hoff⟩ := read_inode hf hr hk (-1)
  refine ⟨t', hread, ?_⟩
  have hbits : (-1 : Int32).toUInt32 = -1 := by decide
  rw [hoff, hbits, ← UInt32.sub_eq_add_neg]

/-- A readable file of the console's inode, at offset 7. -/
def consoleFile : File :=
  { File.new with kind := .inode, ref_count := 1, readable := 1, ip := 3, offset := 7 }

/-- The table of that file alone. -/
def consoleTable : FileTable := ⟨⟨[consoleFile], by decide⟩⟩

/-- When `readi` fails on it, as `consoleread` does for a killed process, its offset goes back
to 6. -/
theorem read_error_rewinds_console :
    ∃ t', consoleTable.read 0 (-1) = .ok (t', -1) ∧ (t'.files.get? 0).map (·.offset) = some 6 :=
  read_error_rewinds (f := consoleFile) rfl (by decide) rfl

end Read

/-! ## `pipealloc` -/

/-- `sys_pipe` on an empty table gives the read end position 0 and the write end position 1;
once the read end is closed, the write end's position holds nothing, and after the next
`filealloc` it holds the new file. -/
theorem pipe_write_end_moved :
    (do
      let (t, some (rf, wf)) ← pipealloc FileTable.new (some PGSIZE) | pure (none, none, none)
      let (t₁, _) ← t.close rf
      let (t₂, _) ← t₁.alloc
      pure (t.files.get? wf, t₁.files.get? wf, t₂.files.get? wf) :
        Outcome (Option File × Option File × Option File)) =
    .ok (some { File.new with kind := .pipe, ref_count := 1, writable := 1, pipe := PGSIZE },
      none, some FileTable.opened) := by
  decide

end Xv6
