import Mathlib
import Xv6.Vm
import Xv6.Fs.Dir

/-!
# The file-system calls

The calls of `sysfile.c` that change the file system (`sys_link`, `sys_unlink`, and `create`
with `sys_open`, `sys_mkdir` and `sys_mknod`), `sys_chdir` and `sys_close`, and what the rest
of the kernel does with files: `FileTable::close` of `file.rs` puts an inode back,
`FileTable::write` writes an inode file in chunks, `exit` closes the process's files and drops
its current directory, and `exec` reads a program's headers and segments.

Each of them brackets its steps on inodes with `begin_op` and `end_op`: one transaction for a
call, one for each chunk of a write, and one for each inode that a close puts back. An argument
that `argstr` or `argint` cannot fetch is `none`.

The memory steps of `exec` read and write no block. They are the answers of an `ExecVm`, so that a
result about `exec` holds whatever they answer; the steps after its transaction, which build the
user stack and switch to the new page directory, are its `finish`. A pipe's ends live outside the
file system: closing one changes nothing here, and writing to one is where the model stops.
-/

namespace Xv6.Fs

open Machine

/-- `O_RDONLY`. -/
def O_RDONLY : Int32 := 0x000
/-- `O_WRONLY`. -/
def O_WRONLY : Int32 := 0x001
/-- `O_RDWR`. -/
def O_RDWR : Int32 := 0x002
/-- `O_CREATE`. -/
def O_CREATE : Int32 := 0x200

/-- The `short` that an `int` argument becomes, as the 16 bits an inode keeps. -/
def shortBits (v : Int32) : Nat := v.toInt16.toUInt16.toNat

/-- A step outside the file system, where the model stops. -/
def outside {α : Type} : FsM α := StateT.lift .block

/-! ## Files and descriptors -/

/-- `filealloc` (`FileTable::alloc`): a new file in the table. It never returns null: a full
table panics. -/
def filealloc : FsM Nat := do
  let s ← get
  let (ftable, f) ← StateT.lift s.ftable.alloc
  set { s with ftable }
  pure f

/-- The file `f` points to. -/
def getFile (f : Nat) : FsM File := do
  match (← get).ftable.files.get? f with
  | some file => pure file
  | none => StateT.lift .ub

/-- A write to the fields of file `f`, through its pointer. -/
def updateFile (f : Nat) (g : File → File) : FsM Unit := do
  let s ← get
  let ftable ← StateT.lift (s.ftable.update f g)
  set { s with ftable }

/-- The table's part of `FileTable::close` on file `f`: a reference dropped, and what the file
was if that was its last reference. -/
def closeInTable (f : Nat) : FsM Closing := do
  let s ← get
  let (ftable, cl) ← StateT.lift (s.ftable.close f)
  set { s with ftable }
  pure cl

/-- `fileclose` (`FileTable::close`): drop a reference to file `f`; the last one of an inode file
puts the inode back in a transaction of its own. -/
def fileclose (f : Nat) : FsM Unit := do
  match ← closeInTable f with
  | .iput ip => do
    begin_op
    iput ip
    end_op
  | .pipeclose _ _ => pure ()
  | .none => pure ()

/-- `fdalloc`: the lowest free descriptor, now naming file `f`, or `-1`. -/
def fdalloc (f : Nat) : FsM Int := do
  let s ← get
  match (List.range NOFILE).find? fun fd => (s.ofile fd).isNone with
  | some fd => do
    set { s with ofile := Function.update s.ofile fd (some f) }
    pure fd
  | none => pure (-1)

/-- `argfd`: the descriptor and the file of an open descriptor argument. -/
def argfd (fd : Option Int32) : FsM (Option (Nat × Nat)) := do
  match fd with
  | none => pure none
  | some fd =>
    if fd.toInt < 0 ∨ (NOFILE : Int) ≤ fd.toInt then pure none
    else
      match (← get).ofile fd.toInt.toNat with
      | some f => pure (some (fd.toInt.toNat, f))
      | none => pure none

/-- `sys_close`. -/
def sys_close (fd : Option Int32) : FsM Int := do
  match ← argfd fd with
  | none => pure (-1)
  | some (fd, f) => do
    modify fun s => { s with ofile := Function.update s.ofile fd none }
    fileclose f
    pure 0

/-- `MAX` of `FileTable::write`: the bytes of one transaction, leaving room in `MAXOPBLOCKS` for
the inode, the indirect block, the allocation blocks and two blocks of slop. -/
def MAX : Nat := ((MAXOPBLOCKS - 1 - 1 - 2) / 2) * 512

/-- The loop of `FileTable::write` on inode `ip` of file `f`, from byte `i` of `buf`: a chunk of at
most `MAX` bytes is written at the file's offset in a transaction of its own, until a write fails.
The bytes written are returned. -/
def writeLoop (f ip : Nat) (buf : List UInt8) (i : Nat) : FsM Nat :=
  if _h : i < buf.length then do
    let n1 := if buf.length - i > MAX then MAX else buf.length - i
    begin_op
    ilock ip
    let read ← writei ip (buf.drop i) (← getFile f).offset (UInt32.ofNat n1)
    if read > 0 then
      updateFile f fun file => { file with offset := file.offset + UInt32.ofNat read.toNat }
    iunlock ip
    end_op
    if read < 0 then pure i
    else if read.toNat != n1 then kpanic "short filewrite"
    -- here `read` is `n1`
    else writeLoop f ip buf (i + n1)
  else pure i
termination_by buf.length - i
decreasing_by
  have hMAX : 0 < MAX := by decide
  split <;> omega

/-- `filewrite` (`FileTable::write`) of `buf` to file `f`: the byte count, or `-1` unless every
byte was written. -/
def filewrite (f : Nat) (buf : List UInt8) : FsM Int := do
  let file ← getFile f
  if file.writable == 0 then pure (-1)
  else
    match file.kind with
    | .pipe => outside
    | .inode => do
      let i ← writeLoop f file.ip buf 0
      pure (if i == buf.length then buf.length else -1)
    | .none => kpanic "filewrite"

/-! ## Links and names -/

/-- `create`: the inode `path` names, made with type `type` in the parent directory unless it
exists; an existing file is what `open` wants. The inode is returned locked, or `none`. -/
def create (path : List UInt8) (type major minor : Nat) : FsM (Option Nat) := do
  match ← nameiparent path with
  | (none, _) => pure none
  | (some dp, name) => do
    ilock dp
    match ← dirlookup dp name with
    | some (ip, _) => do
      iunlockput dp
      ilock ip
      if type == T_FILE && (← getInode ip).type == T_FILE then pure (some ip)
      else do
        iunlockput ip
        pure none
    | none => do
      -- `ialloc` panics rather than return null
      let ip ← ialloc (← getInode dp).dev type
      ilock ip
      modifyInode ip fun x => { x with major := major, minor := minor, nlink := 1 }
      iupdate ip
      if type == T_DIR then do
        -- `..` links the parent; `.` adds no link to the new directory
        modifyInode dp fun x => { x with nlink := x.nlink + 1 }
        iupdate dp
        if (← dirlink ip dot (← getInode ip).inum) < 0 then kpanic "create dots"
        else do
          if (← dirlink ip dotdot (← getInode dp).inum) < 0 then kpanic "create dots"
      if (← dirlink dp name (← getInode ip).inum) < 0 then kpanic "create: dirlink"
      iunlockput dp
      pure (some ip)

/-- `sys_link`: the path `new` names the inode of `old` too. A directory cannot be linked. -/
def sys_link (old new : Option (List UInt8)) : FsM Int := do
  match old, new with
  | some old, some new => do
    begin_op
    match ← namei old with
    | none => do
      end_op
      pure (-1)
    | some ip => do
      ilock ip
      if (← getInode ip).type == T_DIR then do
        iunlockput ip
        end_op
        pure (-1)
      else do
        modifyInode ip fun x => { x with nlink := x.nlink + 1 }
        iupdate ip
        iunlock ip
        -- `bad:` takes the new link back
        let bad : FsM Int := do
          ilock ip
          modifyInode ip fun x => { x with nlink := x.nlink - 1 }
          iupdate ip
          iunlockput ip
          end_op
          pure (-1)
        match ← nameiparent new with
        | (none, _) => bad
        | (some dp, name) => do
          ilock dp
          if (← getInode dp).dev != (← getInode ip).dev then do
            iunlockput dp
            bad
          else do
            if (← dirlink dp name (← getInode ip).inum) < 0 then do
              iunlockput dp
              bad
            else do
              iunlockput dp
              iput ip
              end_op
              pure 0
  | _, _ => pure (-1)

/-- The loop of `isdirempty` over the entries at `offs`. -/
def isdiremptyLoop (dp : Nat) : List UInt32 → FsM Bool
  | [] => pure true
  | off :: offs => do
    match ← readi dp off 16 with
    | some bytes =>
      if bytes.length != DIRENT_SIZE then kpanic "isdirempty: readi"
      else if (readDirent bytes).inum != 0 then pure false
      else isdiremptyLoop dp offs
    | none => kpanic "isdirempty: readi"

/-- `isdirempty`: no live entry past `.` and `..`. -/
def isdirempty (dp : Nat) : FsM Bool := do
  isdiremptyLoop dp ((direntOffsets (← getInode dp).size).drop 2)

/-- `sys_unlink`: the entry `path` names is cleared, and its inode loses a link. `.`, `..` and a
directory with entries cannot be unlinked. -/
def sys_unlink (path : Option (List UInt8)) : FsM Int := do
  match path with
  | none => pure (-1)
  | some path => do
    begin_op
    match ← nameiparent path with
    | (none, _) => do
      end_op
      pure (-1)
    | (some dp, name) => do
      ilock dp
      let bad : FsM Int := do
        iunlockput dp
        end_op
        pure (-1)
      if namecmp name dot || namecmp name dotdot then bad
      else do
        match ← dirlookup dp name with
        | none => bad
        | some (ip, off) => do
          ilock ip
          if (← getInode ip).nlink < 1 then kpanic "unlink: nlink < 1"
          else do
            -- `isdirempty` is only asked of a directory
            let busy ← if (← getInode ip).type == T_DIR then do
                pure !(← isdirempty ip)
              else pure false
            if busy then do
              iunlockput ip
              bad
            else do
              let r ← writei dp (List.replicate DIRENT_SIZE 0) off 16
              if r != DIRENT_SIZE then kpanic "unlink: writei"
              else do
                if (← getInode ip).type == T_DIR then do
                  modifyInode dp fun x => { x with nlink := x.nlink - 1 }
                  iupdate dp
                iunlockput dp
                modifyInode ip fun x => { x with nlink := x.nlink - 1 }
                iupdate ip
                iunlockput ip
                end_op
                pure 0

/-- The end of `sys_open`, with inode `ip` locked: a file and a descriptor for it, or, with no
descriptor free, both given back and `-1`. `filealloc` never returns null. -/
def openFile (ip : Nat) (omode : Int32) : FsM Int := do
  let f ← filealloc
  let fd ← fdalloc f
  if fd < 0 then do
    fileclose f
    iunlockput ip
    end_op
    pure (-1)
  else do
    iunlock ip
    end_op
    updateFile f fun file =>
      { file with
        kind := .inode, ip := ip, offset := 0,
        readable := if omode &&& O_WRONLY != 0 then 0 else 1,
        writable := if omode &&& O_WRONLY != 0 || omode &&& O_RDWR != 0 then 1 else 0 }
    pure fd

/-- `sys_open`: a descriptor for the inode `path` names, made first with `O_CREATE`. A directory
opens only for reading. -/
def sys_open (path : Option (List UInt8)) (omode : Option Int32) : FsM Int := do
  match path, omode with
  | some path, some omode => do
    begin_op
    if omode &&& O_CREATE != 0 then do
      match ← create path T_FILE 0 0 with
      | none => do
        end_op
        pure (-1)
      | some ip => openFile ip omode
    else do
      match ← namei path with
      | none => do
        end_op
        pure (-1)
      | some ip => do
        ilock ip
        if (← getInode ip).type == T_DIR && omode != O_RDONLY then do
          iunlockput ip
          end_op
          pure (-1)
        else openFile ip omode
  | _, _ => pure (-1)

/-- `sys_mkdir`. -/
def sys_mkdir (path : Option (List UInt8)) : FsM Int := do
  begin_op
  match path with
  | some path => do
    match ← create path T_DIR 0 0 with
    | some ip => do
      iunlockput ip
      end_op
      pure 0
    | none => do
      end_op
      pure (-1)
  | none => do
    end_op
    pure (-1)

/-- `sys_mknod`: a device inode, with the `short`s of its major and minor numbers. -/
def sys_mknod (path : Option (List UInt8)) (major minor : Option Int32) : FsM Int := do
  begin_op
  match path, major, minor with
  | some path, some major, some minor => do
    match ← create path T_DEV (shortBits major) (shortBits minor) with
    | some ip => do
      iunlockput ip
      end_op
      pure 0
    | none => do
      end_op
      pure (-1)
  | _, _, _ => do
    end_op
    pure (-1)

/-- `sys_chdir`: the directory `path` names becomes the current directory, and the old one is put
back. The current directory of a running process is never null. -/
def sys_chdir (path : Option (List UInt8)) : FsM Int := do
  begin_op
  let ip ← match path with
    | some path => namei path
    | none => pure none
  match ip with
  | none => do
    end_op
    pure (-1)
  | some ip => do
    ilock ip
    if (← getInode ip).type != T_DIR then do
      iunlockput ip
      end_op
      pure (-1)
    else do
      iunlock ip
      match (← get).cwd with
      | some cwd => iput cwd
      | none => StateT.lift .ub
      end_op
      modify fun s => { s with cwd := some ip }
      pure 0

/-! ## Exit and exec -/

/-- The file-system part of `exit`: every open file is closed, then the current directory is put
back in a transaction. `init` may not exit. -/
def exit (isInit : Bool) : FsM Unit := do
  if isInit then kpanic "init exiting"
  else do
    (List.range NOFILE).forM fun fd => do
      match (← get).ofile fd with
      | some f => do
        fileclose f
        modify fun s => { s with ofile := Function.update s.ofile fd none }
      | none => pure ()
    begin_op
    match (← get).cwd with
    | some cwd => iput cwd
    | none => StateT.lift .ub
    end_op
    modify fun s => { s with cwd := none }

/-- `ELF_MAGIC`. -/
def ELF_MAGIC : Nat := 0x464C457F
/-- `ELF_PROG_LOAD`. -/
def ELF_PROG_LOAD : Nat := 1
/-- `sizeof(struct elfhdr)`. -/
def ELFHDR_SIZE : Nat := 52
/-- `sizeof(struct proghdr)`. -/
def PROGHDR_SIZE : Nat := 32

/-- The answers of the memory steps of `exec`, none of which reads or writes a block. -/
structure ExecVm where
  /-- `setupkvm` makes a page directory. -/
  setupkvm : Bool
  /-- `allocuvm(pgdir, oldsz, newsz)`: the new size, or zero. -/
  allocuvm : UInt32 → UInt32 → UInt32
  /-- `walk_pgdir` in `uvm_load` finds the page of an address. -/
  mapped : UInt32 → Bool
  /-- The steps after the transaction, from the user stack to the switch of page directory,
  succeed. -/
  finish : Bool

/-- The loop of `uvm_load` over the page offsets `is`: each page is read from the file. -/
def loadLoop (vm : ExecVm) (ip : Nat) (addr offset size : UInt32) : List UInt32 → FsM Bool
  | [] => pure true
  | i :: is =>
    if !vm.mapped (addr + i) then kpanic "uvm_load: address should exist"
    else do
      let n := if size - i < UInt32.ofNat PGSIZE then size - i else UInt32.ofNat PGSIZE
      match ← readi ip (offset + i) n with
      | some bytes =>
        if bytes.length != n.toNat then pure false
        else loadLoop vm ip addr offset size is
      | none => pure false

/-- `loaduvm` (`uvm_load`): `size` bytes of the file from `offset` into the pages from `addr`;
`false` when a read comes short. -/
def loaduvm (vm : ExecVm) (ip : Nat) (addr offset size : UInt32) : FsM Bool :=
  if addr.toNat % PGSIZE != 0 then kpanic "uvm_load: addr must be page aligned"
  else loadLoop vm ip addr offset size (stepRange 0 size)

/-- The loop of `exec` over the program headers: `k` headers left from offset `off`, the memory
grown to `sz`. Each loadable segment grows the memory and is read in. The size reached, or `none`
for `goto bad`. -/
def loadSegments (vm : ExecVm) (ip : Nat) : Nat → UInt32 → UInt32 → FsM (Option UInt32)
  | 0, _, sz => pure (some sz)
  | k + 1, off, sz => do
    match ← readi ip off (UInt32.ofNat PROGHDR_SIZE) with
    | none => pure none
    | some ph =>
      let field (o : Nat) : UInt32 := UInt32.ofNat (readLE (fun j => ph.getD j 0) o 4)
      let type := field 0
      let poff := field 4
      let vaddr := field 8
      let filesz := field 16
      let memsz := field 20
      if ph.length != PROGHDR_SIZE then pure none
      else if type != UInt32.ofNat ELF_PROG_LOAD then
        loadSegments vm ip k (off + UInt32.ofNat PROGHDR_SIZE) sz
      else if memsz < filesz then pure none
      else if vaddr + memsz < vaddr then pure none
      else
        let sz := vm.allocuvm sz (vaddr + memsz)
        if sz == 0 then pure none
        else if vaddr.toNat % PGSIZE != 0 then pure none
        else do
          if ← loaduvm vm ip vaddr poff filesz then
            loadSegments vm ip k (off + UInt32.ofNat PROGHDR_SIZE) sz
          else pure none

/-- `exec` of the program at `path`: its ELF header and segments are read in one transaction. -/
def exec (vm : ExecVm) (path : List UInt8) : FsM Int := do
  begin_op
  match ← namei path with
  | none => do
    end_op
    pure (-1)
  | some ip => do
    ilock ip
    -- `bad:` with the inode still held; freeing the page directory is memory only
    let bad : FsM Int := do
      iunlockput ip
      end_op
      pure (-1)
    match ← readi ip 0 (UInt32.ofNat ELFHDR_SIZE) with
    | none => bad
    | some elf =>
      let field (o n : Nat) : Nat := readLE (fun j => elf.getD j 0) o n
      if elf.length != ELFHDR_SIZE then bad
      else if field 0 4 != ELF_MAGIC then bad
      else if !vm.setupkvm then bad
      else do
        match ← loadSegments vm ip (field 44 2) (UInt32.ofNat (field 28 4)) 0 with
        | none => bad
        | some _ => do
          iunlockput ip
          end_op
          pure (if vm.finish then 0 else -1)

/-! ## The calls -/

/-- A file-system call of a process, with its arguments: the system calls that change the file
system, a write to an open file, `exit` and `exec`. -/
inductive FsCall where
  | sys_link (old new : Option (List UInt8))
  | sys_unlink (path : Option (List UInt8))
  | sys_open (path : Option (List UInt8)) (omode : Option Int32)
  | sys_mkdir (path : Option (List UInt8))
  | sys_mknod (path : Option (List UInt8)) (major minor : Option Int32)
  | sys_chdir (path : Option (List UInt8))
  | sys_close (fd : Option Int32)
  | filewrite (f : Nat) (buf : List UInt8)
  | exit (isInit : Bool)
  | exec (vm : ExecVm) (path : List UInt8)

/-- A call's run, with its result dropped. -/
def FsCall.run : FsCall → FsM Unit
  | .sys_link old new => Xv6.Fs.sys_link old new >>= fun _ => pure ()
  | .sys_unlink path => Xv6.Fs.sys_unlink path >>= fun _ => pure ()
  | .sys_open path omode => Xv6.Fs.sys_open path omode >>= fun _ => pure ()
  | .sys_mkdir path => Xv6.Fs.sys_mkdir path >>= fun _ => pure ()
  | .sys_mknod path major minor => Xv6.Fs.sys_mknod path major minor >>= fun _ => pure ()
  | .sys_chdir path => Xv6.Fs.sys_chdir path >>= fun _ => pure ()
  | .sys_close fd => Xv6.Fs.sys_close fd >>= fun _ => pure ()
  | .filewrite f buf => Xv6.Fs.filewrite f buf >>= fun _ => pure ()
  | .exit isInit => Xv6.Fs.exit isInit
  | .exec vm path => Xv6.Fs.exec vm path >>= fun _ => pure ()

end Xv6.Fs
