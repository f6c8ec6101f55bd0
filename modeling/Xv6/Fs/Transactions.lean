import Mathlib
import Xv6.Lib.Hoare
import Xv6.Fs.Sysfile

/-!
# Every `log_write` runs inside a transaction

`log_write` panics with `log_write outside of trans` when the log counts no outstanding
operation. `Moves i j m` says that from a state with `k + i` operations outstanding, for every
`k`, the step `m` never reaches that panic and, if it completes, leaves `k + j` outstanding.
`begin_op` moves the count from `k` to `k + 1` and `end_op` back, `log_write` keeps it and needs
it positive, and every other step of the model keeps it.

Every function of `fs.c` below the calls moves `1` to `1`: run inside a transaction, it stays
inside it. Each call of `sysfile.c`, `FileTable::close`, `FileTable::write`, `exit` and `exec`
moves `0` to `0`: it opens its transactions and closes them on every path. The loops are proved
by induction on the values the loop variable takes, and the recursions of `namex`, `readi`,
`writei` and `FileTable::write` by their own well-founded recursion.
-/

namespace Xv6.Fs

open Machine

/-- The panic of `log_write` on a log that counts no outstanding operation. -/
def OutsideTrans (msg : String) : Prop := msg = "log_write outside of trans"

instance : DecidablePred OutsideTrans := fun msg =>
  inferInstanceAs (Decidable (msg = "log_write outside of trans"))

/-- From every state with `k + i` operations outstanding, `m` never reaches
`log_write outside of trans`, and a completed run leaves `k + j` outstanding. -/
def Moves {α : Type} (i j : Nat) (m : FsM α) : Prop :=
  ∀ k, Triple OutsideTrans (fun s => s.log.outstanding = k + i) m
    fun _ s => s.log.outstanding = k + j

namespace Moves

variable {α β : Type} {i j l : Nat}

theorem pure (a : α) : Moves i i (Pure.pure a : FsM α) :=
  fun _ => Triple.pure fun _ hs => hs

theorem bind {m : FsM α} {f : α → FsM β} (hm : Moves i j m) (hf : ∀ a, Moves j l (f a)) :
    Moves i l (m >>= f) :=
  fun k => Triple.bind (hm k) fun a => hf a k

theorem ite {c : Prop} [Decidable c] {m₁ m₂ : FsM α} (h₁ : c → Moves i j m₁)
    (h₂ : ¬ c → Moves i j m₂) : Moves i j (if c then m₁ else m₂) :=
  fun k => Triple.ite (fun hc => h₁ hc k) fun hc => h₂ hc k

/-- A step proved for a count is proved for every larger one. -/
theorem shift {m : FsM α} (h : Moves i j m) (d : Nat) : Moves (i + d) (j + d) m := by
  intro k
  refine Triple.conseq (h (k + d)) (fun s hs => ?_) fun _ s hs => ?_
  · rw [hs]
    omega
  · rw [hs]
    omega

/-- A step that never reaches the panic and leaves the count alone moves every count to itself. -/
theorem of_run {m : FsM α} (hpanic : ∀ s msg, m.run s = .panic msg → ¬ OutsideTrans msg)
    (hok : ∀ s a s', m.run s = .ok (a, s') → s'.log.outstanding = s.log.outstanding) :
    Moves i i m := by
  intro k s hs
  refine ⟨hpanic s, fun a s' hm => ?_⟩
  show s'.log.outstanding = k + i
  rw [hok s a s' hm, hs]

theorem get : Moves i i (MonadState.get : FsM FsState) :=
  of_run (fun _ _ h => by cases h) fun _ _ _ h => by
    cases h
    rfl

/-- A change to the state that leaves the log alone. -/
theorem modify {f : FsState → FsState} (hf : ∀ s, (f s).log = s.log) :
    Moves i i (modify f : FsM PUnit) :=
  of_run (fun _ _ h => by cases h) fun s _ _ h => by
    cases h
    exact congrArg Log.outstanding (hf s)

/-- A step of `Outcome` that never panics with the message. -/
theorem lift {x : Outcome α} (hx : ∀ msg, x = .panic msg → ¬ OutsideTrans msg) :
    Moves i i (StateT.lift x : FsM α) := by
  intro k
  refine Triple.conseq (Triple.lift hx) (fun s hs a _ => hs) fun _ _ hs => hs

/-- A lifted step that never completes moves any count to any other, if it never panics with the
message. -/
theorem stop {x : Outcome α} (hx : ∀ a, x ≠ .ok a)
    (hpanic : ∀ msg, x = .panic msg → ¬ OutsideTrans msg) : Moves i j (StateT.lift x : FsM α) := by
  intro k s _
  have hrun : (StateT.lift x : FsM α).run s = (x >>= fun a => .ok (a, s)) := rfl
  refine ⟨fun msg h => ?_, fun a s' h => ?_⟩
  · rw [hrun, Outcome.bind_eq_panic] at h
    rcases h with h | ⟨a, ha, -⟩
    · exact hpanic msg h
    · exact absurd ha (hx a)
  · obtain ⟨a', ha, -⟩ := Outcome.bind_eq_ok.mp (hrun ▸ h)
    exact absurd ha (hx a')

theorem kpanic {msg : String} (h : msg ≠ "log_write outside of trans") :
    Moves i j (kpanic msg : FsM α) :=
  stop (fun _ h => by cases h) fun _ hm => by
    cases hm
    exact h

theorem ub : Moves i j (StateT.lift .ub : FsM α) :=
  stop (fun _ h => by cases h) fun _ hm => by cases hm

theorem sleepForever : Moves i j (sleepForever : FsM α) :=
  stop (fun _ h => by cases h) fun _ hm => by cases hm

theorem outside : Moves i j (outside : FsM α) :=
  stop (fun _ h => by cases h) fun _ hm => by cases hm

/-- A call that opens and closes its own transactions may run inside another one. -/
theorem inside {m : FsM α} (h : Moves 0 0 m) : Moves 1 1 m :=
  h.shift 1

/-- A step that first updates the state through a step of `Outcome` on it: the rule for a
`get`, a lifted step and a `set` that leaves the log alone. -/
theorem of_run_bind {γ : Type} {m : FsM β} {x : FsState → Outcome γ} {g : FsState → γ → FsState}
    {f : γ → FsM β} (hrun : ∀ t, m.run t = (x t >>= fun c => (f c).run (g t c)))
    (hx : ∀ t msg, x t = .panic msg → ¬ OutsideTrans msg) (hg : ∀ t c, (g t c).log = t.log)
    (hf : ∀ c, Moves i j (f c)) : Moves i j m := by
  intro k t ht
  -- the update keeps the log, so the rest starts from the same count
  have hpre : ∀ c, (g t c).log.outstanding = k + i := fun c => by rw [hg, ht]
  refine ⟨fun msg h => ?_, fun b t' h => ?_⟩
  · rw [hrun, Outcome.bind_eq_panic] at h
    rcases h with h | ⟨c, -, h⟩
    · exact hx t msg h
    · exact (hf c k (g t c) (hpre c)).1 msg h
  · rw [hrun, Outcome.bind_eq_ok] at h
    obtain ⟨c, -, h⟩ := h
    exact (hf c k (g t c) (hpre c)).2 b t' h

/-- The loop rule: a body that keeps the count keeps it over the whole list. -/
theorem forM {γ : Type} {l : List γ} {f : γ → FsM PUnit} (h : ∀ x ∈ l, Moves i i (f x)) :
    Moves i i (l.forM f) :=
  fun k => Triple.forM fun x hx => h x hx k

end Moves

/-! ## The log's calls -/

theorem setBlock_moves {i : Nat} (b : Nat) (data : Block) : Moves i i (setBlock b data) :=
  Moves.modify fun _ => rfl

theorem modifyInode_moves {i : Nat} (n : Nat) (f : Inode → Inode) :
    Moves i i (modifyInode n f) :=
  Moves.modify fun _ => rfl

theorem getInode_moves {i : Nat} (n : Nat) : Moves i i (getInode n) :=
  Moves.bind Moves.get fun _ => Moves.pure _

/-- What a run of `log_write` does: the log's step, and the block added to the trace. -/
theorem log_write_run (b : Nat) (t : FsState) :
    (log_write b).run t = (Xv6.log_write t.log b >>= fun log =>
      .ok ((), { t with log, written := t.written.modifyLast (· ++ [b]) })) := by
  simp [log_write]

/-- `log_write` panics outside a transaction only on a log that counts no operation. -/
theorem log_write_outside {log : Log} {b : Nat}
    (h : Xv6.log_write log b = .panic "log_write outside of trans") : log.outstanding < 1 := by
  unfold Xv6.log_write at h
  split_ifs at h with hbig hout
  · exact absurd (Outcome.panic.inj h) (by decide)
  · exact hout

/-- `log_write` needs an operation outstanding, and keeps the count. -/
theorem log_write_moves (b : Nat) : Moves 1 1 (log_write b) := by
  intro k t ht
  refine ⟨fun msg h hbad => ?_, fun a t' h => ?_⟩
  · rw [log_write_run, Outcome.bind_eq_panic] at h
    rcases h with h | ⟨log, -, h⟩
    · cases hbad
      have := log_write_outside h
      omega
    · cases h
  · rw [log_write_run, Outcome.bind_eq_ok] at h
    obtain ⟨log, hlog, h⟩ := h
    cases h
    obtain ⟨-, -, -, rfl⟩ := log_write_eq_ok.mp hlog
    exact ht

theorem begin_op_run (t : FsState) :
    begin_op.run t = (Xv6.begin_op t.log >>= fun log =>
      .ok ((), { t with log, written := t.written ++ [[]] })) := by
  simp [begin_op]

/-- `begin_op` counts one more operation. -/
theorem begin_op_moves : Moves 0 1 begin_op := by
  intro k t ht
  refine ⟨fun msg h _ => ?_, fun a t' h => ?_⟩
  · rw [begin_op_run, Outcome.bind_eq_panic] at h
    rcases h with h | ⟨log, -, h⟩
    · unfold Xv6.begin_op at h
      split_ifs at h
    · cases h
  · rw [begin_op_run, Outcome.bind_eq_ok] at h
    obtain ⟨log, hlog, h⟩ := h
    cases h
    obtain ⟨-, -, rfl⟩ := begin_op_eq_ok.mp hlog
    show t.log.outstanding + 1 = k + 1
    rw [ht]

theorem end_op_run (t : FsState) :
    end_op.run t = (Xv6.end_op t.log >>= fun r =>
      .ok ((), { t with log := if r.2 then commitDone r.1 else r.1 })) := by
  simp [end_op]

/-- `end_op` counts one operation fewer; the commit it may start keeps the count. -/
theorem end_op_moves : Moves 1 0 end_op := by
  intro k t ht
  refine ⟨fun msg h hbad => ?_, fun a t' h => ?_⟩
  · rw [end_op_run, Outcome.bind_eq_panic] at h
    rcases h with h | ⟨r, -, h⟩
    · unfold Xv6.end_op at h
      dsimp only at h
      split_ifs at h
      cases h
      exact absurd hbad (by decide)
    · cases h
  · rw [end_op_run, Outcome.bind_eq_ok] at h
    obtain ⟨⟨log, c⟩, hlog, h⟩ := h
    cases h
    obtain ⟨-, -, hout, -⟩ := end_op_eq_ok hlog
    have hcommit : (if c then commitDone log else log).outstanding = log.outstanding := by
      split <;> rfl
    show (if c then commitDone log else log).outstanding = k + 0
    rw [hcommit, hout, ht]
    rfl

/-! ## Blocks and inodes -/

theorem bzero_moves (bno : Nat) : Moves 1 1 (bzero bno) :=
  Moves.bind (setBlock_moves _ _) fun _ => log_write_moves bno

theorem ballocLoop_moves (bs : List Nat) : Moves 1 1 (ballocLoop bs) := by
  induction bs with
  | nil =>
    rw [ballocLoop]
    exact Moves.kpanic (by decide)
  | cons b bs ih =>
    rw [ballocLoop]
    refine Moves.bind Moves.get fun s => ?_
    dsimp only
    split
    · -- a free bit: mark it, log the bitmap block, zero the block
      exact Moves.bind (setBlock_moves _ _) fun _ => Moves.bind (log_write_moves _) fun _ =>
        Moves.bind (bzero_moves _) fun _ => Moves.pure _
    · exact ih

theorem balloc_moves : Moves 1 1 balloc :=
  Moves.bind Moves.get fun _ => ballocLoop_moves _

theorem bfree_moves (b : Nat) : Moves 1 1 (bfree b) := by
  unfold bfree
  refine Moves.bind Moves.get fun s => ?_
  dsimp only
  exact Moves.ite (fun _ => Moves.kpanic (by decide)) fun _ =>
    Moves.bind (setBlock_moves _ _) fun _ => log_write_moves _

theorem iget_moves {i : Nat} (dev inum : Nat) : Moves i i (iget dev inum) := by
  unfold iget
  refine Moves.bind Moves.get fun s => ?_
  split
  · exact Moves.bind (modifyInode_moves _ _) fun _ => Moves.pure _
  · split
    · exact Moves.bind (modifyInode_moves _ _) fun _ => Moves.pure _
    · exact Moves.kpanic (by decide)

theorem idup_moves {i : Nat} (n : Nat) : Moves i i (idup n) :=
  Moves.bind (modifyInode_moves _ _) fun _ => Moves.pure _

theorem iallocLoop_moves (dev type : Nat) (inums : List Nat) :
    Moves 1 1 (iallocLoop dev type inums) := by
  induction inums with
  | nil =>
    rw [iallocLoop]
    exact Moves.kpanic (by decide)
  | cons inum inums ih =>
    rw [iallocLoop]
    refine Moves.bind Moves.get fun s => ?_
    dsimp only
    exact Moves.ite (fun _ => Moves.bind (setBlock_moves _ _) fun _ =>
      Moves.bind (log_write_moves _) fun _ => iget_moves _ _) fun _ => ih

theorem ialloc_moves (dev type : Nat) : Moves 1 1 (ialloc dev type) :=
  Moves.bind Moves.get fun _ => iallocLoop_moves _ _ _

theorem iupdate_moves (n : Nat) : Moves 1 1 (iupdate n) := by
  unfold iupdate
  refine Moves.bind Moves.get fun s => ?_
  exact Moves.bind (setBlock_moves _ _) fun _ => log_write_moves _

theorem ilock_moves {i : Nat} (n : Nat) : Moves i i (ilock n) := by
  unfold ilock
  refine Moves.bind Moves.get fun s => ?_
  dsimp only
  refine Moves.ite (fun _ => Moves.kpanic (by decide)) fun _ =>
    Moves.ite (fun _ => Moves.sleepForever) fun _ => ?_
  refine Moves.bind (modifyInode_moves _ _) fun _ => ?_
  -- the copy of the disk inode is read unless it is valid
  refine Moves.ite (fun _ => ?_) fun _ => Moves.pure _
  exact Moves.bind (modifyInode_moves _ _) fun _ =>
    Moves.ite (fun _ => Moves.kpanic (by decide)) fun _ => Moves.pure _

theorem iunlock_moves {i : Nat} (n : Nat) : Moves i i (iunlock n) :=
  Moves.bind (getInode_moves _) fun _ =>
    Moves.ite (fun _ => Moves.kpanic (by decide)) fun _ => modifyInode_moves _ _

/-! ## Contents -/

theorem bmap_moves (n bn : Nat) : Moves 1 1 (bmap n bn) := by
  unfold bmap
  refine Moves.bind (getInode_moves _) fun ip => ?_
  split
  · -- a direct block, allocated if there is none
    extract_lets addr
    split
    · exact Moves.bind balloc_moves fun _ => Moves.bind (modifyInode_moves _ _) fun _ =>
        Moves.pure _
    · exact Moves.pure _
  · split
    · -- the indirect block, allocated first if there is none, then its entry
      extract_lets ind entry
      have hentry : ∀ ind, Moves 1 1 (entry ind) := by
        intro ind
        refine Moves.bind Moves.get fun s => ?_
        extract_lets addr
        split
        · exact Moves.bind balloc_moves fun _ => Moves.bind Moves.get fun _ =>
            Moves.bind (setBlock_moves _ _) fun _ => Moves.bind (log_write_moves _) fun _ =>
              Moves.pure _
        · exact Moves.pure _
      split
      · exact Moves.bind balloc_moves fun _ => Moves.bind (modifyInode_moves _ _) fun _ =>
          Moves.bind (Moves.pure _) hentry
      · exact Moves.bind (Moves.pure _) hentry
    · exact Moves.kpanic (by decide)

theorem itrunc_moves (n : Nat) : Moves 1 1 (itrunc n) := by
  unfold itrunc
  refine Moves.bind (Moves.forM fun k _ => ?_) fun _ => ?_
  · -- a direct block
    refine Moves.bind (getInode_moves _) fun ip => ?_
    extract_lets a
    exact Moves.ite (fun _ => Moves.bind (bfree_moves _) fun _ => modifyInode_moves _ _)
      fun _ => Moves.pure _
  · refine Moves.bind (getInode_moves _) fun ip => ?_
    extract_lets ind finish
    have hfinish : ∀ r, Moves 1 1 (finish r) := fun _ =>
      Moves.bind (modifyInode_moves _ _) fun _ => iupdate_moves _
    split
    · -- the entries of the indirect block, then the block itself
      refine Moves.bind (Moves.forM fun j _ => ?_) fun _ => ?_
      · refine Moves.bind Moves.get fun s => ?_
        extract_lets a
        exact Moves.ite (fun _ => bfree_moves _) fun _ => Moves.pure _
      · exact Moves.bind (bfree_moves _) fun _ => Moves.bind (modifyInode_moves _ _) hfinish
    · exact hfinish ()

theorem iput_moves (n : Nat) : Moves 1 1 (iput n) := by
  unfold iput
  refine Moves.bind (getInode_moves _) fun ip => ?_
  split
  · exact Moves.sleepForever
  · refine Moves.bind (modifyInode_moves _ _) fun _ => ?_
    extract_lets release
    have hrelease : ∀ r, Moves 1 1 (release r) := fun _ => modifyInode_moves _ _
    split
    · -- the last reference to an inode with no links truncates and frees it
      exact Moves.bind (itrunc_moves _) fun _ => Moves.bind (modifyInode_moves _ _) fun _ =>
        Moves.bind (iupdate_moves _) fun _ => Moves.bind (modifyInode_moves _ _) hrelease
    · exact hrelease ()

theorem iunlockput_moves (n : Nat) : Moves 1 1 (iunlockput n) :=
  Moves.bind (iunlock_moves _) fun _ => iput_moves _

theorem readiLoop_moves (n : Nat) (off tot len : UInt32) :
    Moves 1 1 (readiLoop n off tot len) := by
  rw [readiLoop]
  split
  · rename_i h
    refine Moves.bind (bmap_moves _ _) fun b => ?_
    exact Moves.bind Moves.get fun s => Moves.bind (readiLoop_moves n _ _ len) fun _ => Moves.pure _
  · exact Moves.pure _
termination_by (len - tot).toNat
decreasing_by exact chunk_decreasing (by assumption)

theorem readi_moves (n : Nat) (off len : UInt32) : Moves 1 1 (readi n off len) := by
  unfold readi
  refine Moves.bind (getInode_moves _) fun ip => ?_
  split
  · -- a device: the console's read waits for input
    exact Moves.ite (fun _ => Moves.pure _) fun _ => Moves.sleepForever
  · split
    · exact Moves.pure _
    · extract_lets m
      exact Moves.bind (readiLoop_moves _ _ _ _) fun _ => Moves.pure _

theorem writeiLoop_moves (n : Nat) (src : List UInt8) (off tot len : UInt32) :
    Moves 1 1 (writeiLoop n src off tot len) := by
  rw [writeiLoop]
  split
  · rename_i h
    refine Moves.bind (bmap_moves _ _) fun b => ?_
    refine Moves.bind Moves.get fun s => ?_
    exact Moves.bind (setBlock_moves _ _) fun _ => Moves.bind (log_write_moves _) fun _ =>
      writeiLoop_moves n src _ _ len
  · exact Moves.pure _
termination_by (len - tot).toNat
decreasing_by exact chunk_decreasing (by assumption)

theorem writei_moves (n : Nat) (src : List UInt8) (off len : UInt32) :
    Moves 1 1 (writei n src off len) := by
  unfold writei
  refine Moves.bind (getInode_moves _) fun ip => ?_
  split
  · -- the console's write
    exact Moves.ite (fun _ => Moves.pure _) fun _ => Moves.bind (iunlock_moves _) fun _ =>
      Moves.bind (ilock_moves _) fun _ => Moves.pure _
  · split
    · exact Moves.pure _
    · split
      · exact Moves.pure _
      · -- the file grows when the write ends past its size
        refine Moves.bind (writeiLoop_moves _ _ _ _ _) fun off => ?_
        refine Moves.bind (getInode_moves _) fun ip' => ?_
        extract_lets finish
        exact Moves.ite (fun _ => Moves.bind (modifyInode_moves _ _) fun _ =>
          Moves.bind (iupdate_moves _) fun _ => Moves.pure _) fun _ => Moves.pure _

/-! ## Directories and path names -/

theorem dirlookupLoop_moves (dp : Nat) (name : List UInt8) (offs : List UInt32) :
    Moves 1 1 (dirlookupLoop dp name offs) := by
  induction offs with
  | nil =>
    rw [dirlookupLoop]
    exact Moves.pure _
  | cons off offs ih =>
    rw [dirlookupLoop]
    refine Moves.bind (readi_moves _ _ _) fun read => ?_
    split
    · -- an entry was read: skip a free one, take a matching one
      split
      · exact Moves.kpanic (by decide)
      · extract_lets de
        split
        · exact ih
        · split
          · exact Moves.bind (getInode_moves _) fun _ => Moves.bind (iget_moves _ _) fun _ =>
              Moves.pure _
          · exact ih
    · exact Moves.kpanic (by decide)

theorem dirlookup_moves (dp : Nat) (name : List UInt8) : Moves 1 1 (dirlookup dp name) :=
  Moves.bind (getInode_moves _) fun _ =>
    Moves.ite (fun _ => Moves.kpanic (by decide)) fun _ => dirlookupLoop_moves _ _ _

theorem emptySlotLoop_moves (dp : Nat) (past : UInt32) (offs : List UInt32) :
    Moves 1 1 (emptySlotLoop dp past offs) := by
  induction offs with
  | nil =>
    rw [emptySlotLoop]
    exact Moves.pure _
  | cons off offs ih =>
    rw [emptySlotLoop]
    refine Moves.bind (readi_moves _ _ _) fun read => ?_
    split
    · exact Moves.ite (fun _ => Moves.kpanic (by decide)) fun _ =>
        Moves.ite (fun _ => Moves.pure _) fun _ => ih
    · exact Moves.kpanic (by decide)

theorem dirlink_moves (dp : Nat) (name : List UInt8) (inum : Nat) :
    Moves 1 1 (dirlink dp name inum) := by
  unfold dirlink
  refine Moves.bind (dirlookup_moves _ _) fun found => ?_
  split
  · -- the name is there already
    exact Moves.bind (iput_moves _) fun _ => Moves.pure _
  · refine Moves.bind (getInode_moves _) fun ip => ?_
    extract_lets offs
    exact Moves.bind (emptySlotLoop_moves _ _ _) fun _ => Moves.bind (writei_moves _ _ _ _) fun _ =>
      Moves.ite (fun _ => Moves.kpanic (by decide)) fun _ => Moves.pure _

theorem namexLoop_moves (b : Bool) (ip : Nat) (path lastName : List UInt8) :
    Moves 1 1 (namexLoop b ip path lastName) := by
  rw [namexLoop]
  split
  · -- no element left
    exact Moves.ite (fun _ => Moves.bind (iput_moves _) fun _ => Moves.pure _) fun _ => Moves.pure _
  · rename_i name rest _
    refine Moves.bind (ilock_moves _) fun _ => Moves.bind (getInode_moves _) fun dir => ?_
    split
    · exact Moves.bind (iunlockput_moves _) fun _ => Moves.pure _
    · split
      · exact Moves.bind (iunlock_moves _) fun _ => Moves.pure _
      · -- one level down, dropping the directory left
        refine Moves.bind (dirlookup_moves _ _) fun found => ?_
        split
        · exact Moves.bind (iunlockput_moves _) fun _ => Moves.pure _
        · exact Moves.bind (iunlockput_moves _) fun _ => namexLoop_moves b _ rest name
termination_by path.length
decreasing_by exact skipelem_length (by assumption)

theorem namex_moves (path : List UInt8) (b : Bool) : Moves 1 1 (namex path b) := by
  unfold namex
  extract_lets walk
  have hwalk : ∀ ip, Moves 1 1 (walk ip) := fun ip => namexLoop_moves b ip path []
  split
  · exact Moves.bind (iget_moves _ _) hwalk
  · refine Moves.bind Moves.get fun s => ?_
    split
    · exact Moves.bind (idup_moves _) hwalk
    · exact Moves.bind Moves.ub hwalk

theorem namei_moves (path : List UInt8) : Moves 1 1 (namei path) :=
  Moves.bind (namex_moves _ _) fun _ => Moves.pure _

theorem nameiparent_moves (path : List UInt8) : Moves 1 1 (nameiparent path) :=
  namex_moves _ _

/-! ## Files -/

/-- The table panics only when it is full or finds no file to close. -/
theorem alloc_not_outside {t : FileTable} {msg : String} (h : t.alloc = .panic msg) :
    ¬ OutsideTrans msg := by
  unfold FileTable.alloc at h
  split at h
  · cases h
  · cases h
    decide

theorem close_not_outside {t : FileTable} {f : Nat} {msg : String} (h : t.close f = .panic msg) :
    ¬ OutsideTrans msg := by
  unfold FileTable.close at h
  split at h
  · dsimp only at h
    split_ifs at h
    · cases h
      decide
    · split at h
      · cases h
      · cases h
        decide
  · cases h

theorem update_not_outside {t : FileTable} {f : Nat} {g : File → File} {msg : String}
    (h : t.update f g = .panic msg) : ¬ OutsideTrans msg := by
  unfold FileTable.update at h
  split at h <;> cases h

theorem filealloc_moves {i : Nat} : Moves i i filealloc :=
  Moves.of_run_bind (x := fun t => t.ftable.alloc) (g := fun t c => { t with ftable := c.1 })
    (f := fun c => pure c.2) (fun t => by simp [filealloc]) (fun _ _ h => alloc_not_outside h)
    (fun _ _ => rfl) fun _ => Moves.pure _

theorem closeInTable_moves {i : Nat} (f : Nat) : Moves i i (closeInTable f) :=
  Moves.of_run_bind (x := fun t => t.ftable.close f) (g := fun t c => { t with ftable := c.1 })
    (f := fun c => pure c.2) (fun t => by simp [closeInTable]) (fun _ _ h => close_not_outside h)
    (fun _ _ => rfl) fun _ => Moves.pure _

theorem updateFile_moves {i : Nat} (f : Nat) (g : File → File) : Moves i i (updateFile f g) :=
  Moves.of_run_bind (x := fun t => t.ftable.update f g) (g := fun t c => { t with ftable := c })
    (f := fun _ => pure ()) (fun t => by simp [updateFile]) (fun _ _ h => update_not_outside h)
    (fun _ _ => rfl) fun _ => Moves.pure _

theorem getFile_moves {i : Nat} (f : Nat) : Moves i i (getFile f) := by
  unfold getFile
  refine Moves.bind Moves.get fun s => ?_
  split
  · exact Moves.pure _
  · exact Moves.ub

theorem fdalloc_run (f : Nat) (t : FsState) :
    (fdalloc f).run t = match (List.range NOFILE).find? (fun fd => (t.ofile fd).isNone) with
      | some fd => .ok (fd, { t with ofile := Function.update t.ofile fd (some f) })
      | none => .ok (-1, t) := by
  simp only [fdalloc, StateT.run_bind, StateT.run_get, Outcome.pure_eq, Outcome.ok_bind]
  cases (List.range NOFILE).find? (fun fd => (t.ofile fd).isNone) <;> rfl

theorem fdalloc_moves {i : Nat} (f : Nat) : Moves i i (fdalloc f) := by
  refine Moves.of_run (fun t msg h => ?_) fun t a t' h => ?_
  · rw [fdalloc_run] at h
    split at h <;> cases h
  · rw [fdalloc_run] at h
    split at h <;> (cases h; rfl)

theorem argfd_moves {i : Nat} (fd : Option Int32) : Moves i i (argfd fd) := by
  unfold argfd
  split
  · exact Moves.pure _
  · refine Moves.ite (fun _ => Moves.pure _) fun _ => Moves.bind Moves.get fun s => ?_
    split
    · exact Moves.pure _
    · exact Moves.pure _

/-- `fileclose` opens and closes its own transaction to put an inode back. -/
theorem fileclose_moves (f : Nat) : Moves 0 0 (fileclose f) := by
  unfold fileclose
  refine Moves.bind (closeInTable_moves f) fun cl => ?_
  split
  · exact Moves.bind begin_op_moves fun _ => Moves.bind (iput_moves _) fun _ => end_op_moves
  · exact Moves.pure _
  · exact Moves.pure _

theorem sys_close_moves (fd : Option Int32) : Moves 0 0 (sys_close fd) := by
  unfold sys_close
  refine Moves.bind (argfd_moves _) fun found => ?_
  split
  · exact Moves.pure _
  · exact Moves.bind (Moves.modify fun _ => rfl) fun _ => Moves.bind (fileclose_moves _) fun _ =>
      Moves.pure _

/-- Each chunk of `FileTable::write` is a transaction of its own. -/
theorem writeLoop_moves (f ip : Nat) (buf : List UInt8) (i : Nat) :
    Moves 0 0 (writeLoop f ip buf i) := by
  rw [writeLoop]
  split
  · refine Moves.bind begin_op_moves fun _ => ?_
    refine Moves.bind (ilock_moves _) fun _ => Moves.bind (getFile_moves _) fun file => ?_
    refine Moves.bind (writei_moves _ _ _ _) fun read => ?_
    extract_lets finish
    -- the chunk's transaction ends before the next chunk begins its own
    have hfinish : ∀ r, Moves 1 0 (finish r) := fun _ =>
      Moves.bind (iunlock_moves _) fun _ => Moves.bind end_op_moves fun _ =>
        Moves.ite (fun _ => Moves.pure _) fun _ => Moves.ite (fun _ => Moves.kpanic (by decide))
          fun _ => writeLoop_moves f ip buf _
    exact Moves.ite (fun _ => Moves.bind (updateFile_moves _ _) hfinish) fun _ => hfinish ()
  · exact Moves.pure _
termination_by buf.length - i
decreasing_by
  have hMAX : 0 < MAX := by decide
  split <;> omega

theorem filewrite_moves (f : Nat) (buf : List UInt8) : Moves 0 0 (filewrite f buf) := by
  unfold filewrite
  refine Moves.bind (getFile_moves _) fun file => ?_
  split
  · exact Moves.pure _
  · split
    · exact Moves.outside
    · exact Moves.bind (writeLoop_moves _ _ _ _) fun _ => Moves.pure _
    · exact Moves.kpanic (by decide)

/-! ## Links and names -/

theorem create_moves (path : List UInt8) (type major minor : Nat) :
    Moves 1 1 (create path type major minor) := by
  unfold create
  refine Moves.bind (nameiparent_moves _) fun parent => ?_
  split
  · exact Moves.pure _
  · refine Moves.bind (ilock_moves _) fun _ => Moves.bind (dirlookup_moves _ _) fun found => ?_
    split
    · -- the name exists: only a file is returned to `open`
      refine Moves.bind (iunlockput_moves _) fun _ => Moves.bind (ilock_moves _) fun _ =>
        Moves.bind (getInode_moves _) fun ip => ?_
      exact Moves.ite (fun _ => Moves.pure _) fun _ =>
        Moves.bind (iunlockput_moves _) fun _ => Moves.pure _
    · refine Moves.bind (getInode_moves _) fun dir => Moves.bind (ialloc_moves _ _) fun ip => ?_
      refine Moves.bind (ilock_moves _) fun _ => Moves.bind (modifyInode_moves _ _) fun _ =>
        Moves.bind (iupdate_moves _) fun _ => ?_
      extract_lets finish link
      -- the entry in the parent, made on both paths
      have hfinish : ∀ r, Moves 1 1 (finish r) := fun _ =>
        Moves.bind (iunlockput_moves _) fun _ => Moves.pure _
      have hlink : ∀ r, Moves 1 1 (link r) := fun _ =>
        Moves.bind (getInode_moves _) fun _ => Moves.bind (dirlink_moves _ _ _) fun _ =>
          Moves.ite (fun _ => Moves.bind (Moves.kpanic (by decide)) hfinish) fun _ => hfinish ()
      split
      · -- a directory gets `.` and `..` first
        refine Moves.bind (modifyInode_moves _ _) fun _ => Moves.bind (iupdate_moves _) fun _ => ?_
        refine Moves.bind (getInode_moves _) fun _ => Moves.bind (dirlink_moves _ _ _) fun r => ?_
        refine Moves.ite (fun _ => Moves.bind (Moves.kpanic (by decide)) hlink) fun _ => ?_
        exact Moves.bind (getInode_moves _) fun _ => Moves.bind (dirlink_moves _ _ _) fun _ =>
          Moves.ite (fun _ => Moves.bind (Moves.kpanic (by decide)) hlink) fun _ => hlink ()
      · exact hlink ()

theorem sys_link_moves (old new : Option (List UInt8)) : Moves 0 0 (sys_link old new) := by
  unfold sys_link
  split
  · refine Moves.bind begin_op_moves fun _ => Moves.bind (namei_moves _) fun found => ?_
    split
    · exact Moves.bind end_op_moves fun _ => Moves.pure _
    · refine Moves.bind (ilock_moves _) fun _ => Moves.bind (getInode_moves _) fun ip => ?_
      split
      · exact Moves.bind (iunlockput_moves _) fun _ => Moves.bind end_op_moves fun _ =>
          Moves.pure _
      · refine Moves.bind (modifyInode_moves _ _) fun _ => Moves.bind (iupdate_moves _) fun _ =>
          Moves.bind (iunlock_moves _) fun _ => ?_
        extract_lets bad
        -- `bad:` takes the link back and ends the transaction
        have hbad : Moves 1 0 bad :=
          Moves.bind (ilock_moves _) fun _ => Moves.bind (modifyInode_moves _ _) fun _ =>
            Moves.bind (iupdate_moves _) fun _ => Moves.bind (iunlockput_moves _) fun _ =>
              Moves.bind end_op_moves fun _ => Moves.pure _
        refine Moves.bind (nameiparent_moves _) fun parent => ?_
        split
        · exact hbad
        · refine Moves.bind (ilock_moves _) fun _ => Moves.bind (getInode_moves _) fun _ =>
            Moves.bind (getInode_moves _) fun _ => ?_
          split
          · exact Moves.bind (iunlockput_moves _) fun _ => hbad
          · refine Moves.bind (getInode_moves _) fun _ =>
              Moves.bind (dirlink_moves _ _ _) fun r => ?_
            split
            · exact Moves.bind (iunlockput_moves _) fun _ => hbad
            · exact Moves.bind (iunlockput_moves _) fun _ => Moves.bind (iput_moves _) fun _ =>
                Moves.bind end_op_moves fun _ => Moves.pure _
  · exact Moves.pure _

theorem isdiremptyLoop_moves (dp : Nat) (offs : List UInt32) :
    Moves 1 1 (isdiremptyLoop dp offs) := by
  induction offs with
  | nil =>
    rw [isdiremptyLoop]
    exact Moves.pure _
  | cons off offs ih =>
    rw [isdiremptyLoop]
    refine Moves.bind (readi_moves _ _ _) fun read => ?_
    split
    · exact Moves.ite (fun _ => Moves.kpanic (by decide)) fun _ =>
        Moves.ite (fun _ => Moves.pure _) fun _ => ih
    · exact Moves.kpanic (by decide)

theorem isdirempty_moves (dp : Nat) : Moves 1 1 (isdirempty dp) :=
  Moves.bind (getInode_moves _) fun _ => isdiremptyLoop_moves _ _

theorem sys_unlink_moves (path : Option (List UInt8)) : Moves 0 0 (sys_unlink path) := by
  unfold sys_unlink
  split
  · exact Moves.pure _
  · refine Moves.bind begin_op_moves fun _ => Moves.bind (nameiparent_moves _) fun parent => ?_
    split
    · exact Moves.bind end_op_moves fun _ => Moves.pure _
    · refine Moves.bind (ilock_moves _) fun _ => ?_
      extract_lets bad
      have hbad : Moves 1 0 bad :=
        Moves.bind (iunlockput_moves _) fun _ => Moves.bind end_op_moves fun _ => Moves.pure _
      split
      · exact hbad
      · refine Moves.bind (dirlookup_moves _ _) fun found => ?_
        split
        · exact hbad
        · refine Moves.bind (ilock_moves _) fun _ => Moves.bind (getInode_moves _) fun ip => ?_
          split
          · exact Moves.kpanic (by decide)
          · refine Moves.bind (getInode_moves _) fun _ => ?_
            extract_lets finish remove
            have hfinish : ∀ r, Moves 1 0 (finish r) := fun _ =>
              Moves.bind (iunlockput_moves _) fun _ => Moves.bind (modifyInode_moves _ _) fun _ =>
                Moves.bind (iupdate_moves _) fun _ => Moves.bind (iunlockput_moves _) fun _ =>
                  Moves.bind end_op_moves fun _ => Moves.pure _
            -- the entry is cleared and the links dropped, unless the directory has entries
            have hremove : ∀ busy, Moves 1 0 (remove busy) := by
              intro busy
              dsimp only [remove]
              split
              · exact Moves.bind (iunlockput_moves _) fun _ => hbad
              · refine Moves.bind (writei_moves _ _ _ _) fun r => ?_
                split
                · exact Moves.kpanic (by decide)
                · refine Moves.bind (getInode_moves _) fun _ => ?_
                  exact Moves.ite (fun _ => Moves.bind (modifyInode_moves _ _) fun _ =>
                    Moves.bind (iupdate_moves _) hfinish) fun _ => hfinish ()
            split
            · exact Moves.bind (isdirempty_moves _) fun _ => Moves.bind (Moves.pure _) hremove
            · exact Moves.bind (Moves.pure _) hremove

/-- The end of `sys_open` ends the transaction; a file it gives back is closed in a transaction
of its own, inside this one. -/
theorem openFile_moves (ip : Nat) (omode : Int32) : Moves 1 0 (openFile ip omode) := by
  unfold openFile
  refine Moves.bind filealloc_moves fun f => Moves.bind (fdalloc_moves _) fun fd => ?_
  split
  · exact Moves.bind (Moves.inside (fileclose_moves _)) fun _ =>
      Moves.bind (iunlockput_moves _) fun _ => Moves.bind end_op_moves fun _ => Moves.pure _
  · exact Moves.bind (iunlock_moves _) fun _ => Moves.bind end_op_moves fun _ =>
      Moves.bind (updateFile_moves _ _) fun _ => Moves.pure _

theorem sys_open_moves (path : Option (List UInt8)) (omode : Option Int32) :
    Moves 0 0 (sys_open path omode) := by
  unfold sys_open
  split
  · refine Moves.bind begin_op_moves fun _ => ?_
    split
    · refine Moves.bind (create_moves _ _ _ _) fun created => ?_
      split
      · exact Moves.bind end_op_moves fun _ => Moves.pure _
      · exact openFile_moves _ _
    · refine Moves.bind (namei_moves _) fun found => ?_
      split
      · exact Moves.bind end_op_moves fun _ => Moves.pure _
      · refine Moves.bind (ilock_moves _) fun _ => Moves.bind (getInode_moves _) fun ip => ?_
        exact Moves.ite (fun _ => Moves.bind (iunlockput_moves _) fun _ =>
          Moves.bind end_op_moves fun _ => Moves.pure _) fun _ => openFile_moves _ _
  · exact Moves.pure _

theorem sys_mkdir_moves (path : Option (List UInt8)) : Moves 0 0 (sys_mkdir path) := by
  unfold sys_mkdir
  refine Moves.bind begin_op_moves fun _ => ?_
  split
  · refine Moves.bind (create_moves _ _ _ _) fun created => ?_
    split
    · exact Moves.bind (iunlockput_moves _) fun _ => Moves.bind end_op_moves fun _ => Moves.pure _
    · exact Moves.bind end_op_moves fun _ => Moves.pure _
  · exact Moves.bind end_op_moves fun _ => Moves.pure _

theorem sys_mknod_moves (path : Option (List UInt8)) (major minor : Option Int32) :
    Moves 0 0 (sys_mknod path major minor) := by
  unfold sys_mknod
  refine Moves.bind begin_op_moves fun _ => ?_
  split
  · refine Moves.bind (create_moves _ _ _ _) fun created => ?_
    split
    · exact Moves.bind (iunlockput_moves _) fun _ => Moves.bind end_op_moves fun _ => Moves.pure _
    · exact Moves.bind end_op_moves fun _ => Moves.pure _
  · exact Moves.bind end_op_moves fun _ => Moves.pure _

theorem sys_chdir_moves (path : Option (List UInt8)) : Moves 0 0 (sys_chdir path) := by
  unfold sys_chdir
  refine Moves.bind begin_op_moves fun _ => ?_
  extract_lets enter
  -- the new directory, if the path names one, replaces the old, which is put back
  have henter : ∀ ip, Moves 1 0 (enter ip) := by
    intro ip
    dsimp -zeta only [enter]
    split
    · exact Moves.bind end_op_moves fun _ => Moves.pure _
    · refine Moves.bind (ilock_moves _) fun _ => Moves.bind (getInode_moves _) fun dir => ?_
      split
      · exact Moves.bind (iunlockput_moves _) fun _ => Moves.bind end_op_moves fun _ =>
          Moves.pure _
      · refine Moves.bind (iunlock_moves _) fun _ => Moves.bind Moves.get fun s => ?_
        extract_lets finish
        have hfinish : ∀ r, Moves 1 0 (finish r) := fun _ =>
          Moves.bind end_op_moves fun _ => Moves.bind (Moves.modify fun _ => rfl) fun _ =>
            Moves.pure _
        split
        · exact Moves.bind (iput_moves _) hfinish
        · exact Moves.bind Moves.ub hfinish
  split
  · exact Moves.bind (namei_moves _) henter
  · exact Moves.bind (Moves.pure _) henter

/-! ## Exit and exec -/

theorem exit_moves (isInit : Bool) : Moves 0 0 (exit isInit) := by
  unfold exit
  split
  · exact Moves.kpanic (by decide)
  · refine Moves.bind (Moves.forM fun fd _ => ?_) fun _ => ?_
    · -- each open file is closed, in a transaction of its own
      refine Moves.bind Moves.get fun s => ?_
      split
      · exact Moves.bind (fileclose_moves _) fun _ => Moves.modify fun _ => rfl
      · exact Moves.pure _
    · refine Moves.bind begin_op_moves fun _ => Moves.bind Moves.get fun s => ?_
      extract_lets finish
      have hfinish : ∀ r, Moves 1 0 (finish r) := fun _ =>
        Moves.bind end_op_moves fun _ => Moves.modify fun _ => rfl
      split
      · exact Moves.bind (iput_moves _) hfinish
      · exact Moves.bind Moves.ub hfinish

theorem loadLoop_moves (vm : ExecVm) (ip : Nat) (addr offset size : UInt32) (is : List UInt32) :
    Moves 1 1 (loadLoop vm ip addr offset size is) := by
  induction is with
  | nil =>
    rw [loadLoop]
    exact Moves.pure _
  | cons i is ih =>
    rw [loadLoop]
    refine Moves.ite (fun _ => Moves.kpanic (by decide)) fun _ => ?_
    extract_lets n
    refine Moves.bind (readi_moves _ _ _) fun read => ?_
    split
    · exact Moves.ite (fun _ => Moves.pure _) fun _ => ih
    · exact Moves.pure _

theorem loaduvm_moves (vm : ExecVm) (ip : Nat) (addr offset size : UInt32) :
    Moves 1 1 (loaduvm vm ip addr offset size) :=
  Moves.ite (fun _ => Moves.kpanic (by decide)) fun _ => loadLoop_moves _ _ _ _ _ _

theorem loadSegments_moves (vm : ExecVm) (ip k : Nat) (off sz : UInt32) :
    Moves 1 1 (loadSegments vm ip k off sz) := by
  induction k generalizing off sz with
  | zero =>
    rw [loadSegments]
    exact Moves.pure _
  | succ k ih =>
    rw [loadSegments]
    refine Moves.bind (readi_moves _ _ _) fun read => ?_
    split
    · exact Moves.pure _
    · extract_lets field type poff vaddr filesz memsz sz'
      -- a loadable segment grows the memory and is read in
      exact Moves.ite (fun _ => Moves.pure _) fun _ => Moves.ite (fun _ => ih _ _) fun _ =>
        Moves.ite (fun _ => Moves.pure _) fun _ => Moves.ite (fun _ => Moves.pure _) fun _ =>
          Moves.ite (fun _ => Moves.pure _) fun _ => Moves.ite (fun _ => Moves.pure _) fun _ =>
            Moves.bind (loaduvm_moves _ _ _ _ _) fun _ => Moves.ite (fun _ => ih _ _) fun _ =>
              Moves.pure _

theorem exec_moves (vm : ExecVm) (path : List UInt8) : Moves 0 0 (exec vm path) := by
  unfold exec
  refine Moves.bind begin_op_moves fun _ => Moves.bind (namei_moves _) fun found => ?_
  split
  · exact Moves.bind end_op_moves fun _ => Moves.pure _
  · refine Moves.bind (ilock_moves _) fun _ => ?_
    extract_lets bad
    have hbad : Moves 1 0 bad :=
      Moves.bind (iunlockput_moves _) fun _ => Moves.bind end_op_moves fun _ => Moves.pure _
    refine Moves.bind (readi_moves _ _ _) fun read => ?_
    split
    · exact hbad
    · extract_lets field
      refine Moves.ite (fun _ => hbad) fun _ => Moves.ite (fun _ => hbad) fun _ =>
        Moves.ite (fun _ => hbad) fun _ => ?_
      refine Moves.bind (loadSegments_moves _ _ _ _ _) fun loaded => ?_
      split
      · exact hbad
      · exact Moves.bind (iunlockput_moves _) fun _ => Moves.bind end_op_moves fun _ =>
          Moves.pure _

/-! ## Every call -/

/-- Every call opens and closes its transactions, on every path. -/
theorem FsCall.run_moves (c : FsCall) : Moves 0 0 c.run := by
  cases c with
  | sys_link old new => exact Moves.bind (sys_link_moves old new) fun _ => Moves.pure _
  | sys_unlink path => exact Moves.bind (sys_unlink_moves path) fun _ => Moves.pure _
  | sys_open path omode => exact Moves.bind (sys_open_moves path omode) fun _ => Moves.pure _
  | sys_mkdir path => exact Moves.bind (sys_mkdir_moves path) fun _ => Moves.pure _
  | sys_mknod path major minor =>
    exact Moves.bind (sys_mknod_moves path major minor) fun _ => Moves.pure _
  | sys_chdir path => exact Moves.bind (sys_chdir_moves path) fun _ => Moves.pure _
  | sys_close fd => exact Moves.bind (sys_close_moves fd) fun _ => Moves.pure _
  | filewrite f buf => exact Moves.bind (filewrite_moves f buf) fun _ => Moves.pure _
  | exit isInit => exact exit_moves isInit
  | exec vm path => exact Moves.bind (exec_moves vm path) fun _ => Moves.pure _

/-- No file-system call reaches `log_write outside of trans`, from any state: every `log_write`
on every path of every call runs between a `begin_op` of the call and its `end_op`. -/
theorem log_write_inside_transactions (c : FsCall) (s : FsState) :
    c.run.run s ≠ .panic "log_write outside of trans" := by
  intro h
  -- the count the call starts from, whatever other calls have outstanding
  have hcall := FsCall.run_moves c s.log.outstanding s rfl
  exact hcall.1 _ h rfl

end Xv6.Fs
