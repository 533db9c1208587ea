import TtBhLinux.Disk.VirtioBlk
import TtBhLinux.Virtio.Accesses

/-!
# What VirtioBlk touches

`process_queue_data` reads the type and, for a request it implements, the sector of the header that
`req` points to.
-/

namespace TtBhLinux.Disk
open Common Virtio

def blkTouches : Callback → (queue_idx : Nat) → (len : U64) → Unit → Work VirtioBlk →
    List (Touch BufferPointer 64)
  | .start, _, _, _, _ => []
  | .data, q, len, _, work =>
      let type := reqType work.mem work.dev.req
      if q ≠ 0 then []
      else if type = blkIn ∨ type = blkOut then
        [⟨.kept, 0, 4⟩, ⟨.kept, 8, 8⟩, ⟨.addr, 0, len.toNat⟩]
      else [⟨.kept, 0, 4⟩]
  | .complete, q, _, _, _ => if q ≠ 0 then [] else [⟨.addr, 0, 1⟩]

section
variable {fileSize addr len : U64} {q : Nat} {work work' : Work VirtioBlk} {mem : U64 → U8}

inductive DataStep (fileSize addr len : U64) (work : Work VirtioBlk) : Work VirtioBlk → Prop
  | read : reqType work.mem work.dev.req = blkIn →
      DataStep fileSize addr len work { work with
        mem := store work.mem addr
          (slice work.dev.mappedData (sectorSize * reqSector work.mem work.dev.req).toNat len.toNat) }
  | write : reqType work.mem work.dev.req = blkOut →
      DataStep fileSize addr len work { work with dev := { work.dev with
        mappedData := overwrite work.dev.mappedData
          (sectorSize * reqSector work.mem work.dev.req).toNat (load work.mem addr len.toNat) } }
  | unimplemented : DataStep fileSize addr len work work

theorem data_cases (called : processQueueData fileSize q addr len work = .ok work') :
    DataStep fileSize addr len work work' := by
  unfold processQueueData at called
  dsimp only at called
  split at called
  · cases called
  · split at called
    · rename_i read
      split at called
      · cases called
        exact .read read
      · cases called
    · split at called
      · rename_i write
        split at called
        · cases called
          exact .write write
        · cases called
      · cases called
        exact .unimplemented

theorem data_reads
    (type : reqType mem work.dev.req = reqType work.mem work.dev.req)
    (sector : reqType work.mem work.dev.req = blkIn ∨ reqType work.mem work.dev.req = blkOut →
      reqSector mem work.dev.req = reqSector work.mem work.dev.req ∧
        load mem addr len.toNat = load work.mem addr len.toNat) :
    (processQueueData fileSize q addr len { work with mem }).map Work.dev =
      (processQueueData fileSize q addr len work).map Work.dev := by
  unfold processQueueData
  rw [type]
  by_cases queue : q ≠ 0
  · rw [if_pos queue, if_pos queue]
  · rw [if_neg queue, if_neg queue]
    by_cases read : reqType work.mem work.dev.req = blkIn
    · rw [if_pos read, if_pos read, (sector (.inl read)).1]
      split <;> rfl
    · rw [if_neg read, if_neg read]
      by_cases write : reqType work.mem work.dev.req = blkOut
      · obtain ⟨sector, copied⟩ := sector (.inr write)
        rw [if_pos write, if_pos write, sector, copied]
        split <;> rfl
      · rw [if_neg write, if_neg write]
        rfl

variable {call : Callback} {result : Unit}

theorem blk_queue (call : Callback) (ne : q ≠ 0) :
    (virtioBlkDevice fileSize).callback call q addr len result work = .error .assertion := by
  cases call with
  | start => exact if_pos ne
  | data => exact if_pos ne
  | complete => exact if_pos ne

theorem blk_writes
    (called : (virtioBlkDevice fileSize).callback call q addr len result work = .ok work') (x : U64)
    (outside : ∀ touch ∈ blkTouches call q len result work,
      ¬(touch.range (BufferPointer.value addr (some work.dev.req))).Contains x) :
    work'.mem x = work.mem x := by
  by_cases queue : q ≠ 0
  · rw [blk_queue call queue] at called
    cases called
  · cases call with
    | start =>
        cases (if_neg queue).symm.trans called
        rfl
    | data =>
        cases data_cases called with
        | read type =>
            have buffer := outside ⟨.addr, 0, len.toNat⟩ (by simp [blkTouches, queue, type])
            refine store_outside _ _ ?_
            simpa using buffer
        | write | unimplemented => rfl
    | complete =>
        cases (if_neg queue).symm.trans called
        have status := outside ⟨.addr, 0, 1⟩ (by simp [blkTouches, queue])
        refine store_outside _ _ ?_
        simpa using status

theorem blk_reads
    (same : ∀ touch ∈ blkTouches call q len result work, ∀ x,
      (touch.range (BufferPointer.value addr (some work.dev.req))).Contains x →
      mem x = work.mem x) :
    ((virtioBlkDevice fileSize).callback call q addr len result { work with mem }).map Work.dev =
      ((virtioBlkDevice fileSize).callback call q addr len result work).map Work.dev := by
  by_cases queue : q ≠ 0
  · rw [blk_queue call queue, blk_queue call queue]
  · cases call with
    | start | complete =>
        simp only [Device.callback, virtioBlkDevice, processQueueStart, processQueueComplete,
          if_neg queue]
        rfl
    | data =>
        have type : reqType mem work.dev.req = reqType work.mem work.dev.req := by
          apply loadU32_congr
          intro x inside
          refine same ⟨.kept, 0, 4⟩ ?_ x ?_
          · simp only [blkTouches, if_neg queue]
            split <;> simp
          · simpa [BufferPointer.value] using inside
        refine data_reads type fun transfers => ⟨?_, ?_⟩
        · apply loadU64_congr
          intro x inside
          exact same ⟨.kept, 8, 8⟩ (by simp [blkTouches, queue, transfers]) x inside
        · apply load_congr len.isLt.le
          intro x inside
          refine same ⟨.addr, 0, len.toNat⟩ (by simp [blkTouches, queue, transfers]) x ?_
          simpa [BufferPointer.value] using inside

theorem blk_req
    (called : (virtioBlkDevice fileSize).callback call q addr len result work = .ok work') :
    work'.dev.req = if call = .start then addr else work.dev.req := by
  by_cases queue : q ≠ 0
  · rw [blk_queue call queue] at called
    cases called
  · cases call with
    | start | complete =>
        cases (if_neg queue).symm.trans called
        rfl
    | data => cases data_cases called <;> rfl

end

def blkFootprint (fileSize : U64) : Footprint (virtioBlkDevice fileSize) where
  touches := blkTouches
  kept blk := some blk.req
  writes called x outside := blk_writes called x outside
  reads same := blk_reads same
  starts {q addr len work work'} called p kept := by
    have same : work'.dev.req = addr := @blk_req fileSize addr len q work work' .start () called
    exact (Option.mem_some_iff.mp kept).symm.trans same
  keeps not_start called := by rw [blk_req called, if_neg not_start]
  uses_kept {call q len result work touch} member pointer := by
    cases call with
    | start => cases member
    | data => exact ⟨rfl, rfl⟩
    | complete =>
        simp only [blkTouches] at member
        split at member
        · cases member
        · rw [List.mem_singleton.mp member] at pointer
          cases pointer

end TtBhLinux.Disk
