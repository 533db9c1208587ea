import TtBhLinux.Disk.VirtioBlk

/-!
# The block device is a byte store

Requests of three descriptors are taken one after the other. The image and the data returned are
those of the same accesses on a plain array (`disk_refines_store`).
-/

namespace TtBhLinux.Disk
open Common Virtio

structure Request where
  header : Desc
  data : Desc
  status : Desc

namespace Request
variable (c : Config) (mem : U64 → U8) (r : Request)

def off : Nat := 512 * (reqSector mem (c.addr r.header)).toNat

def IsRead : Prop := reqType mem (c.addr r.header) = blkIn

instance : Decidable (r.IsRead c mem) := inferInstanceAs (Decidable (_ = _))

def access : Access U8 :=
  if r.IsRead c mem then .read (r.off c mem) r.data.len.toNat
  else .write (r.off c mem) (load mem (c.addr r.data) r.data.len.toNat)

/-- A request that the driver may make: nothing is assumed about where its header lies. -/
structure WellFormed (fileSize : U64) (table : Nat → Desc) (head : U16) : Prop where
  chain : Chain table head [r.header, r.data, r.status]
  header_len : r.header.len = 16
  status_len : 1 ≤ r.status.len.toNat
  type : r.IsRead c mem ∨ reqType mem (c.addr r.header) = blkOut
  inside : r.off c mem + r.data.len.toNat ≤ fileSize.toNat
  apart : Apart (c.addr r.data) r.data.len.toNat (c.addr r.status) r.status.len.toNat

end Request

structure Round where
  shared : Shared
  request : Request
  answer : Answer Unit

def Round.head (round : Round) (processed : U16) : U16 :=
  (round.shared.queues 0).avail.ring (slot processed)

def Round.access (c : Config) (round : Round) : Access U8 := round.request.access c round.shared.mem

def Offered (c : Config) (fileSize : U64) : U16 → List Round → Prop
  | _, [] => True
  | processed, round :: rest =>
      processed ≠ (round.shared.queues 0).avail.idx ∧
      round.request.WellFormed c round.shared.mem fileSize (round.shared.queues 0).desc
        (round.head processed) ∧
      Offered c fileSize (processed + 1) rest

def serveAll (c : Config) (fileSize : U64) (fuel : Nat) :
    List Round → Locals VirtioBlk → Except Stop (List Shared × Locals VirtioBlk)
  | [], v => .ok ([], v)
  | round :: rest, v =>
      match visit (virtioBlkDevice fileSize) c fuel 0 round.answer v round.shared with
      | .error stop => .error stop
      | .ok (v', after) =>
          match serveAll c fileSize fuel rest v' with
          | .error stop => .error stop
          | .ok (afters, final) => .ok (after :: afters, final)

structure Completed (c : Config) (round : Round) (processed : U16) (result : List U8)
    (after : Shared) : Prop where
  data : round.request.IsRead c round.shared.mem →
    load after.mem (c.addr round.request.data) round.request.data.len.toNat = result
  status : after.mem (c.addr round.request.status) = 0
  memory : ∀ x, ¬(round.request.IsRead c round.shared.mem ∧
      InRegion (c.addr round.request.data) round.request.data.len.toNat x) →
    x ≠ c.addr round.request.status → after.mem x = round.shared.mem x
  id : ((after.queues 0).used.ring (slot (round.shared.queues 0).used.idx)).id =
    (round.head processed).setWidth 32
  entries : ∀ i ≠ slot (round.shared.queues 0).used.idx,
    (after.queues 0).used.ring i = (round.shared.queues 0).used.ring i
  used_idx : (after.queues 0).used.idx = (round.shared.queues 0).used.idx + 1
  driver_areas : (after.queues 0).desc = (round.shared.queues 0).desc ∧
    (after.queues 0).avail = (round.shared.queues 0).avail
  queues : ∀ q ≠ 0, after.queues q = round.shared.queues q
  regs : ∃ status, after.regs = { round.shared.regs with interruptStatus := status }

structure Refines (c : Config) (rounds : List Round) (v v' : Locals VirtioBlk)
    (afters : List Shared) : Prop where
  image : v'.dev.mappedData = (execAll v.dev.mappedData (rounds.map (Round.access c))).1
  latest : ∀ i, v'.dev.mappedData i =
    (latest (rounds.map (Round.access c)) i).getD (v.dev.mappedData i)
  length : afters.length = rounds.length
  completed : ∀ k (h : k < rounds.length) (h' : k < afters.length) result,
    (execAll v.dev.mappedData (rounds.map (Round.access c))).2[k]? = some result →
      Completed c rounds[k] (v.processed 0 + .ofNat 16 k) result afters[k]
  reads : ∀ k (h : k < rounds.length) (h' : k < afters.length),
    rounds[k].request.IsRead c rounds[k].shared.mem →
      load afters[k].mem (c.addr rounds[k].request.data) rounds[k].request.data.len.toNat =
        slice (fun i => (Common.latest ((rounds.map (Round.access c)).take k) i).getD
          (v.dev.mappedData i)) (rounds[k].request.off c rounds[k].shared.mem)
          rounds[k].request.data.len.toNat

section
variable {c : Config} {fileSize : U64}

theorem Request.WellFormed.offset {r : Request} {mem : U64 → U8} {table : Nat → Desc} {head : U16}
    (h : r.WellFormed c mem fileSize table head) :
    (sectorSize * reqSector mem (c.addr r.header)).toNat = r.off c mem := by
  have inside := h.inside
  have bound := fileSize.isLt
  simp only [Request.off] at inside ⊢
  rw [BitVec.toNat_mul]
  exact Nat.mod_eq_of_lt (by simp only [sectorSize, show (512 : U64).toNat = 512 from rfl]; omega)

theorem blkOut_ne_blkIn : blkOut ≠ blkIn := by decide

theorem processQueueData_request {r : Request} {work : Work VirtioBlk} {table : Nat → Desc}
    {head : U16} (h : r.WellFormed c work.mem fileSize table head)
    (req : work.dev.req = c.addr r.header) :
    processQueueData fileSize 0 (c.addr r.data) r.data.length work =
      .ok ⟨⟨work.dev.req, ((r.access c work.mem).exec work.dev.mappedData).1⟩,
        store work.mem (c.addr r.data) ((r.access c work.mem).exec work.dev.mappedData).2⟩ := by
  obtain ⟨⟨_, image⟩, mem⟩ := work
  subst req
  have inside : InImage fileSize.toNat (r.off c mem) r.data.len.toNat := .inr h.inside
  simp only [processQueueData, h.offset, Desc.length_toNat, ne_eq, not_true_eq_false, if_false,
    inside, if_true, Request.access]
  rcases h.type with read | write
  · have type : reqType mem (c.addr r.header) = blkIn := read
    rw [if_pos type, if_pos read]
    rfl
  · have type : ¬reqType mem (c.addr r.header) = blkIn := fun read =>
      blkOut_ne_blkIn (write.symm.trans read)
    have not_read : ¬r.IsRead c mem := type
    rw [if_neg type, if_pos write, if_neg not_read]
    rfl

theorem request_walk {r : Request} (work : Work VirtioBlk) {table : Nat → Desc} {head : U16}
    (size : c.queueHeaderSize = 16) (h : r.WellFormed c work.mem fileSize table head) :
    ∃ total, walkList (virtioBlkDevice fileSize) c 0 () [r.header, r.data, r.status] 0 work =
      .ok (total, ⟨⟨c.addr r.header, ((r.access c work.mem).exec work.dev.mappedData).1⟩,
        store (store work.mem (c.addr r.data) ((r.access c work.mem).exec work.dev.mappedData).2)
          (c.addr r.status) [0]⟩) := by
  obtain ⟨header, data, status⟩ := h.chain.terminated
  have first : (0 : U64) < c.queueHeaderSize := by rw [size]; decide
  have second : ¬(0 + r.header.length < c.queueHeaderSize) := by
    rw [size, Desc.length, h.header_len]
    decide
  refine ⟨0 + r.header.length + r.data.length + r.status.length, ?_⟩
  rw [walkList_cons (by rw [header, Device.entry_start first]; rfl),
    walkList_cons (by rw [data, Device.entry_data second]; exact processQueueData_request h rfl),
    walkList_cons (by rw [status]; rfl)]
  rfl

theorem request_memory {r : Request} {mem : U64 → U8} (image : Nat → U8) {table : Nat → Desc}
    {head : U16} (h : r.WellFormed c mem fileSize table head) :
    let result := ((r.access c mem).exec image).2
    let after := store (store mem (c.addr r.data) result) (c.addr r.status) [0]
    (r.IsRead c mem → load after (c.addr r.data) r.data.len.toNat = result) ∧
      after (c.addr r.status) = 0 ∧
      ∀ x, ¬(r.IsRead c mem ∧ InRegion (c.addr r.data) r.data.len.toNat x) →
        x ≠ c.addr r.status → after x = mem x := by
  have bound := r.data.len.isLt
  refine ⟨fun read => ?_, ?_, fun x outside ne => ?_⟩
  · have apart : Apart (c.addr r.status) [(0 : U8)].length (c.addr r.data) r.data.len.toNat :=
      fun x status data => h.apart x data (status.mono h.status_len)
    rw [load_store_apart _ (by omega) apart]
    simp only [Request.access, read, if_true, Access.exec]
    have stored := load_store mem (c.addr r.data) (slice image (r.off c mem) r.data.len.toNat)
      (by rw [slice_length]; omega)
    rwa [slice_length] at stored
  · exact store_singleton _ _ _
  · rw [store_outside _ _ (mt inRegion_one.mp ne)]
    by_cases read : r.IsRead c mem
    · refine store_outside _ _ fun inside => outside ⟨read, ?_⟩
      simpa [Request.access, read, Access.exec] using inside
    · simp [Request.access, read, Access.exec]

theorem visit_round {fuel : Nat} {round : Round} {v : Locals VirtioBlk}
    (size : c.queueHeaderSize = 16) (enough : 3 ≤ fuel)
    (available : v.processed 0 ≠ (round.shared.queues 0).avail.idx)
    (h : round.request.WellFormed c round.shared.mem fileSize (round.shared.queues 0).desc
      (round.head (v.processed 0))) :
    ∃ v' after, visit (virtioBlkDevice fileSize) c fuel 0 round.answer v round.shared =
        .ok (v', after) ∧
      v'.processed 0 = v.processed 0 + 1 ∧
      v'.dev.mappedData = ((round.access c).exec v.dev.mappedData).1 ∧
      Completed c round (v.processed 0) ((round.access c).exec v.dev.mappedData).2 after := by
  obtain ⟨total, walked⟩ := request_walk ⟨v.dev, round.shared.mem⟩ size h
  obtain ⟨data, status, memory⟩ := request_memory v.dev.mappedData h
  have visited : visit (virtioBlkDevice fileSize) c fuel 0 round.answer v round.shared = _ :=
    visit_of_chain available rfl h.chain enough
  rw [walked] at visited
  refine ⟨_, _, visited, ?_, rfl, ?_⟩
  · simp [Locals.publish]
  · refine ⟨data, status, memory, ?_, fun i ne => ?_, ?_, ?_, fun q ne => ?_, ⟨_, rfl⟩⟩
    · simp [Round.head]
    · simpa using UsedRing.publish_other _ _ _ ne
    · simp [UsedRing.publish]
    · simp
    · simp [ne]

theorem serveAll_refines {fuel : Nat} (size : c.queueHeaderSize = 16) (enough : 3 ≤ fuel)
    (rounds : List Round) (v : Locals VirtioBlk)
    (offered : Offered c fileSize (v.processed 0) rounds) :
    ∃ afters v', serveAll c fileSize fuel rounds v = .ok (afters, v') ∧
      v'.dev.mappedData = (execAll v.dev.mappedData (rounds.map (Round.access c))).1 ∧
      afters.length = rounds.length ∧
      ∀ k (h : k < rounds.length) (h' : k < afters.length) result,
        (execAll v.dev.mappedData (rounds.map (Round.access c))).2[k]? = some result →
          Completed c rounds[k] (v.processed 0 + .ofNat 16 k) result afters[k] := by
  induction rounds generalizing v with
  | nil => exact ⟨[], v, rfl, rfl, rfl, fun k h => absurd h (Nat.not_lt_zero k)⟩
  | cons round rest ih =>
      obtain ⟨available, wellFormed, others⟩ := offered
      obtain ⟨v', after, visited, processed, image, completed⟩ :=
        visit_round size enough available wellFormed
      rw [← processed] at others
      obtain ⟨afters, final, served, executed, length, each⟩ := ih v' others
      rw [image] at executed each
      refine ⟨after :: afters, final, ?_, executed, by simp [length], fun k h h' result value => ?_⟩
      · simp only [serveAll, visited, served]
      · cases k with
        | zero =>
            cases Option.some.inj value
            show Completed c round (v.processed 0 + .ofNat 16 0) _ after
            rw [show v.processed 0 + .ofNat 16 0 = v.processed 0 from BitVec.add_zero _]
            exact completed
        | succ k =>
            have tail := each k (Nat.lt_of_succ_lt_succ h) (Nat.lt_of_succ_lt_succ h') result value
            rw [processed] at tail
            have index : v.processed 0 + 1 + .ofNat 16 k = v.processed 0 + .ofNat 16 (k + 1) := by
              rw [Nat.add_comm k 1, BitVec.ofNat_add, BitVec.add_assoc]
              rfl
            rwa [index] at tail

end

/-- Over every sequence of requests the device behaves as a plain array of bytes. -/
theorem disk_refines_store (startingAddress memory : U64) (interruptNumber : Nat) (fileSize : U64)
    (fuel : Nat) (enough : 3 ≤ fuel) (rounds : List Round) (v : Locals VirtioBlk)
    (offered : Offered (virtioBlk startingAddress memory interruptNumber) fileSize (v.processed 0)
      rounds) :
    ∃ afters v',
      serveAll (virtioBlk startingAddress memory interruptNumber) fileSize fuel rounds v =
        .ok (afters, v') ∧
      Refines (virtioBlk startingAddress memory interruptNumber) rounds v v' afters := by
  obtain ⟨afters, v', served, image, length, completed⟩ :=
    serveAll_refines (c := virtioBlk startingAddress memory interruptNumber) rfl enough rounds v
      offered
  refine ⟨afters, v', served, image, fun i => ?_, length, completed, fun k h h' read => ?_⟩
  · rw [image, execAll_latest]
  · have access : (rounds.map (Round.access (virtioBlk startingAddress memory interruptNumber)))[k]? =
        some (.read (rounds[k].request.off (virtioBlk startingAddress memory interruptNumber)
          rounds[k].shared.mem) rounds[k].request.data.len.toNat) := by
      simp [h, Round.access, Request.access, read]
    exact (completed k h h' _ (execAll_reads _ _ access)).data read

/-! ## A write and a read of sector 1 -/

def sectorTable : Nat → Desc
  | 0 => ⟨0x1000, 16, 1, 1⟩
  | 1 => ⟨0x2000, 4, 3, 2⟩
  | _ => ⟨0x3000, 1, 2, 0⟩

def sectorMem (type : U8) (x : U64) : U8 :=
  if x = 0x1000 then type else if x = 0x1008 then 1 else if x = 0x2000 then 0xab else 0

def sectorRequest : Request := ⟨sectorTable 0, sectorTable 1, sectorTable 2⟩

theorem sectorRequest_wellFormed {type : U8} (known : type = 0 ∨ type = 1) :
    sectorRequest.WellFormed (virtioBlk 0 0 33) (sectorMem type) 1024 sectorTable 0 where
  chain := .next (i := 0) (by decide) (.next (i := 1) (by decide) (.last (i := 2) (by decide)))
  header_len := rfl
  status_len := by decide
  type := by rcases known with rfl | rfl <;> decide
  inside := by rcases known with rfl | rfl <;> decide
  apart := by
    intro x data status
    simp only [InRegion] at data status
    revert data status
    simp only [sectorRequest, sectorTable, Config.addr, Config.hostPointer, virtioBlk]
    bv_omega

def sectorRound (type : U8) (published : U16) : Round where
  shared :=
    { regs := .constructed (virtioBlk 0 0 33)
      interruptRegister := 0
      queues := fun _ => ⟨sectorTable, ⟨published, fun _ => 0⟩, ⟨0, fun _ => ⟨0, 0⟩⟩⟩
      mem := sectorMem type }
  request := sectorRequest
  answer := ⟨false, true, ()⟩

theorem disk_refines_store_sector :
    ∃ afters v', serveAll (virtioBlk 0 0 33) 1024 3 [sectorRound 1 1, sectorRound 0 2]
        ⟨fun _ => 0, 0, fun _ => 0⟩ = .ok (afters, v') ∧
      Refines (virtioBlk 0 0 33) [sectorRound 1 1, sectorRound 0 2] ⟨fun _ => 0, 0, fun _ => 0⟩ v'
        afters :=
  disk_refines_store 0 0 33 1024 3 le_rfl _ _
    ⟨by decide, sectorRequest_wellFormed (.inr rfl), by decide,
      sectorRequest_wellFormed (.inl rfl), trivial⟩

end TtBhLinux.Disk
