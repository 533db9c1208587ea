import Mathlib.Logic.Relation
import TtBhLinux.Common.Recorded
import TtBhLinux.Disk.Footprint
import TtBhLinux.Network.Footprint

/-!
# Does the walk over a chain end?

The descriptor table lies in the memory that the callbacks store to. Where they leave the entries on
the way alone, the walk ends exactly if the links do, and within `queue_size` descriptors.
-/

namespace TtBhLinux.Virtio
open Common System

/-! ## Descriptor tables in memory -/

def loadDesc (mem : U64 → U8) (a : U64) : Desc :=
  ⟨loadU64 mem a, loadU32 mem (a + 8), loadU16 mem (a + 12), loadU16 mem (a + 14)⟩

def entryAt (desc : U64) (i : Nat) : U64 := desc + .ofNat 64 (16 * i)

def tableAt (mem : U64 → U8) (desc : U64) (i : Nat) : Desc := loadDesc mem (entryAt desc i)

def Shared.withTables (desc : Nat → U64) (s : Shared) : Shared :=
  { s with queues := fun q => { s.queues q with desc := tableAt s.mem (desc q) } }

def Shared.after (s : Shared) (desc : Nat → U64) (mem : U64 → U8) : Shared :=
  ({ s.withTables desc with mem } : Shared).withTables desc

theorem loadDesc_congr {mem mem' : U64 → U8} {a : U64}
    (same : ∀ x, InRegion a 16 x → mem' x = mem x) : loadDesc mem' a = loadDesc mem a := by
  have field (k n : Nat) (le : k + n ≤ 16) (x : U64) (inside : InRegion (a + .ofNat 64 k) n x) :
      mem' x = mem x := by
    have fits : 16 ≤ 2 ^ 64 := by decide
    exact same x (inside.shift le fits)
  have addr : loadU64 mem' a = loadU64 mem a :=
    loadU64_congr fun x inside => same x (inside.mono (by decide))
  have len : loadU32 mem' (a + 8) = loadU32 mem (a + 8) := loadU32_congr (field 8 4 (by decide))
  have flags : loadU16 mem' (a + 12) = loadU16 mem (a + 12) :=
    loadU16_congr (field 12 2 (by decide))
  have next : loadU16 mem' (a + 14) = loadU16 mem (a + 14) := loadU16_congr (field 14 2 (by decide))
  rw [loadDesc, loadDesc, addr, len, flags, next]

/-! ## The walk -/

def LoopPc.visits : LoopPc → Nat
  | .process _ _ _ _ => 1
  | _ => 0

section
variable {σ ρ : Type*} (dev : Device σ ρ) (c : Config) (a : Answer ρ) (desc : Nat → U64)

/-- `device_loop` left alone by its guest, with the tables at the addresses `desc`. -/
def alone : System (Loop σ × Shared) Unit where
  init _ := True
  step _ t := loopStep dev c a t.1 (t.2.withTables desc)

abbrev visiting : System ((Loop σ × Shared) × Nat) Unit :=
  (alone dev c a desc).recorded 0 fun _ t visits => visits + t.1.pc.visits

/-- The device visits at most `queue_size` descriptors and then goes on to the next queue or, behind
the last one, to its tests. -/
def WalkEnds (q : Nat) (v : Locals σ) (s : Shared) : Prop :=
  ∃ visits ≤ queueSize.toNat, ∃ v' s', (visiting dev c a desc).Leads ((⟨.loadHead q, v⟩, s), 0)
    ((⟨c.nextQueue q, v'⟩, s'), visits)

variable {dev c a desc}

def Finishes (dev : Device σ ρ) (c : Config) (a : Answer ρ) (desc : Nat → U64) (q : Nat)
    (t : Loop σ × Shared) (n m : Nat) : Prop :=
  ∃ v' s', (visiting dev c a desc).Leads (t, n) ((⟨c.nextQueue q, v'⟩, s'), m)

theorem finishes_step {q n m : Nat} {t : Loop σ × Shared} (before : t.1.pc ≠ c.nextQueue q) :
    Finishes dev c a desc q t n m ↔ ∃ t', loopStep dev c a t.1 (t.2.withTables desc) = some t' ∧
      Finishes dev c a desc q t' (n + t.1.pc.visits) m := by
  constructor
  · rintro ⟨v', s', leads⟩
    rcases leads.cases with same | ⟨label, u, action, leads⟩
    · exact absurd (congrArg (·.1.1.pc) same) before
    · obtain ⟨t', moved, rfl⟩ := Option.map_eq_some_iff.mp action
      exact ⟨t', moved, v', s', leads⟩
  · rintro ⟨t', moved, v', s', leads⟩
    refine ⟨v', s', .trans ⟨[()], ?_⟩ leads⟩
    simp [System.run, System.recorded, alone, moved]

theorem Finishes.le {q n m : Nat} {t : Loop σ × Shared} (finishes : Finishes dev c a desc q t n m) :
    n ≤ m := by
  obtain ⟨v', s', labels, action⟩ := finishes
  induction labels generalizing t n with
  | nil =>
      cases action
      exact le_rfl
  | cons label rest ih =>
      obtain ⟨u, first, others⟩ := Option.bind_eq_some_iff.mp action
      obtain ⟨t', -, rfl⟩ := Option.map_eq_some_iff.mp first
      exact (Nat.le_add_right _ _).trans (ih others)

theorem finishes_moved {q n m : Nat} {t t' : Loop σ × Shared} (before : t.1.pc ≠ c.nextQueue q)
    (moved : loopStep dev c a t.1 (t.2.withTables desc) = some t') :
    Finishes dev c a desc q t n m ↔ Finishes dev c a desc q t' (n + t.1.pc.visits) m := by
  rw [finishes_step before]
  constructor
  · rintro ⟨u, action, finishes⟩
    obtain rfl := Option.some.inj (moved.symm.trans action)
    exact finishes
  · exact fun finishes => ⟨t', moved, finishes⟩

def LoopPc.begins : LoopPc → Bool
  | .testExit | .loadAvailIdx _ => true
  | _ => false

theorem LoopPc.ne_nextQueue {pc : LoopPc} (inside : pc.begins = false) (q : Nat) :
    pc ≠ c.nextQueue q := by
  rintro rfl
  unfold Config.nextQueue at inside
  split at inside <;> cases inside

theorem finishes_head {q : Nat} {v : Locals σ} {s : Shared} {n m : Nat} {head : U16}
    (taken : (s.queues q).avail.ring (slot (v.processed q)) = head) :
    Finishes dev c a desc q (⟨.loadHead q, v⟩, s) n m ↔
      Finishes dev c a desc q (⟨.loadLen ⟨q, head, head, 0⟩, v⟩, s.withTables desc) n m := by
  subst taken
  rw [finishes_moved (LoopPc.ne_nextQueue rfl q) rfl, finishes_moved (LoopPc.ne_nextQueue rfl q) rfl,
    finishes_moved (LoopPc.ne_nextQueue rfl q) rfl]
  rfl

theorem finishes_next {w : Walk} {v : Locals σ} {s : Shared} {q n m : Nat} {d : Desc}
    (loaded : tableAt s.mem (desc w.queue_idx) (slot w.desc_idx) = d) :
    Finishes dev c a desc q (⟨.loadNext w, v⟩, s) n m ↔
      Finishes dev c a desc q (⟨.loadLen { w with desc_idx := d.next }, v⟩, s.withTables desc) n m := by
  subst loaded
  exact finishes_moved (LoopPc.ne_nextQueue rfl q) rfl

def Walk.counting (w : Walk) (l : U64) : Walk :=
  { w with num_bytes_written := w.num_bytes_written + l }

theorem finishes_loaded {w : Walk} {v : Locals σ} {s : Shared} {q n m : Nat} {d : Desc}
    (loaded : tableAt s.mem (desc w.queue_idx) (slot w.desc_idx) = d) :
    Finishes dev c a desc q (⟨.loadLen w, v⟩, s) n m ↔
      Finishes dev c a desc q (⟨.process w d.length (c.addr d) d.hasNext, v⟩, s.withTables desc)
        n m := by
  subst loaded
  rw [finishes_moved (LoopPc.ne_nextQueue rfl q) rfl, finishes_moved (LoopPc.ne_nextQueue rfl q) rfl,
    finishes_moved (LoopPc.ne_nextQueue rfl q) rfl]
  rfl

theorem finishes_entry {w : Walk} {v : Locals σ} {s : Shared} {q n m : Nat} {d : Desc}
    (loaded : tableAt s.mem (desc w.queue_idx) (slot w.desc_idx) = d) :
    Finishes dev c a desc q (⟨.loadLen w, v⟩, s) n m ↔
      ∃ work, dev.entry c w.queue_idx d.hasNext w.num_bytes_written (c.addr d) d.length a.result
          ⟨v.dev, s.mem⟩ = .ok work ∧
        Finishes dev c a desc q (⟨if d.hasNext then .loadNext (w.counting d.length)
            else .loadUsedIdx (w.counting d.length), { v with dev := work.dev }⟩,
          { s.withTables desc with mem := work.mem }) (n + 1) m := by
  rw [finishes_loaded loaded]
  have process := LoopPc.ne_nextQueue (c := c)
    (show (LoopPc.process w d.length (c.addr d) d.hasNext).begins = false from rfl) q
  cases called : dev.entry c w.queue_idx d.hasNext w.num_bytes_written (c.addr d) d.length a.result
      ⟨v.dev, s.mem⟩ with
  | error f =>
      have moved : loopStep dev c a ⟨.process w d.length (c.addr d) d.hasNext, v⟩
          (s.withTables desc) = some (⟨.fault f, v⟩, s.withTables desc) := by
        simp only [loopStep, Shared.withTables, called]
      refine iff_of_false (fun finishes => ?_) (by simp)
      obtain ⟨t, action, -⟩ := (finishes_step (LoopPc.ne_nextQueue (by rfl) q)).mp
        ((finishes_moved process moved).mp finishes)
      cases action
  | ok work =>
      have moved : loopStep dev c a ⟨.process w d.length (c.addr d) d.hasNext, v⟩
          (s.withTables desc) = some (⟨if d.hasNext then .loadNext (w.counting d.length)
            else .loadUsedIdx (w.counting d.length), { v with dev := work.dev }⟩,
            { s.withTables desc with mem := work.mem }) := by
        simp only [loopStep, Shared.withTables, called]
        rfl
      simp only [Except.ok.injEq, exists_eq_left']
      exact finishes_moved process moved

theorem finishes_link {w : Walk} {v : Locals σ} {s : Shared} {q n m : Nat} {d d' : Desc}
    {work : Work σ} (loaded : tableAt s.mem (desc w.queue_idx) (slot w.desc_idx) = d)
    (more : d.hasNext = true)
    (called : dev.entry c w.queue_idx true w.num_bytes_written (c.addr d) d.length a.result
      ⟨v.dev, s.mem⟩ = .ok work)
    (reloaded : tableAt work.mem (desc w.queue_idx) (slot w.desc_idx) = d') :
    Finishes dev c a desc q (⟨.loadLen w, v⟩, s) n m ↔
      Finishes dev c a desc q (⟨.loadLen { w.counting d.length with desc_idx := d'.next },
        { v with dev := work.dev }⟩, s.after desc work.mem) (n + 1) m := by
  rw [finishes_entry loaded, more]
  simp only [called, Except.ok.injEq, exists_eq_left', if_true]
  exact finishes_next reloaded

end

/-! ## Links that stay -/

def LedTo (table : Nat → Desc) (head : U16) (i : Nat) : Prop :=
  Relation.ReflTransGen (fun i j => nextSlot table i = some j) (slot head) i

theorem LedTo.next {table : Nat → Desc} {head i : U16} (linked : LedTo table head (slot i))
    (more : (table (slot i)).hasNext = true) : LedTo table head (slot (table (slot i)).next) :=
  linked.tail (by simp [nextSlot, more])

section
variable {σ ρ : Type*}

/-- The callback for a descriptor with the NEXT flag stores at most that many bytes, from its
address on. -/
structure Extent (dev : Device σ ρ) where
  bytes : (queue_idx : Nat) → (len : U64) → Nat
  start : ∀ {q addr len work work'}, dev.processQueueStart q addr len work = .ok work' →
    ∀ x, ¬InRegion addr (bytes q len) x → work'.mem x = work.mem x
  data : ∀ {q addr len work work'}, dev.processQueueData q addr len work = .ok work' →
    ∀ x, ¬InRegion addr (bytes q len) x → work'.mem x = work.mem x

variable {dev : Device σ ρ} (extent : Extent dev) (c : Config)

/-- The callbacks for the descriptors that the links lead to store to none of these descriptors. -/
def LinksClear (q : Nat) (mem : U64 → U8) (desc : U64) (head : U16) : Prop :=
  ∀ i j, LedTo (tableAt mem desc) head i → LedTo (tableAt mem desc) head j →
    (tableAt mem desc i).hasNext = true →
    Apart (c.addr (tableAt mem desc i)) (extent.bytes q (tableAt mem desc i).length)
      (entryAt desc j) 16

variable {extent c}

theorem Extent.entry {q : Nat} {count addr len : U64} {result : ρ} {work work' : Work σ}
    (called : dev.entry c q true count addr len result work = .ok work') {x : U64}
    (outside : ¬InRegion addr (extent.bytes q len) x) : work'.mem x = work.mem x := by
  by_cases header : count < c.queueHeaderSize
  · rw [Device.entry_start header] at called
    exact extent.start called x outside
  · rw [Device.entry_data header] at called
    exact extent.data called x outside

section Links
variable {a : Answer ρ} {desc : Nat → U64} {q : Nat} {mem : U64 → U8} {head : U16}
  (clear : LinksClear extent c q mem (desc q) head)

def Intact (mem mem' : U64 → U8) (desc : U64) (head : U16) : Prop :=
  ∀ i, LedTo (tableAt mem desc) head i → tableAt mem' desc i = tableAt mem desc i

include clear

theorem intact_entry {work work' : Work σ} {i : U16} {count : U64}
    (linked : LedTo (tableAt mem (desc q)) head (slot i))
    (more : (tableAt mem (desc q) (slot i)).hasNext = true)
    (called : dev.entry c q true count (c.addr (tableAt mem (desc q) (slot i)))
      (tableAt mem (desc q) (slot i)).length a.result work = .ok work')
    (intact : Intact mem work.mem (desc q) head) : Intact mem work'.mem (desc q) head := by
  intro j other
  rw [← intact j other]
  exact loadDesc_congr fun x inside => extent.entry called fun stored =>
    clear _ j linked other more x stored inside

theorem intact_link {i first : U16} (linked : LedTo (tableAt mem (desc q)) head (slot i))
    (more : (tableAt mem (desc q) (slot i)).hasNext = true) {s : Shared}
    (intact : Intact mem s.mem (desc q) head) {v : Locals σ} {count : U64} {n m : Nat} {d : Desc}
    (first_entry : tableAt mem (desc q) (slot i) = d) :
    Finishes dev c a desc q (⟨.loadLen ⟨q, first, i, count⟩, v⟩, s) n m ↔
      ∃ work, dev.entry c q d.hasNext count (c.addr d) d.length a.result ⟨v.dev, s.mem⟩ = .ok work ∧
        Intact mem (s.after desc work.mem).mem (desc q) head ∧
        Finishes dev c a desc q (⟨.loadLen ⟨q, first, d.next, count + d.length⟩,
          { v with dev := work.dev }⟩, s.after desc work.mem) (n + 1) m := by
  subst first_entry
  have loaded := intact _ linked
  rw [finishes_entry (w := ⟨q, first, i, count⟩) loaded]
  refine exists_congr fun work => and_congr_right fun called => ?_
  rw [more] at called
  have intact' := intact_entry clear linked more called intact
  rw [if_pos more]
  apply (finishes_next ?_).trans ?_
  · exact tableAt mem (desc q) (slot i)
  · exact intact' _ linked
  · exact (and_iff_right intact').symm

theorem endless_unfinished {i first : U16} (endless : ¬∃ descs, Chain (tableAt mem (desc q)) i descs)
    (linked : LedTo (tableAt mem (desc q)) head (slot i)) {s : Shared}
    (intact : Intact mem s.mem (desc q) head) {v : Locals σ} {count : U64} {n m : Nat} :
    ¬Finishes dev c a desc q (⟨.loadLen ⟨q, first, i, count⟩, v⟩, s) n m := by
  intro finishes
  induction left : m - n using Nat.strong_induction_on generalizing i s v count n with
  | _ k ih =>
      have more : (tableAt mem (desc q) (slot i)).hasNext = true := by
        by_contra final
        exact endless ⟨_, .last (by simpa using final)⟩
      have rest : ¬∃ descs, Chain (tableAt mem (desc q)) (tableAt mem (desc q) (slot i)).next descs :=
        fun ⟨descs, chain⟩ => endless ⟨_, .next more chain⟩
      obtain ⟨work, -, intact', finishes⟩ := (intact_link clear linked more intact rfl).mp finishes
      have bound := finishes.le
      exact ih (m - (n + 1)) (by omega) rest (linked.next more) intact' finishes rfl

end Links

/-- The links end, and none of the callbacks for the descriptors on the way stops the program. -/
def LinksEnd (dev : Device σ ρ) (c : Config) (q : Nat) (result : ρ) (desc : U64) (head : U16)
    (work : Work σ) : Prop :=
  ∃ descs, Chain (tableAt work.mem desc) head descs ∧
    ∃ done, walkList dev c q result descs 0 work = .ok done

theorem relinked_hangs {a : Answer ρ} {desc : Nat → U64} {q : Nat} {v : Locals σ} {s : Shared}
    (d : Desc) (head next : U16) (work : Work σ)
    (taken : (s.queues q).avail.ring (slot (v.processed q)) = head)
    (loaded : tableAt s.mem (desc q) (slot head) = d) (more : d.hasNext = true)
    (called : dev.entry c q true 0 (c.addr d) d.length a.result ⟨v.dev, s.mem⟩ = .ok work)
    (relinked : (tableAt work.mem (desc q) (slot head)).next = next)
    (clear : LinksClear extent c q work.mem (desc q) next)
    (endless : ¬∃ descs, Chain (tableAt work.mem (desc q)) next descs) :
    ¬WalkEnds dev c a desc q v s := by
  rintro ⟨visits, -, ends⟩
  have finishes := (finishes_head taken).mp ends
  have first : tableAt (s.withTables desc).mem (desc q) (slot head) = d := loaded
  rw [finishes_link (w := ⟨q, head, head, 0⟩) first more called rfl] at finishes
  simp only [Walk.counting, relinked] at finishes
  apply endless_unfinished clear endless .refl ?_ finishes
  exact fun _ _ => rfl

end

/-! ## The two devices -/

/-- The header of a `struct virtio_net_hdr_mrg_rxbuf`, on the receive queue. -/
def netExtent (hs : U64) : Extent (Network.virtioNetDevice hs) where
  bytes q _ := if q = 0 then 12 else 0
  start {q addr len work work'} called x outside := by
    cases Except.ok.inj called
    by_cases receive : q = 0
    · rw [if_pos receive] at outside
      have field (k n : Nat) (le : k + n ≤ 12) : ¬InRegion (addr + .ofNat 64 k) n x := by
        have fits : 12 ≤ 2 ^ 64 := by decide
        exact fun inside => outside (inside.shift le fits)
      have flags : ¬InRegion addr 1 x := fun inside => outside (inside.mono (by decide))
      simp only [Network.processQueueStart, if_pos receive, Network.storeHeader]
      rw [store_outside _ _ (field 4 2 (by decide)), store_outside _ _ (field 1 1 (by decide)),
        store_outside _ _ (field 10 2 (by decide)), store_outside _ _ flags]
    · simp [Network.processQueueStart, receive]
  data called x _ := by
    cases Except.ok.inj called
    rfl

def walkConfig : Config := virtioNet 0 0 32

def walkLocals : Locals Network.VirtioNet := ⟨fun _ => 0, .constructed fun _ => 0⟩

def walkAnswer : Answer Network.Received := ⟨false, true, .nothing 0⟩

def tables : Nat → U64 := fun _ => 0x1000

def walkShared (head : U16) (mem : U64 → U8) : Shared :=
  ⟨.constructed walkConfig, 0,
    fun _ => ⟨tableAt mem 0x1000, ⟨head + 1, fun _ => head⟩, ⟨0, fun _ => ⟨0, 0⟩⟩⟩, mem⟩

def descBytes (addr : U16) (len flags next : U8) : List U8 :=
  [addr.setWidth 8, addr.extractLsb' 8 8, 0, 0, 0, 0, 0, 0, len, 0, 0, 0, flags, 0, next, 0]

/-- `num_buffers` of the header is the link of its own descriptor, which leads to the last one until
the device stores 1 there. -/
def headerTable : U64 → U8 :=
  store (fun _ => 0) 0x1000
    (descBytes 0x1004 12 1 2 ++ descBytes 0x2000 0 1 1 ++ descBytes 0x3000 0xff 0 0)

def headerFirst : Desc := tableAt headerTable 0x1000 0

def headerStored : U64 → U8 := Network.storeHeader headerTable 0x1004

theorem headerStored_next : nextSlot (tableAt headerStored 0x1000) 1 = some 1 := rfl

theorem headerStored_loops {i : Nat} (led : LedTo (tableAt headerStored 0x1000) 1 i) : i = 1 := by
  induction led with
  | refl => rfl
  | tail _ link ih =>
      rw [ih, headerStored_next] at link
      exact (Option.some.inj link).symm

theorem headerStored_clear : LinksClear (netExtent 12) walkConfig 0 headerStored 0x1000 1 := by
  intro i j left right _
  rw [headerStored_loops left, headerStored_loops right]
  exact Apart.symm (apart_of_le (by decide) (by decide))

theorem headerStored_endless : ¬∃ descs, Chain (tableAt headerStored 0x1000) 1 descs := by
  rintro ⟨descs, chain⟩
  obtain ⟨slots, follows, -, -⟩ := chain.follows
  have again := congrArg List.length (follows.unique (.link headerStored_next follows))
  simp at again

theorem headerTable_links : LinksEnd (Network.virtioNetDevice 12) walkConfig 0 (.nothing 0) 0x1000 0
    ⟨walkLocals.dev, headerTable⟩ :=
  ⟨[tableAt headerTable 0x1000 0, tableAt headerTable 0x1000 2], .next rfl (.last rfl), _, rfl⟩

/-- Where a callback does store to a descriptor on the way, links that end may lead nowhere. -/
theorem header_rewrites_links :
    LinksEnd (Network.virtioNetDevice 12) walkConfig 0 (.nothing 0) 0x1000 0
      ⟨walkLocals.dev, headerTable⟩ ∧
    ¬WalkEnds (Network.virtioNetDevice 12) walkConfig walkAnswer tables 0 walkLocals
      (walkShared 0 headerTable) := by
  refine ⟨headerTable_links, ?_⟩
  have called : (Network.virtioNetDevice 12).entry walkConfig 0 true 0 (walkConfig.addr headerFirst)
      headerFirst.length (.nothing 0) ⟨walkLocals.dev, headerTable⟩ =
        .ok ⟨⟨fun _ => 0, true, []⟩, headerStored⟩ := rfl
  apply relinked_hangs headerFirst 0 1 ⟨⟨fun _ => 0, true, []⟩, headerStored⟩
  · rfl
  · rfl
  · rfl
  · exact called
  · rfl
  · exact headerStored_clear
  · exact headerStored_endless

end TtBhLinux.Virtio
