import TtBhLinux.Virtio.RingDriver

/-!
# The invariant of the rings

`avail.idx`, `used.idx` and `processed` count the published and the entered chains modulo 2^16, both
rings keep their entries from the first uncollected one on, and the walk is on the next chain.
-/

namespace TtBhLinux.Virtio
open Common

structure QueueView where
  driver : RingDriver
  vq : Virtqueue
  entered : List U32

def Rings.view {σ : Type*} (s : Rings σ) (q : Nat) : QueueView :=
  ⟨s.drivers q, s.shared.queues q, s.entered q⟩

def chainId (chain : List U16) : U32 := (chainHead chain).setWidth 32

structure QueueInv (n : Nat) (v : QueueView) : Prop where
  avail_idx : v.vq.avail.idx = .ofNat 16 v.driver.published.length
  used_idx : v.vq.used.idx = .ofNat 16 v.entered.length
  ordered : v.entered <+: v.driver.published.map chainId
  collected : v.driver.collected <+: v.entered
  room : v.driver.published.length + v.driver.pending.toList.length ≤
    v.driver.collected.length + n
  avail : Keeps n v.vq.avail.ring (v.driver.published.map chainHead) v.driver.collected.length
  pending : ∀ chain ∈ v.driver.pending,
    v.vq.avail.ring (v.driver.published.length % n) = chainHead chain
  used : Keeps n (fun i => (v.vq.used.ring i).id) v.entered v.driver.collected.length
  linked : ∀ chain ∈ v.driver.outstanding, Linked n v.vq.desc chain
  seen : ∀ idx ∈ v.driver.seen, ∃ k ≥ v.driver.collected.length,
    k ≤ v.entered.length ∧ idx = .ofNat 16 k

def QueueView.Next (v : QueueView) (chain : List U16) : Prop :=
  v.driver.published[v.entered.length]? = some chain

def Taken (n : Nat) (v : QueueView) (w : Walk) (chain : List U16) : Prop :=
  v.Next chain ∧ v.entered.length % 16384 < n ∧ w.desc_idx_first = chainHead chain

def Walking (n : Nat) (v : QueueView) (w : Walk) (rest : List U16) : Prop :=
  ∃ chain, Taken n v w chain ∧ w.desc_idx :: rest <:+ chain

def LoopPc.Inv (num : Nat → QueueNum) (view : Nat → QueueView) : LoopPc → Prop
  | .queueHasData q | .loadHead q => ∃ chain, (view q).Next chain
  | .peekLen w | .peekAddr w | .loadLen w | .loadAddr w _ | .loadFlags w _ _ =>
      ∃ rest, Walking (num w.queue_idx).num (view w.queue_idx) w rest
  | .process w _ _ more =>
      ∃ rest, Walking (num w.queue_idx).num (view w.queue_idx) w rest ∧ more = !rest.isEmpty
  | .loadNext w => ∃ j rest, Walking (num w.queue_idx).num (view w.queue_idx) w (j :: rest)
  | .loadUsedIdx w => ∃ chain, Taken (num w.queue_idx).num (view w.queue_idx) w chain
  | .storeId w used_idx => used_idx = (view w.queue_idx).vq.used.idx ∧
      ∃ chain, Taken (num w.queue_idx).num (view w.queue_idx) w chain
  | .storeLen w used_idx | .storeUsedIdx w used_idx =>
      used_idx = (view w.queue_idx).vq.used.idx ∧
      ((view w.queue_idx).vq.used.ring (slot used_idx)).id = w.desc_idx_first.setWidth 32 ∧
      ∃ chain, Taken (num w.queue_idx).num (view w.queue_idx) w chain
  | _ => True

structure RingInv {σ : Type*} (num : Nat → QueueNum) (s : Rings σ) : Prop where
  queues : ∀ q, QueueInv (num q).num (s.view q)
  processed : ∀ q, s.loop.pc ≠ .countProcessed q →
    s.loop.vars.processed q = .ofNat 16 (s.entered q).length
  counting : ∀ q, s.loop.pc = .countProcessed q →
    s.loop.vars.processed q + 1 = .ofNat 16 (s.entered q).length
  pc : s.loop.pc.Inv num s.view

def LoopPc.takes : LoopPc → Option Nat
  | .loadHead q => some q
  | _ => none

/-- The device takes a chain only from a slot of the driver's avail ring. -/
def TakesInside {σ ρ : Type*} (num : Nat → QueueNum) (s : Rings σ) : RingLabel ρ → Prop
  | .device _ => ∀ q ∈ s.loop.pc.takes, slot (s.loop.vars.processed q) < (num q).num
  | _ => True

instance {σ ρ : Type*} (num : Nat → QueueNum) (s : Rings σ) :
    ∀ label : RingLabel ρ, Decidable (TakesInside num s label)
  | .device _ => inferInstanceAs (Decidable (∀ q ∈ s.loop.pc.takes, _ < _))
  | .driver _ _ | .guest _ _ => .isTrue trivial

/-! ## Arithmetic of the counters -/

theorem ofNat_succ (k : Nat) : (BitVec.ofNat 16 k : U16) + 1 = .ofNat 16 (k + 1) :=
  (BitVec.ofNat_add k 1).symm

theorem slot_ofNat (k : Nat) : slot (.ofNat 16 k) = k % 16384 := by
  rw [slot_eq, BitVec.toNat_ofNat]
  omega

theorem QueueNum.slot_mod (n : QueueNum) {k : Nat} (aligned : k % 16384 < n.num) :
    k % 16384 = k % n.num := by
  rw [← Nat.mod_mod_of_dvd k n.dvd, Nat.mod_eq_of_lt aligned]

theorem QueueNum.ofNat_mod (n : QueueNum) (k : Nat) :
    (BitVec.ofNat 16 k : U16).toNat % n.num = k % n.num := by
  rw [BitVec.toNat_ofNat]
  exact Nat.mod_mod_of_dvd k (n.dvd.trans (by decide))

/-! ## Linked chains -/

theorem Linked.suffix {n : Nat} {table : Nat → Desc} {chain tail : List U16}
    (linked : Linked n table chain) (suffix : tail <:+ chain) (nonempty : tail ≠ []) :
    Linked n table tail := by
  induction chain with
  | nil => exact linked.elim
  | cons i rest ih =>
      rcases List.suffix_cons_iff.mp suffix with rfl | suffix
      · exact linked
      · cases rest with
        | nil => exact absurd (List.suffix_nil.mp suffix) nonempty
        | cons j rest => exact ih linked.2.2.2 suffix

theorem Linked.lt {n : Nat} {table : Nat → Desc} {i : U16} {rest : List U16}
    (linked : Linked n table (i :: rest)) : i.toNat < n := by
  cases rest with
  | nil => exact linked.1
  | cons => exact linked.1

theorem Linked.hasNext {n : Nat} {table : Nat → Desc} {i : U16} {rest : List U16}
    (linked : Linked n table (i :: rest)) : (table i.toNat).hasNext = !rest.isEmpty := by
  cases rest with
  | nil => exact linked.2
  | cons => exact linked.2.1

theorem Linked.congr {n : Nat} {table table' : Nat → Desc} {chain : List U16}
    (linked : Linked n table chain) (same : ∀ i ∈ chain, table' i.toNat = table i.toNat) :
    Linked n table' chain := by
  induction chain with
  | nil => exact linked
  | cons i rest ih =>
      have first := same i List.mem_cons_self
      cases rest with
      | nil =>
          simp only [Linked, first]
          exact linked
      | cons j rest =>
          simp only [Linked, first]
          exact ⟨linked.1, linked.2.1, linked.2.2.1,
            ih linked.2.2.2 fun i member => same i (List.mem_cons_of_mem _ member)⟩

end TtBhLinux.Virtio
