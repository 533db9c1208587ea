import TtBhLinux.Virtio.RingInvariant

/-!
# Steps of driver and device keep the invariant
-/

namespace TtBhLinux.Virtio
open Common

section Queue
variable {n : QueueNum} {v : QueueView}

theorem QueueInv.entered_le (inv : QueueInv n.num v) :
    v.entered.length ≤ v.driver.published.length := by
  simpa using inv.ordered.length_le

theorem QueueInv.collected_le (inv : QueueInv n.num v) :
    v.driver.collected.length ≤ v.entered.length := inv.collected.length_le

theorem QueueInv.published_le (inv : QueueInv n.num v) :
    v.driver.published.length ≤ v.driver.collected.length + n.num :=
  (Nat.le_add_right _ _).trans inv.room

theorem QueueInv.fresh {vq : Virtqueue} (avail_idx : vq.avail.idx = 0) (used_idx : vq.used.idx = 0) :
    QueueInv n.num ⟨.fresh, vq, []⟩ where
  avail_idx := avail_idx
  used_idx := used_idx
  ordered := List.prefix_rfl
  collected := List.prefix_rfl
  room := by simp [RingDriver.fresh]
  avail := fun j _ h => absurd h (Nat.not_lt_zero j)
  pending := by simp [RingDriver.fresh]
  used := fun j _ h => absurd h (Nat.not_lt_zero j)
  linked := by simp [RingDriver.fresh, RingDriver.outstanding]
  seen := by simp [RingDriver.fresh]

theorem mem_outstanding {d : RingDriver} {chain : List U16} :
    chain ∈ d.outstanding ↔
      chain ∈ d.published.drop d.collected.length ∨ d.pending = some chain := by
  rw [RingDriver.outstanding, List.mem_append, Option.mem_toList]

/-! ## The driver -/

variable {d d' : RingDriver} {vq vq' : Virtqueue} {entered : List U32}

theorem setDesc_inv {i : Nat} {desc : Desc} (inv : QueueInv n.num ⟨d, vq, entered⟩)
    (free : ∀ chain ∈ d.outstanding, ∀ j ∈ chain, j.toNat ≠ i) :
    QueueInv n.num ⟨d, { vq with desc := Function.update vq.desc i desc }, entered⟩ :=
  { inv with
    linked := fun chain member => (inv.linked chain member).congr fun j used =>
      Function.update_of_ne (free chain member j used) _ _ }

theorem storeSlot_inv {chain : List U16} (inv : QueueInv n.num ⟨d, vq, entered⟩)
    (room : d.published.length < d.collected.length + n.num)
    (linked : Linked n.num vq.desc chain) :
    QueueInv n.num ⟨{ d with pending := some chain }, { vq with avail := { vq.avail with
      ring := Function.update vq.avail.ring (vq.avail.idx.toNat % n.num) (chainHead chain) } },
      entered⟩ := by
  have free : vq.avail.idx.toNat % n.num = d.published.length % n.num := by
    rw [show vq.avail.idx = _ from inv.avail_idx]
    exact n.ofNat_mod _
  rw [free]
  refine { inv with room := ?_, avail := ?_, pending := ?_, linked := ?_ }
  · exact Nat.succ_le_of_lt room
  · have stored := inv.avail.store (by simpa using room) (chainHead chain)
    simpa using stored
  · intro chain' member
    cases Option.some.inj member
    exact Function.update_self _ _ _
  · intro chain' member
    rcases mem_outstanding.mp member with old | new
    · exact inv.linked chain' (mem_outstanding.mpr (.inl old))
    · cases Option.some.inj new
      exact linked

theorem storeAvailIdx_inv {chain : List U16} (inv : QueueInv n.num ⟨d, vq, entered⟩)
    (pending : d.pending = some chain) :
    QueueInv n.num ⟨{ d with published := d.published ++ [chain], pending := none },
      { vq with avail := { vq.avail with idx := vq.avail.idx + 1 } }, entered⟩ := by
  have behind : d.collected.length ≤ d.published.length := inv.collected_le.trans inv.entered_le
  refine { inv with
    avail_idx := ?_, ordered := ?_, room := ?_, avail := ?_, pending := ?_, linked := ?_ }
  · rw [show vq.avail.idx = _ from inv.avail_idx]
    simpa using ofNat_succ d.published.length
  · simpa using inv.ordered.trans (List.prefix_append _ _)
  · have room := inv.room
    simp only [pending] at room
    simpa using room
  · have stored := inv.pending chain pending
    simp only [List.map_append, List.map_cons, List.map_nil]
    exact inv.avail.append (by simpa using stored)
  · intro chain' member
    cases member
  · intro chain' member
    rcases mem_outstanding.mp member with old | new
    · simp only [List.drop_append_of_le_length behind, List.mem_append, List.mem_singleton] at old
      rcases old with old | rfl
      · exact inv.linked chain' (mem_outstanding.mpr (.inl old))
      · exact inv.linked chain' (mem_outstanding.mpr (.inr pending))
    · cases new

theorem collect_inv {idx : U16} (inv : QueueInv n.num ⟨d, vq, entered⟩) (seen : d.seen = some idx)
    (more : idx ≠ .ofNat 16 d.collected.length) :
    QueueInv n.num ⟨{ d with collected :=
      d.collected ++ [(vq.used.ring (d.collected.length % n.num)).id] }, vq, entered⟩ := by
  obtain ⟨k, from_collected, to_entered, eq⟩ := inv.seen idx seen
  have further : d.collected.length < k := by
    apply lt_of_le_of_ne from_collected
    rintro rfl
    exact more eq
  have lt : d.collected.length < entered.length := further.trans_le to_entered
  have id := inv.used d.collected.length le_rfl lt
  refine { inv with collected := ?_, room := ?_, avail := ?_, used := ?_, linked := ?_, seen := ?_ }
  · have whole : d.collected = entered.take d.collected.length :=
      List.prefix_iff_eq_take.mp inv.collected
    have next : d.collected ++ [(vq.used.ring (d.collected.length % n.num)).id] =
        entered.take (d.collected.length + 1) := by
      rw [List.take_succ_eq_append_getElem lt, ← whole]
      exact congrArg (fun x => d.collected ++ [x]) id
    exact next ▸ List.take_prefix _ _
  · have room := inv.room
    simp only [List.length_append, List.length_singleton] at room ⊢
    omega
  · exact inv.avail.drop (by simp)
  · exact inv.used.drop (by simp)
  · intro chain member
    rcases mem_outstanding.mp member with old | new
    · refine inv.linked chain (mem_outstanding.mpr (.inl ?_))
      simp only [List.length_append, List.length_singleton] at old
      rw [← List.drop_drop] at old
      exact List.mem_of_mem_drop old
    · exact inv.linked chain (mem_outstanding.mpr (.inr new))
  · intro idx' member
    cases Option.some.inj (seen.symm.trans member)
    refine ⟨k, ?_, to_entered, eq⟩
    rw [List.length_append]
    exact further

theorem ringMove_inv {move : RingMove} (inv : QueueInv n.num ⟨d, vq, entered⟩)
    (action : ringMove n.num move d vq = some (d', vq')) :
    QueueInv n.num ⟨d', vq', entered⟩ ∧ vq'.used = vq.used ∧ d.published <+: d'.published := by
  cases move with
  | setDesc i desc =>
      simp only [ringMove, Option.ite_none_right_eq_some, Option.some.injEq] at action
      obtain ⟨free, eq⟩ := action
      obtain ⟨rfl, rfl⟩ := Prod.mk.inj eq
      exact ⟨setDesc_inv inv free, rfl, List.prefix_rfl⟩
  | storeSlot chain =>
      simp only [ringMove, Option.ite_none_right_eq_some, Option.some.injEq] at action
      obtain ⟨⟨_, room, linked⟩, eq⟩ := action
      obtain ⟨rfl, rfl⟩ := Prod.mk.inj eq
      exact ⟨storeSlot_inv inv room linked, rfl, List.prefix_rfl⟩
  | storeAvailIdx =>
      obtain ⟨chain, pending, eq⟩ := Option.map_eq_some_iff.mp action
      obtain ⟨rfl, rfl⟩ := Prod.mk.inj eq
      exact ⟨storeAvailIdx_inv inv pending, rfl, List.prefix_append _ _⟩
  | loadUsedIdx =>
      obtain ⟨rfl, rfl⟩ := Prod.mk.inj (Option.some.inj action)
      refine ⟨{ inv with seen := fun idx member => ?_ }, rfl, List.prefix_rfl⟩
      cases Option.some.inj member
      exact ⟨entered.length, inv.collected_le, le_rfl, inv.used_idx⟩
  | collect =>
      simp only [ringMove, Option.ite_none_right_eq_some, Option.some.injEq] at action
      obtain ⟨more, eq⟩ := action
      obtain ⟨rfl, rfl⟩ := Prod.mk.inj eq
      have seen : ∃ idx, d.seen = some idx ∧ idx ≠ .ofNat 16 d.collected.length := by
        cases seen : d.seen with
        | none => simp [seen] at more
        | some idx => exact ⟨idx, rfl, by simpa [seen] using more⟩
      obtain ⟨idx, seen, ne⟩ := seen
      exact ⟨collect_inv inv seen ne, rfl, List.prefix_rfl⟩

end Queue

structure Evolves (v v' : QueueView) : Prop where
  entered : v'.entered = v.entered
  used : v'.vq.used = v.vq.used
  published : v.driver.published <+: v'.driver.published

theorem Evolves.rfl {v : QueueView} : Evolves v v := ⟨Eq.refl _, Eq.refl _, List.prefix_rfl⟩

section Evolves
variable {n : Nat} {v v' : QueueView} (evolves : Evolves v v')
include evolves

theorem Evolves.next {chain : List U16} (next : v.Next chain) : v'.Next chain := by
  obtain ⟨rest, eq⟩ := evolves.published
  obtain ⟨lt, _⟩ := List.getElem?_eq_some_iff.mp next
  rw [QueueView.Next, evolves.entered, ← eq, List.getElem?_append_left lt]
  exact next

theorem Evolves.taken {w : Walk} {chain : List U16} (taken : Taken n v w chain) :
    Taken n v' w chain :=
  ⟨evolves.next taken.1, evolves.entered ▸ taken.2.1, taken.2.2⟩

theorem Evolves.walking {w : Walk} {rest : List U16} (walking : Walking n v w rest) :
    Walking n v' w rest := by
  obtain ⟨chain, taken, suffix⟩ := walking
  exact ⟨chain, evolves.taken taken, suffix⟩

end Evolves

theorem LoopPc.Inv.evolves {num : Nat → QueueNum} {view view' : Nat → QueueView} {pc : LoopPc}
    (inv : pc.Inv num view) (evolves : ∀ q, Evolves (view q) (view' q)) : pc.Inv num view' := by
  cases pc with
  | queueHasData q | loadHead q =>
      obtain ⟨chain, next⟩ := inv
      exact ⟨chain, (evolves q).next next⟩
  | peekLen w | peekAddr w | loadLen w | loadAddr w l | loadFlags w l addr =>
      obtain ⟨rest, walking⟩ := inv
      exact ⟨rest, (evolves _).walking walking⟩
  | process w l addr more =>
      obtain ⟨rest, walking, eq⟩ := inv
      exact ⟨rest, (evolves _).walking walking, eq⟩
  | loadNext w =>
      obtain ⟨j, rest, walking⟩ := inv
      exact ⟨j, rest, (evolves _).walking walking⟩
  | loadUsedIdx w =>
      obtain ⟨chain, taken⟩ := inv
      exact ⟨chain, (evolves _).taken taken⟩
  | storeId w used_idx =>
      obtain ⟨idx, chain, taken⟩ := inv
      exact ⟨by rw [(evolves _).used]; exact idx, chain, (evolves _).taken taken⟩
  | storeLen w used_idx | storeUsedIdx w used_idx =>
      obtain ⟨idx, id, chain, taken⟩ := inv
      refine ⟨?_, ?_, chain, (evolves _).taken taken⟩
      · rw [(evolves _).used]
        exact idx
      · rw [(evolves _).used]
        exact id
  | _ => trivial

theorem view_update {σ : Type*} (s : Rings σ) (q q' : Nat) (d : RingDriver) (vq : Virtqueue) :
    ({ s with
      shared := { s.shared with queues := Function.update s.shared.queues q vq }
      drivers := Function.update s.drivers q d } : Rings σ).view q' =
      if q' = q then ⟨d, vq, s.entered q⟩ else s.view q' := by
  by_cases same : q' = q
  · subst same
    simp [Rings.view]
  · simp [Rings.view, same]

theorem driver_step_inv {σ : Type*} {num : Nat → QueueNum} {s : Rings σ} {q : Nat}
    {move : RingMove} {d : RingDriver} {vq : Virtqueue} (inv : RingInv num s)
    (action : ringMove (num q).num move (s.drivers q) (s.shared.queues q) = some (d, vq)) :
    RingInv num { s with
      shared := { s.shared with queues := Function.update s.shared.queues q vq }
      drivers := Function.update s.drivers q d } := by
  obtain ⟨moved, used, published⟩ := ringMove_inv (inv.queues q) action
  refine ⟨fun q' => ?_, inv.processed, inv.counting, inv.pc.evolves fun q' => ?_⟩
  · rw [view_update]
    split
    · rename_i same
      subst same
      exact moved
    · exact inv.queues q'
  · rw [view_update]
    split
    · rename_i same
      subst same
      exact ⟨rfl, used, published⟩
    · exact .rfl

/-! ## The device -/

section Device
variable {n : QueueNum} {v : QueueView}

theorem QueueView.Next.lt {chain : List U16} (next : v.Next chain) :
    v.entered.length < v.driver.published.length :=
  (List.getElem?_eq_some_iff.mp next).1

theorem QueueInv.exists_next (inv : QueueInv n.num v)
    (ne : BitVec.ofNat 16 v.entered.length ≠ v.vq.avail.idx) : ∃ chain, v.Next chain := by
  have lt : v.entered.length < v.driver.published.length := by
    refine lt_of_le_of_ne inv.entered_le fun eq => ne ?_
    rw [inv.avail_idx, eq]
  exact ⟨_, List.getElem?_eq_getElem lt⟩

theorem QueueInv.next_linked (inv : QueueInv n.num v) {chain : List U16} (next : v.Next chain) :
    Linked n.num v.vq.desc chain := by
  refine inv.linked chain (mem_outstanding.mpr (.inl ?_))
  refine List.mem_of_getElem? (i := v.entered.length - v.driver.collected.length) ?_
  rw [List.getElem?_drop, Nat.add_sub_cancel' inv.collected_le]
  exact next

theorem QueueInv.next_head (inv : QueueInv n.num v) {chain : List U16} (next : v.Next chain)
    (aligned : v.entered.length % 16384 < n.num) :
    v.vq.avail.ring (v.entered.length % 16384) = chainHead chain := by
  obtain ⟨lt, eq⟩ := List.getElem?_eq_some_iff.mp next
  rw [n.slot_mod aligned, inv.avail v.entered.length inv.collected_le (by simpa using lt),
    List.getElem_map, eq]

theorem Linked.eq_cons {N : Nat} {table : Nat → Desc} {chain : List U16}
    (linked : Linked N table chain) : chain = chainHead chain :: chain.tail := by
  cases chain with
  | nil => exact linked.elim
  | cons i rest => rfl

theorem Walking.linked {w : Walk} {rest : List U16} (inv : QueueInv n.num v)
    (walking : Walking n.num v w rest) : Linked n.num v.vq.desc (w.desc_idx :: rest) := by
  obtain ⟨chain, ⟨next, -, -⟩, suffix⟩ := walking
  exact (inv.next_linked next).suffix suffix (List.cons_ne_nil _ _)

theorem Walking.slot_lt {w : Walk} {rest : List U16} (inv : QueueInv n.num v)
    (walking : Walking n.num v w rest) : slot w.desc_idx = w.desc_idx.toNat := by
  rw [slot_eq]
  exact Nat.mod_eq_of_lt ((walking.linked inv).lt.trans_le n.le)

theorem Walking.advance {w : Walk} {j : U16} {rest : List U16} (count : U64)
    (walking : Walking n.num v w (j :: rest)) :
    Walking n.num v { w with desc_idx := j, num_bytes_written := count } rest := by
  obtain ⟨chain, taken, suffix⟩ := walking
  exact ⟨chain, taken, (List.suffix_cons _ _).trans suffix⟩

theorem QueueInv.room_to_enter (inv : QueueInv n.num v) {chain : List U16} (next : v.Next chain) :
    v.entered.length < v.driver.collected.length + n.num :=
  next.lt.trans_le inv.published_le

@[simp] theorem setEntry_self (u : UsedRing) (i : Nat) (e : UsedElem) :
    (u.setEntry i e).ring i = e := Function.update_self _ _ _

theorem setEntry_id (u : UsedRing) (i : Nat) (e : UsedElem) :
    (fun k => ((u.setEntry i e).ring k).id) =
      Function.update (fun k => (u.ring k).id) i e.id := by
  funext k
  by_cases same : k = i
  · subst same
    simp [UsedRing.setEntry]
  · simp [UsedRing.setEntry, same]

theorem QueueInv.setEntry (inv : QueueInv n.num v) {chain : List U16} (next : v.Next chain)
    (aligned : v.entered.length % 16384 < n.num) (e : UsedElem) :
    QueueInv n.num ⟨v.driver, { v.vq with
      used := v.vq.used.setEntry (v.entered.length % 16384) e }, v.entered⟩ := by
  refine { inv with used := ?_ }
  rw [setEntry_id, n.slot_mod aligned]
  exact inv.used.store (inv.room_to_enter next) e.id

theorem QueueInv.enter (inv : QueueInv n.num v) {w : Walk} {chain : List U16}
    (taken : Taken n.num v w chain)
    (id : (v.vq.used.ring (v.entered.length % 16384)).id = w.desc_idx_first.setWidth 32) :
    QueueInv n.num ⟨v.driver, { v.vq with used := { v.vq.used with idx := v.vq.used.idx + 1 } },
      v.entered ++ [(v.vq.used.ring (v.entered.length % 16384)).id]⟩ := by
  obtain ⟨next, aligned, first⟩ := taken
  obtain ⟨lt, eq⟩ := List.getElem?_eq_some_iff.mp next
  refine { inv with used_idx := ?_, ordered := ?_, collected := ?_, used := ?_, seen := ?_ }
  · rw [inv.used_idx]
    simpa using ofNat_succ v.entered.length
  · have whole : v.entered = (v.driver.published.map chainId).take v.entered.length :=
      List.prefix_iff_eq_take.mp inv.ordered
    have longer : v.entered ++ [(v.vq.used.ring (v.entered.length % 16384)).id] =
        (v.driver.published.map chainId).take (v.entered.length + 1) := by
      rw [List.take_succ_eq_append_getElem (by simpa using lt), ← whole, List.getElem_map, eq, id,
        first]
      rfl
    exact longer ▸ List.take_prefix _ _
  · exact inv.collected.trans (List.prefix_append _ _)
  · exact inv.used.append (by rw [← n.slot_mod aligned])
  · intro idx member
    obtain ⟨k, from_collected, to_entered, eq⟩ := inv.seen idx member
    exact ⟨k, from_collected, by simp; omega, eq⟩

end Device

end TtBhLinux.Virtio
