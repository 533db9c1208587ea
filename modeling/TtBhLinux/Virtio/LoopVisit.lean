import TtBhLinux.Virtio.Loop

/-!
# Steps of the loop make up a visit

Left alone by its guest, `device_loop` does in single loads and stores what `visit` says.
-/

namespace TtBhLinux.Virtio
open Common

section
variable {σ ρ : Type*} (dev : Device σ ρ) (c : Config) (a : Answer ρ)

def loopSteps : Nat → Loop σ × Shared → Option (Loop σ × Shared)
  | 0, state => some state
  | n + 1, state => (loopStep dev c a state.1 state.2).bind (loopSteps n)

def Executes (before after : Loop σ × Shared) : Prop := ∃ n, loopSteps dev c a n before = some after

variable {dev c a}

theorem Executes.refl (state : Loop σ × Shared) : Executes dev c a state state := ⟨0, rfl⟩

theorem Executes.step {state t after : Loop σ × Shared}
    (action : loopStep dev c a state.1 state.2 = some t) (rest : Executes dev c a t after) :
    Executes dev c a state after := by
  obtain ⟨n, steps⟩ := rest
  exact ⟨n + 1, by rw [loopSteps, action, Option.bind_some, steps]⟩

theorem executes_entry {v : Locals σ} {s : Shared} {w : Walk} {work : Work σ}
    {after : Loop σ × Shared}
    (called : dev.entry c w.queue_idx (s.desc w).hasNext w.num_bytes_written (c.addr (s.desc w))
      (s.desc w).length a.result ⟨v.dev, s.mem⟩ = .ok work)
    (rest : Executes dev c a
      (let w := { w with num_bytes_written := w.num_bytes_written + (s.desc w).length }
       (⟨if (s.desc w).hasNext then .loadNext w else .loadUsedIdx w, { v with dev := work.dev }⟩,
        { s with mem := work.mem })) after) :
    Executes dev c a (⟨.loadLen w, v⟩, s) after := by
  refine .step rfl (.step rfl (.step rfl (.step ?_ rest)))
  simp only [loopStep, called]
  rfl

theorem executes_walk {q : Nat} {v : Locals σ} {s : Shared} {fuel : Nat} {first i : U16}
    {count total : U64} {work : Work σ}
    (walked : walk dev c (s.queues q).desc q a.result fuel i count ⟨v.dev, s.mem⟩ =
      .ok (total, work)) :
    ∃ last, Executes dev c a (⟨.loadLen ⟨q, first, i, count⟩, v⟩, s)
      (⟨.loadUsedIdx ⟨q, first, last, total⟩, { v with dev := work.dev }⟩,
        { s with mem := work.mem }) := by
  induction fuel generalizing i count v s with
  | zero => cases walked
  | succ fuel ih =>
      simp only [walk] at walked
      split at walked
      · cases walked
      · rename_i mid called
        split at walked
        · rename_i more
          obtain ⟨last, rest⟩ := ih (v := { v with dev := mid.dev }) (s := { s with mem := mid.mem })
            walked
          refine ⟨last, executes_entry (w := ⟨q, first, i, count⟩) called ?_⟩
          simp only [Shared.desc, more, if_true]
          exact .step rfl rest
        · rename_i final
          obtain ⟨rfl, rfl⟩ := Prod.mk.inj (Except.ok.inj walked)
          refine ⟨i, executes_entry (w := ⟨q, first, i, count⟩) called ?_⟩
          simp only [Shared.desc, final]
          exact .refl _

theorem Executes.trans {state mid after : Loop σ × Shared} (first : Executes dev c a state mid)
    (second : Executes dev c a mid after) : Executes dev c a state after := by
  obtain ⟨n, steps⟩ := first
  induction n generalizing state with
  | zero =>
      cases Option.some.inj steps
      exact second
  | succ n ih =>
      obtain ⟨next, action, rest⟩ := Option.bind_eq_some_iff.mp steps
      exact .step action (ih rest)

theorem stores_publish (s : Shared) (w : Walk) (mem : U64 → U8) :
    ((({ s with mem } : Shared).storeUsedId w (s.queues w.queue_idx).used.idx).storeUsedLen w
      (s.queues w.queue_idx).used.idx).storeUsedIdx w (s.queues w.queue_idx).used.idx =
      s.publish w.queue_idx w.desc_idx_first w.num_bytes_written mem := by
  simp [Shared.storeUsedId, Shared.storeUsedLen, Shared.storeUsedIdx, Shared.updateUsed,
    UsedRing.setEntry, Shared.publish, UsedRing.publish]

theorem executes_publish (v : Locals σ) (s : Shared) (w : Walk) (mem : U64 → U8) :
    Executes dev c a (⟨.loadUsedIdx w, v⟩, { s with mem })
      (⟨c.nextQueue w.queue_idx, v.publish w.queue_idx v.dev⟩,
        (s.publish w.queue_idx w.desc_idx_first w.num_bytes_written mem).setInterrupt) := by
  rw [← stores_publish]
  exact ⟨9, rfl⟩

theorem executes_visit {fuel q : Nat} {v v' : Locals σ} {s s' : Shared}
    (visited : visit dev c fuel q a v s = .ok (v', s')) :
    Executes dev c a (⟨.loadAvailIdx q, v⟩, s) (⟨c.nextQueue q, v'⟩, s') := by
  simp only [visit] at visited
  split at visited
  · rename_i taken
    obtain ⟨available, ready⟩ := taken
    split at visited
    · cases visited
    · rename_i total work walked
      obtain ⟨rfl, rfl⟩ := Prod.mk.inj (Except.ok.inj visited)
      obtain ⟨last, walks⟩ := executes_walk walked
      apply Executes.step (t := (⟨.queueHasData q, v⟩, s)) (by simp [loopStep, available])
      apply Executes.step (t := (⟨.loadHead q, v⟩, s)) (by simp [loopStep, ready])
      refine .step rfl (.step rfl (.step rfl (walks.trans ?_)))
      exact executes_publish { v with dev := work.dev } s _ work.mem
  · rename_i idle
    obtain ⟨rfl, rfl⟩ := Prod.mk.inj (Except.ok.inj visited)
    by_cases available : v.processed q = (s.queues q).avail.idx
    · exact .step (t := (⟨c.nextQueue q, v⟩, s)) (by simp [loopStep, available]) (.refl _)
    · have waiting : dev.queueHasData q a.ready = false := by
        simpa [available] using idle
      apply Executes.step (t := (⟨.queueHasData q, v⟩, s)) (by simp [loopStep, available])
      exact .step (t := (⟨c.nextQueue q, v⟩, s)) (by simp [loopStep, waiting]) (.refl _)

end
end TtBhLinux.Virtio
