import Mathlib.Data.List.Basic
import Mathlib.Data.List.Nodup
import Mathlib.Data.List.Perm.Subperm
import Mathlib.Data.List.Range
import Mathlib.Logic.Relation

/-!
# Following links

`Follows next a path` says that whoever starts at `a` and goes from node to node along `next` meets
the nodes of `path` and then stops. A path that stops has met no node twice.
-/

namespace TtBhLinux.Common
variable {α : Type*} {next : α → Option α}

inductive Follows (next : α → Option α) : α → List α → Prop
  | stop {a : α} : next a = none → Follows next a [a]
  | link {a b : α} {path : List α} : next a = some b → Follows next b path →
      Follows next a (a :: path)

theorem Follows.unique {a : α} {path path' : List α} (h : Follows next a path)
    (h' : Follows next a path') : path = path' := by
  induction h generalizing path' with
  | stop ends =>
      cases h' with
      | stop _ => rfl
      | link more _ =>
          rw [ends] at more
          cases more
  | link more _ ih =>
      cases h' with
      | stop ends =>
          rw [ends] at more
          cases more
      | link more' rest' =>
          rw [more] at more'
          cases more'
          rw [ih rest']

theorem Follows.from_mem {a b : α} {path : List α} (h : Follows next a path) (member : b ∈ path) :
    ∃ path', Follows next b path' ∧ path'.length ≤ path.length := by
  induction h with
  | stop ends =>
      obtain rfl := List.mem_singleton.mp member
      exact ⟨_, .stop ends, le_rfl⟩
  | link more rest ih =>
      rcases List.mem_cons.mp member with rfl | member
      · exact ⟨_, .link more rest, le_rfl⟩
      · obtain ⟨path', follows, shorter⟩ := ih member
        exact ⟨path', follows, shorter.trans (Nat.le_succ _)⟩

theorem Follows.nodup {a : α} {path : List α} (h : Follows next a path) : path.Nodup := by
  induction h with
  | stop _ => exact List.nodup_singleton _
  | link more rest ih =>
      apply List.nodup_cons.mpr
      refine ⟨fun again => ?_, ih⟩
      -- A second visit would have to be followed by the whole path once more.
      obtain ⟨path', follows, shorter⟩ := rest.from_mem again
      rw [follows.unique (.link more rest), List.length_cons] at shorter
      omega

theorem Follows.length_le {next : Nat → Option Nat} {a n : Nat} {path : List Nat}
    (h : Follows next a path) (below : ∀ b ∈ path, b < n) : path.length ≤ n := by
  have subset : path ⊆ List.range n := fun b member => List.mem_range.mpr (below b member)
  have bound := (List.Nodup.subperm h.nodup subset).length_le
  rwa [List.length_range] at bound

end TtBhLinux.Common
