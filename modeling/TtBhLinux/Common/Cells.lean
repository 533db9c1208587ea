import Mathlib.Data.List.Basic
import Mathlib.Data.List.Nodup
import Mathlib.Logic.Function.Basic

/-!
# Writes to the cells of a store

A store gives every cell of any type a value. A sequence of writes leaves in each cell what was
written there last.
-/

namespace TtBhLinux.Common
variable {κ β : Type*} [DecidableEq κ]

def put (mem : κ → β) (writes : List (κ × β)) : κ → β :=
  writes.foldl (fun mem write => Function.update mem write.1 write.2) mem

theorem put_append (mem : κ → β) (before after : List (κ × β)) :
    put mem (before ++ after) = put (put mem before) after := List.foldl_append

theorem put_outside (mem : κ → β) {writes : List (κ × β)} {x : κ}
    (outside : x ∉ writes.map Prod.fst) : put mem writes x = mem x := by
  induction writes generalizing mem with
  | nil => rfl
  | cons write rest ih =>
      rw [List.map_cons, List.mem_cons, not_or] at outside
      exact (ih _ outside.2).trans (Function.update_of_ne outside.1 _ _)

theorem put_last (mem : κ → β) {before after : List (κ × β)} {x : κ} {b : β}
    (last : x ∉ after.map Prod.fst) : put mem (before ++ (x, b) :: after) x = b := by
  rw [put_append]
  exact (put_outside _ last).trans (Function.update_self _ _ _)

theorem put_of_mem (mem : κ → β) {writes : List (κ × β)} {x : κ} {b : β}
    (distinct : (writes.map Prod.fst).Nodup) (member : (x, b) ∈ writes) : put mem writes x = b := by
  obtain ⟨before, after, rfl⟩ := List.append_of_mem member
  apply put_last
  rw [List.map_append, List.map_cons] at distinct
  exact (List.nodup_cons.mp (List.nodup_append.mp distinct).2.1).1

end TtBhLinux.Common
