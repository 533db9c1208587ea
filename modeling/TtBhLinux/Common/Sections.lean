import Mathlib.Data.List.Basic

/-!
# Logs of critical sections

Each party emits the same events in every section of its own. When sections do not overlap, the log
is made up of whole sections, but for the one that is going on.
-/

namespace TtBhLinux.Common
variable {ι α : Type*}

def stamped (body : ι → List α) (i : ι) : List (ι × α) := (body i).map fun a => (i, a)

/-- `current` is the party in its section and the number of events it has emitted there. -/
def Sections (body : ι → List α) (closed : List ι) (current : Option (ι × Nat))
    (log : List (ι × α)) : Prop :=
  log = closed.flatMap (stamped body) ++
    current.toList.flatMap fun (i, n) => (stamped body i).take n

section Events
variable {body : ι → List α} {closed : List ι} {log : List (ι × α)} {i : ι} {n : Nat}

theorem Sections.empty : Sections body [] none [] := rfl

theorem Sections.enter (sections : Sections body closed none log) (i : ι) :
    Sections body closed (some (i, 0)) log := by
  simpa [Sections] using sections

theorem Sections.emit {a : α} (sections : Sections body closed (some (i, n)) log)
    (next : (body i)[n]? = some a) : Sections body closed (some (i, n + 1)) (log ++ [(i, a)]) := by
  have stamp : (stamped body i)[n]? = some (i, a) := by simp [stamped, next]
  simp only [Sections, Option.toList_some, List.flatMap_singleton] at sections ⊢
  rw [List.take_add_one, stamp, sections, List.append_assoc]
  rfl

theorem Sections.leave (sections : Sections body closed (some (i, (body i).length)) log) :
    Sections body (closed ++ [i]) none log := by
  have whole : (stamped body i).take (body i).length = stamped body i :=
    List.take_of_length_le (by simp [stamped])
  simp only [Sections, Option.toList_some, Option.toList_none, List.flatMap_singleton,
    List.flatMap_append, List.flatMap_nil, List.append_nil, whole] at sections ⊢
  exact sections

theorem Sections.own [DecidableEq ι] (sections : Sections body closed none log) (i : ι) :
    (log.filter fun event => event.1 = i).map Prod.snd =
      (List.replicate (closed.count i) (body i)).flatten := by
  simp only [Sections, Option.toList_none, List.flatMap_nil, List.append_nil] at sections
  subst sections
  induction closed with
  | nil => rfl
  | cons j rest ih =>
      have others : (stamped body j).filter (fun event => event.1 = i) =
          if j = i then stamped body j else [] := by
        by_cases same : j = i <;> simp [stamped, same]
      rw [List.flatMap_cons, List.filter_append, others, List.map_append, ih]
      by_cases same : j = i
      · subst same
        simp [stamped, List.replicate_succ, Function.comp_def]
      · simp [same]

end Events
end TtBhLinux.Common
