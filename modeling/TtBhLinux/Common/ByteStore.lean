import Mathlib.Data.List.Basic

/-!
# Plain arrays under reads and writes

What a sequence of accesses leaves at an index is what the latest write that covers it has put
there (`execAll_latest`), and every read returns these cells (`execAll_reads`).
-/

namespace TtBhLinux.Common
variable {α : Type*}

def slice (store : Nat → α) (off len : Nat) : List α := (List.range len).map fun i => store (off + i)

def covering (off : Nat) (data : List α) (i : Nat) : Option α :=
  if off ≤ i then data[i - off]? else none

def overwrite (store : Nat → α) (off : Nat) (data : List α) (i : Nat) : α :=
  (covering off data i).getD (store i)

inductive Access (α : Type*)
  | read (off len : Nat)
  | write (off : Nat) (data : List α)

namespace Access

def exec (store : Nat → α) : Access α → (Nat → α) × List α
  | .read off len => (store, slice store off len)
  | .write off data => (overwrite store off data, [])

def covering (i : Nat) : Access α → Option α
  | .read _ _ => none
  | .write off data => Common.covering off data i

end Access

def execAll : (Nat → α) → List (Access α) → (Nat → α) × List (List α)
  | store, [] => (store, [])
  | store, access :: rest =>
      let (store', result) := access.exec store
      let (final, results) := execAll store' rest
      (final, result :: results)

def latest (accesses : List (Access α)) (i : Nat) : Option α :=
  accesses.reverse.findSome? (Access.covering i)

@[simp] theorem slice_length (store : Nat → α) (off len : Nat) :
    (slice store off len).length = len := by simp [slice]

theorem exec_covering (store : Nat → α) (access : Access α) (i : Nat) :
    (access.exec store).1 i = (access.covering i).getD (store i) := by
  cases access <;> rfl

theorem slice_overwrite (store : Nat → α) (off : Nat) (data : List α) :
    slice (overwrite store off data) off data.length = data := by
  apply List.ext_getElem (slice_length _ _ _)
  intro i left right
  simp [slice, overwrite, covering, right]

theorem overwrite_add (store : Nat → α) (off : Nat) (data : List α) (p : Nat) :
    overwrite store off data (off + p) = data[p]?.getD (store (off + p)) := by
  simp [overwrite, covering]

theorem overwrite_before (store : Nat → α) {off i : Nat} (data : List α) (before : i < off) :
    overwrite store off data i = store i := by
  simp [overwrite, covering, Nat.not_le.mpr before]

theorem slice_eq_iff (store : Nat → α) (a b n : Nat) :
    slice store a n = slice store b n ↔ ∀ j < n, store (a + j) = store (b + j) := by
  simp [slice, List.map_inj_left]

theorem latest_cons (access : Access α) (rest : List (Access α)) (i : Nat) :
    latest (access :: rest) i = (latest rest i).or (access.covering i) := by
  cases h : access.covering i <;> simp [latest, List.findSome?_append, h]

theorem execAll_concat (store : Nat → α) (accesses : List (Access α))
    (access : Access α) :
    (execAll store (accesses ++ [access])).1 = (access.exec (execAll store accesses).1).1 := by
  induction accesses generalizing store with
  | nil => rfl
  | cons first rest ih => exact ih (first.exec store).1

theorem execAll_latest (store : Nat → α) (accesses : List (Access α)) (i : Nat) :
    (execAll store accesses).1 i = (latest accesses i).getD (store i) := by
  induction accesses generalizing store with
  | nil => rfl
  | cons access rest ih =>
      rw [latest_cons]
      show (execAll (access.exec store).1 rest).1 i = _
      rw [ih, exec_covering]
      cases latest rest i <;> rfl

@[simp] theorem execAll_length (store : Nat → α) (accesses : List (Access α)) :
    (execAll store accesses).2.length = accesses.length := by
  induction accesses generalizing store with
  | nil => rfl
  | cons access rest ih => exact congrArg (· + 1) (ih _)

theorem execAll_reads (store : Nat → α) (accesses : List (Access α)) {k off len : Nat}
    (read : accesses[k]? = some (.read off len)) :
    (execAll store accesses).2[k]? =
      some (slice (fun i => (latest (accesses.take k) i).getD (store i)) off len) := by
  induction accesses generalizing store k with
  | nil => simp at read
  | cons access rest ih =>
      cases k with
      | zero =>
          cases Option.some.inj read
          rfl
      | succ k =>
          show (execAll (access.exec store).1 rest).2[k]? = _
          rw [ih _ read, List.take_succ_cons]
          congr 2
          funext i
          rw [latest_cons, exec_covering]
          cases latest (rest.take k) i <;> rfl

end TtBhLinux.Common
