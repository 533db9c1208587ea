import TtBhLinux.L2cpu.SystemCalls

/-!
# What an object holds

The sequence of calls alone says what an object holds after any number of them. `Holds` ties that to
the state of the operating system.
-/

namespace TtBhLinux.L2cpu
open Common

def Handle.inMemory : Handle → Bool
  | .windowCntl5 | .windowCntl1 => false
  | .first | .second => true

/-- `used` says that a TLB has been allocated, so `open` had not failed; `placed` that a window has
been mapped into `memory`, so neither had its `mmap`. -/
structure Held where
  file : Bool
  used : Bool
  tlb : Handle → Bool
  window : Handle → Bool
  memory : Bool
  placed : Bool

def Held.after (held : Held) : Call → Held
  | .openDevice => { held with file := true }
  | .allocate h => { held with used := true, tlb := Function.update held.tlb h true }
  | .configure _ => held
  | .map h =>
      if h.inMemory then { held with placed := true }
      else { held with window := Function.update held.window h true }
  | .reserve => { held with memory := true }
  | .unmap h => { held with window := Function.update held.window h false }
  | .free h => { held with tlb := Function.update held.tlb h false }
  | .unmapMemory => { held with memory := false }
  | .close => { held with file := false, tlb := fun _ => false }

def heldAfter (made : Nat) : Held :=
  (lifetime.take made).foldl Held.after ⟨false, false, fun _ => false, fun _ => false, false, false⟩

def allHandles : List Handle := [.windowCntl5, .windowCntl1, .first, .second]

def Held.Ready (held : Held) : Call → Bool
  | .openDevice => !held.used && !held.file
  | .allocate _ => held.file
  | .configure h => held.file && held.tlb h
  | .map h => held.file && held.tlb h && !held.window h && held.memory == h.inMemory
  | .reserve => !held.memory && !held.placed && allHandles.all fun h => !held.window h
  | .unmap h => held.window h && !held.memory
  | .free h => held.file && held.tlb h
  | .unmapMemory => held.memory && held.placed && allHandles.all fun h => !held.window h
  | .close => held.file && held.used

theorem ready_lifetime : ∀ n < bodyEnd, (lifetime[n]?).all (heldAfter n).Ready = true := by
  decide

theorem ready_of_next {n : Nat} {call : Call} (before : n < bodyEnd)
    (next : lifetime[n]? = some call) : (heldAfter n).Ready call = true := by
  have all := ready_lifetime n before
  rwa [next, Option.all_some] at all

theorem held_succ {n : Nat} {call : Call} (next : lifetime[n]? = some call) :
    heldAfter (n + 1) = (heldAfter n).after call := by
  rw [heldAfter, List.take_add_one, next, List.foldl_append]
  rfl

theorem mem_allHandles (h : Handle) : h ∈ allHandles := by
  cases h <;> simp [allHandles]

/-! ## The invariant -/

def Covers (obj : Object) (held : Held) (p : U64) : Prop :=
  (held.memory = true ∧ PageAligned obj.memory ∧ InRegion obj.memory (2 <<< 32) p) ∨
    ∃ h, held.window h = true ∧ InRegion (obj.tlbBase h) h.size p

structure Holds (os : Os) (o : Nat) (obj : Object) (held : Held) : Prop where
  opened : held.used = true → 0 ≤ obj.fd
  file : held.file = true → 0 ≤ obj.fd → ∃ file, os.files obj.fd = some file ∧
    file.owner = .object o ∧ ∀ h, held.tlb h = true → obj.tlbId h ∈ file.tlbs
  distinct : ∀ h h', held.tlb h = true → held.tlb h' = true → obj.tlbId h = obj.tlbId h' → h = h'
  apart : ∀ h h', held.window h = true → held.window h' = true → h ≠ h' →
    Apart (obj.tlbBase h) h.size (obj.tlbBase h') h'.size
  used : ∀ h, held.tlb h = true → held.used = true
  aligned : held.placed = true → PageAligned obj.memory
  maps : ∀ p, os.maps p = some (.object o) ↔ Covers obj held p

/-! ## Calls that release -/

section Own
variable {os : Os} {o : Nat} {obj : Object} {held : Held}

theorem Holds.tlb_proper (holds : Holds os o obj held) {h : Handle} (file : held.file = true)
    (tlb : held.tlb h = true) : (Release.freeTlb obj.fd (obj.tlbId h)).Proper os o := by
  obtain ⟨f, at_fd, owner, tlbs⟩ := holds.file file (holds.opened (holds.used h tlb))
  exact ⟨f, at_fd, owner, tlbs h tlb⟩

theorem Holds.release_proper (holds : Holds os o obj held) {call : Call} {answer : Answer}
    (ready : held.Ready call = true) {release : Release}
    (called : releaseOf obj call answer = some release) : release.Proper os o := by
  cases call with
  | openDevice | allocate _ | reserve => cases answer <;> cases called
  | configure h =>
      obtain ⟨file, tlb⟩ := Bool.and_eq_true_iff.mp ready
      cases answer <;> cases called
      exact holds.tlb_proper file tlb
  | map h =>
      simp only [Held.Ready, Bool.and_eq_true] at ready
      cases answer <;> cases called
      exact holds.tlb_proper ready.1.1.1 ready.1.1.2
  | unmap h =>
      obtain ⟨window, -⟩ := Bool.and_eq_true_iff.mp ready
      cases called
      exact fun p inside => (holds.maps p).mpr (.inr ⟨h, window, inside⟩)
  | free h =>
      obtain ⟨file, tlb⟩ := Bool.and_eq_true_iff.mp ready
      cases called
      exact holds.tlb_proper file tlb
  | unmapMemory =>
      simp only [Held.Ready, Bool.and_eq_true] at ready
      cases called
      exact fun p inside => (holds.maps p).mpr (.inl ⟨ready.1.1, holds.aligned ready.1.2, inside⟩)
  | close =>
      obtain ⟨file, used⟩ := Bool.and_eq_true_iff.mp ready
      cases called
      obtain ⟨f, at_fd, owner, -⟩ := holds.file file (holds.opened used)
      exact ⟨f, at_fd, owner⟩

theorem inMemory_of_base {h : Handle} {a : U64} (base : obj.base h = some a) :
    h.inMemory = true := by
  cases h with
  | windowCntl5 | windowCntl1 => cases base
  | first | second => rfl

theorem base_of_inMemory {h : Handle} (outside : h.inMemory = false) : obj.base h = none := by
  cases h with
  | windowCntl5 | windowCntl1 => rfl
  | first | second => cases outside

theorem base_inside {h : Handle} {a p : U64} (base : obj.base h = some a)
    (inside : InRegion a h.size p) : InRegion obj.memory (2 <<< 32) p := by
  cases h with
  | windowCntl5 | windowCntl1 => cases base
  | first =>
      obtain rfl := Option.some.inj base
      exact inside.mono (by show 4294967296 ≤ 8589934592; omega)
  | second =>
      obtain rfl := Option.some.inj base
      have second : InRegion (obj.memory + .ofNat 64 4294967296) 4294967296 p := inside
      exact second.shift (by omega) (by omega)

theorem base_aligned {h : Handle} {a : U64} (base : obj.base h = some a) (aligned : PageAligned a) :
    PageAligned obj.memory := by
  cases h with
  | windowCntl5 | windowCntl1 => cases base
  | first =>
      obtain rfl := Option.some.inj base
      exact aligned
  | second =>
      obtain rfl := Option.some.inj base
      have shift : (1 <<< 32 : U64).toNat = 4294967296 := rfl
      rw [PageAligned, BitVec.toNat_add, shift] at aligned
      rw [PageAligned]
      omega

theorem update_live {live : Handle → Bool} {h h' : Handle}
    (after : Function.update live h false h' = true) : h ≠ h' ∧ live h' = true := by
  by_cases same : h' = h
  · subst same
    simp at after
  · exact ⟨fun eq => same eq.symm, by simpa [same] using after⟩

theorem Holds.unmap (holds : Holds os o obj held) {h : Handle} (window : held.window h = true)
    (alone : held.memory = false) : Holds (os.release (.munmap (obj.tlbBase h) h.size)) o obj
      (held.after (.unmap h)) := by
  refine ⟨holds.opened, holds.file, holds.distinct, ?_, holds.used, holds.aligned, fun p => ?_⟩
  · exact fun h' h'' live live' => holds.apart h' h'' (update_live live).2 (update_live live').2
  · by_cases inside : InRegion (obj.tlbBase h) h.size p
    · simp only [Os.release, inside, if_true, reduceCtorEq, false_iff]
      rintro (⟨memory, -⟩ | ⟨h', live, covered⟩)
      · rw [Held.after, alone] at memory
        cases memory
      · exact holds.apart h h' window (update_live live).2 (update_live live).1 p inside covered
    · simp only [Os.release, inside, if_false, holds.maps p]
      constructor
      · rintro (⟨memory, -⟩ | ⟨h', live, covered⟩)
        · rw [alone] at memory
          cases memory
        · refine .inr ⟨h', ?_, covered⟩
          have ne : h' ≠ h := by
            rintro rfl
            exact inside covered
          simpa [Held.after, ne] using live
      · rintro (⟨memory, -⟩ | ⟨h', live, covered⟩)
        · rw [Held.after, alone] at memory
          cases memory
        · exact .inr ⟨h', (update_live live).2, covered⟩

theorem Holds.free (holds : Holds os o obj held) {h : Handle} (tlb : held.tlb h = true) :
    Holds (os.release (.freeTlb obj.fd (obj.tlbId h))) o obj (held.after (.free h)) := by
  refine ⟨holds.opened, fun file opened => ?_, ?_, holds.apart, ?_, holds.aligned, holds.maps⟩
  · obtain ⟨f, at_fd, owner, tlbs⟩ := holds.file file opened
    refine ⟨{ f with tlbs := f.tlbs.erase (obj.tlbId h) }, ?_, owner, fun h' live => ?_⟩
    · simp [Os.release, Os.modifyFile, at_fd]
    · obtain ⟨ne, live⟩ := update_live live
      exact (List.mem_erase_of_ne fun same => ne (holds.distinct h' h live tlb same).symm).mpr
        (tlbs h' live)
  · exact fun h' h'' live live' => holds.distinct h' h'' (update_live live).2 (update_live live').2
  · exact fun h' live => holds.used h' (update_live live).2

theorem Holds.unmapMemory (holds : Holds os o obj held) (alone : ∀ h, held.window h = false) :
    Holds (os.release (.munmap obj.memory (2 <<< 32))) o obj (held.after .unmapMemory) := by
  refine ⟨holds.opened, holds.file, holds.distinct, holds.apart, holds.used, holds.aligned,
    fun p => ?_⟩
  have nothing : ¬Covers obj (held.after .unmapMemory) p := by
    rintro (⟨memory, -⟩ | ⟨h, live, -⟩)
    · cases memory
    · rw [Held.after, alone h] at live
      cases live
  simp only [nothing, iff_false]
  by_cases inside : InRegion obj.memory (2 <<< 32) p
  · simp only [Os.release, inside, if_true, reduceCtorEq, not_false_eq_true]
  · simp only [Os.release, inside, if_false, holds.maps p]
    rintro (⟨-, -, covered⟩ | ⟨h, live, -⟩)
    · exact inside covered
    · rw [alone h] at live
      cases live

theorem Holds.close (holds : Holds os o obj held) :
    Holds (os.release (.close obj.fd)) o obj (held.after .close) :=
  ⟨holds.opened, fun file => Bool.noConfusion file, fun _ _ live => Bool.noConfusion live,
    holds.apart, fun _ live => Bool.noConfusion live, holds.aligned, holds.maps⟩

/-! ## Calls that acquire -/

theorem Holds.openDevice (holds : Holds os o obj held) (unused : held.used = false) (fd : Int)
    (os' : Os) (maps : os'.maps = os.maps)
    (opened : 0 ≤ fd → ∃ file, os'.files fd = some file ∧ file.owner = .object o) :
    Holds os' o { obj with fd } (held.after .openDevice) := by
  have none (h : Handle) : held.tlb h = false := by
    by_contra live
    have used := holds.used h (Bool.not_eq_false _ ▸ live)
    rw [unused] at used
    cases used
  refine ⟨fun used => ?_, fun _ valid => ?_, holds.distinct, holds.apart, holds.used, holds.aligned,
    fun p => maps ▸ holds.maps p⟩
  · rw [Held.after, unused] at used
    cases used
  · obtain ⟨file, at_fd, owner⟩ := opened valid
    refine ⟨file, at_fd, owner, fun h live => ?_⟩
    rw [Held.after, none h] at live
    cases live

theorem Holds.allocate (holds : Holds os o obj held) {h : Handle} {id : Nat} {file : DeviceFile}
    (has_file : held.file = true) (valid : 0 ≤ obj.fd) (at_fd : os.files obj.fd = some file)
    (fresh : id ∉ file.tlbs) :
    Holds (os.modifyFile obj.fd fun file => { file with tlbs := id :: file.tlbs }) o
      { obj with tlbId := Function.update obj.tlbId h id } (held.after (.allocate h)) := by
  obtain ⟨_, same, owner, tlbs⟩ := holds.file has_file valid
  cases at_fd.symm.trans same
  have old {h' : Handle} (ne : h' ≠ h) (live : Function.update held.tlb h true h' = true) :
      held.tlb h' = true := by simpa [ne] using live
  have differs {h' : Handle} (ne : h' ≠ h) (live : Function.update held.tlb h true h' = true) :
      obj.tlbId h' ≠ id := fun eq => fresh (eq ▸ tlbs h' (old ne live))
  refine ⟨fun _ => valid, fun _ _ => ?_, fun h' h'' live live' same_id => ?_, holds.apart,
    fun _ _ => rfl, holds.aligned, holds.maps⟩
  · refine ⟨{ file with tlbs := id :: file.tlbs }, ?_, owner, fun h' live => ?_⟩
    · simp [Os.modifyFile, at_fd]
    · by_cases ne : h' = h
      · simp [ne]
      · simpa [ne] using .inr (tlbs h' (old ne live))
  · by_cases left : h' = h
    · by_cases right : h'' = h
      · rw [left, right]
      · have other := differs right live'
        simp [left, right] at same_id
        exact absurd same_id.symm other
    · have other := differs left live
      by_cases right : h'' = h
      · simp [left, right] at same_id
        exact absurd same_id other
      · simp only [Function.update_of_ne left, Function.update_of_ne right] at same_id
        exact holds.distinct h' h'' (old left live) (old right live') same_id

theorem Holds.mapFree (holds : Holds os o obj held) {h : Handle} {a : U64}
    (outside : h.inMemory = false) (unmapped : held.window h = false) (free : os.Free a h.size) :
    Holds (os.mmap (.object o) a h.size) o
      { obj with tlbBase := Function.update obj.tlbBase h a } (held.after (.map h)) := by
  have after :
      held.after (.map h) = { held with window := Function.update held.window h true } := by
    rw [Held.after, if_neg (by simp [outside])]
  have new {h' : Handle} {p : U64} (live : held.window h' = true) (inside : InRegion a h.size p) :
      ¬InRegion (obj.tlbBase h') h'.size p := by
    intro covered
    have mapped := (holds.maps p).mpr (.inr ⟨h', live, covered⟩)
    rw [free p inside] at mapped
    cases mapped
  rw [after]
  refine ⟨holds.opened, holds.file, holds.distinct, fun h' h'' live live' ne => ?_, holds.used,
    holds.aligned, fun p => ?_⟩
  · by_cases left : h' = h
    · subst left
      simp only [Function.update_self, Function.update_of_ne (Ne.symm ne)] at live' ⊢
      exact fun p inside => new live' inside
    · by_cases right : h'' = h
      · subst right
        simp only [Function.update_self, Function.update_of_ne ne] at live ⊢
        exact Apart.symm fun p inside => new live inside
      · simp only [Function.update_of_ne left, Function.update_of_ne right] at live live' ⊢
        exact holds.apart h' h'' live live' ne
  · by_cases inside : InRegion a h.size p
    · simp only [Os.mmap, inside, if_true, true_iff]
      exact .inr ⟨h, by simp, by simpa using inside⟩
    · simp only [Os.mmap, inside, if_false, holds.maps p]
      constructor
      · rintro (memory | ⟨h', live, covered⟩)
        · exact .inl memory
        · have ne : h' ≠ h := by
            rintro rfl
            rw [unmapped] at live
            cases live
          exact .inr ⟨h', by simpa [ne] using live, by simpa [ne] using covered⟩
      · rintro (memory | ⟨h', live, covered⟩)
        · exact .inl memory
        · by_cases same : h' = h
          · subst same
            exact absurd (by simpa using covered) inside
          · exact .inr ⟨h', by simpa [same] using live, by simpa [same] using covered⟩

theorem Holds.mapInside (holds : Holds os o obj held) {h : Handle} {a : U64}
    (inside : h.inMemory = true) (unmapped : held.window h = false) (memory : held.memory = true)
    (base : obj.base h = some a) (aligned : PageAligned a) :
    Holds (os.mmap (.object o) a h.size) o
      { obj with tlbBase := Function.update obj.tlbBase h a } (held.after (.map h)) := by
  have after : held.after (.map h) = { held with placed := true } := by
    rw [Held.after, if_pos inside]
  have other {h' : Handle} (live : held.window h' = true) : h' ≠ h := by
    rintro rfl
    rw [unmapped] at live
    cases live
  have page := base_aligned base aligned
  rw [after]
  refine ⟨holds.opened, holds.file, holds.distinct, fun h' h'' live live' ne => ?_, holds.used,
    fun _ => page, fun p => ?_⟩
  · simp only [Function.update_of_ne (other live), Function.update_of_ne (other live')]
    exact holds.apart h' h'' live live' ne
  · by_cases within : InRegion a h.size p
    · simp only [Os.mmap, within, if_true, true_iff]
      exact .inl ⟨memory, page, base_inside base within⟩
    · simp only [Os.mmap, within, if_false, holds.maps p]
      constructor
      · rintro (memory | ⟨h', live, covered⟩)
        · exact .inl memory
        · exact .inr ⟨h', live, by simpa [other live] using covered⟩
      · rintro (memory | ⟨h', live, covered⟩)
        · exact .inl memory
        · exact .inr ⟨h', live, by simpa [other live] using covered⟩

theorem Holds.reserve (holds : Holds os o obj held) {a : U64} (unmapped : held.memory = false)
    (aligned : PageAligned a) :
    Holds (os.mmap (.object o) a (2 <<< 32)) o { obj with memory := a } (held.after .reserve) := by
  refine ⟨holds.opened, holds.file, holds.distinct, holds.apart, holds.used, fun _ => aligned,
    fun p => ?_⟩
  by_cases inside : InRegion a (2 <<< 32) p
  · simp only [Os.mmap, inside, if_true, true_iff]
    exact .inl ⟨rfl, aligned, inside⟩
  · simp only [Os.mmap, inside, if_false, holds.maps p]
    constructor
    · rintro (⟨memory, -⟩ | window)
      · rw [unmapped] at memory
        cases memory
      · exact .inr window
    · rintro (⟨-, -, covered⟩ | window)
      · exact absurd covered inside
      · exact .inr window

theorem Holds.reserveFails (holds : Holds os o obj held) (unmapped : held.memory = false)
    (unplaced : held.placed = false) :
    Holds os o { obj with memory := mapFailed } (held.after .reserve) := by
  refine ⟨holds.opened, holds.file, holds.distinct, holds.apart, holds.used, fun placed => ?_,
    fun p => ?_⟩
  · rw [Held.after, unplaced] at placed
    cases placed
  · rw [holds.maps p]
    constructor
    · rintro (⟨memory, -⟩ | window)
      · rw [unmapped] at memory
        cases memory
      · exact .inr window
    · rintro (⟨-, aligned, -⟩ | window)
      · have refused : mapFailed.toNat % 4096 ≠ 0 := by decide
        exact absurd aligned refused
      · exact .inr window

theorem Holds.made (holds : Holds os o obj held) (made : Nat) :
    Holds os o { obj with made } held :=
  ⟨holds.opened, holds.file, holds.distinct, holds.apart, holds.used, holds.aligned, holds.maps⟩

end Own

end TtBhLinux.L2cpu
