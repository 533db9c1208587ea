import TtBhLinux.L2cpu.Holdings

/-!
# Does tearing down release only what the object owns?

Up to the end of the destructor's body it does. The destructors of `second` and `first` unmap and
free once more, by which time the range and the descriptor can be another object's.
-/

namespace TtBhLinux.L2cpu
open Common

def InBody (s : Process) (e : Event) : Prop := Allowed s e ∧ ¬MemberCall s e

def Process.Inv (s : Process) : Prop :=
  (∀ n file, s.os.files n = some file → 0 ≤ n) ∧
    (s.exited = false → ∀ o, Holds s.os o (s.objects o) (heldAfter (s.objects o).made))

theorem Holds.others {s t : Process} {o p : Nat} (step : OwnStep o s t) (ne : p ≠ o)
    {held : Held} (holds : Holds s.os p (s.objects p) held) : Holds t.os p (t.objects p) held := by
  have foreign : Owner.object p ≠ .object o := fun same => ne (Owner.object.inj same)
  rw [step.objects p ne]
  refine ⟨holds.opened, fun file opened => ?_, holds.distinct, holds.apart, holds.used,
    holds.aligned, fun a => ?_⟩
  · obtain ⟨f, at_fd, owner, tlbs⟩ := holds.file file opened
    rcases step.files (s.objects p).fd with same | ⟨before, -⟩
    · exact ⟨f, same.trans at_fd, owner, tlbs⟩
    · exact absurd (owner.symm.trans (before f at_fd)) foreign
  · rw [← holds.maps a]
    rcases step.maps a with same | ⟨before, after⟩
    · rw [same]
    · exact ⟨fun mapped => absurd (after _ mapped) foreign,
        fun mapped => absurd (before _ mapped) foreign⟩

section OwnStep
variable {s t : Process} {o : Nat}

theorem files_ownStep {fd : Int} {file : Option DeviceFile}
    (files : t.os.files = Function.update s.os.files fd file) (maps : t.os.maps = s.os.maps)
    (before : ∀ f, s.os.files fd = some f → f.owner = .object o)
    (after : ∀ f, file = some f → f.owner = .object o)
    (objects : ∀ p, p ≠ o → t.objects p = s.objects p) : OwnStep o s t := by
  refine ⟨fun n => ?_, fun p => .inl (by rw [maps]), objects⟩
  by_cases same : n = fd
  · subst same
    rw [files, Function.update_self]
    exact .inr ⟨before, after⟩
  · exact .inl (by rw [files, Function.update_of_ne same])

theorem modifyFile_ownStep {fd : Int} {f : DeviceFile → DeviceFile} {file : DeviceFile}
    (os : t.os = s.os.modifyFile fd f) (at_fd : s.os.files fd = some file)
    (own : file.owner = .object o) (keeps : (f file).owner = file.owner)
    (objects : ∀ p, p ≠ o → t.objects p = s.objects p) : OwnStep o s t := by
  refine files_ownStep (by rw [os]; rfl) (by rw [os]; rfl) ?_ ?_ objects
  · intro old before
    rw [Option.some.inj (before.symm.trans at_fd), own]
  · intro new after
    rw [at_fd] at after
    rw [← Option.some.inj after, keeps, own]

theorem maps_ownStep {base : U64} {size : Nat} {owner : Option Owner}
    (files : t.os.files = s.os.files)
    (maps : ∀ p, t.os.maps p = if InRegion base size p then owner else s.os.maps p)
    (before : ∀ p, InRegion base size p → ∀ old, s.os.maps p = some old → old = .object o)
    (after : ∀ new, owner = some new → new = .object o)
    (objects : ∀ p, p ≠ o → t.objects p = s.objects p) : OwnStep o s t := by
  refine ⟨fun n => .inl (by rw [files]), fun p => ?_, objects⟩
  by_cases inside : InRegion base size p
  · rw [maps, if_pos inside]
    exact .inr ⟨before p inside, after⟩
  · exact .inl (by rw [maps, if_neg inside])

theorem release_ownStep {release : Release} (proper : release.Proper s.os o)
    (os : t.os = s.os.release release) (objects : ∀ p, p ≠ o → t.objects p = s.objects p) :
    OwnStep o s t := by
  cases release with
  | munmap base size =>
      refine @maps_ownStep s t o base size none (by rw [os]; rfl) (fun p => by rw [os]; rfl) ?_ ?_
        objects
      · intro p inside old before
        exact Option.some.inj (before.symm.trans (proper p inside))
      · intro new after
        cases after
  | close fd =>
      obtain ⟨file, at_fd, own⟩ := proper
      refine files_ownStep (by rw [os]; rfl) (by rw [os]; rfl) ?_ ?_ objects
      · intro f before
        rw [Option.some.inj (before.symm.trans at_fd), own]
      · intro f after
        cases after
  | freeTlb fd id =>
      obtain ⟨file, at_fd, own, -⟩ := proper
      exact modifyFile_ownStep os at_fd own rfl objects

theorem mmap_ownStep {base : U64} {size : Nat} (os : t.os = s.os.mmap (.object o) base size)
    (own : ∀ p, InRegion base size p → ∀ owner, s.os.maps p = some owner → owner = .object o)
    (objects : ∀ p, p ≠ o → t.objects p = s.objects p) : OwnStep o s t := by
  refine maps_ownStep (by rw [os]; rfl) (fun p => by rw [os]; rfl) own ?_ objects
  intro new after
  exact (Option.some.inj after).symm

end OwnStep

theorem modifyFile_files {os : Os} {fd n : Int} {f : DeviceFile → DeviceFile} {file : DeviceFile}
    (at_n : (os.modifyFile fd f).files n = some file) : ∃ old, os.files n = some old := by
  by_cases same : n = fd
  · subst same
    simp only [Os.modifyFile, Function.update_self] at at_n
    obtain ⟨old, before, -⟩ := Option.map_eq_some_iff.mp at_n
    exact ⟨old, before⟩
  · exact ⟨file, by simpa [Os.modifyFile, same] using at_n⟩

theorem release_files {os : Os} {release : Release} {n : Int} {file : DeviceFile}
    (at_n : (os.release release).files n = some file) : ∃ old, os.files n = some old := by
  cases release with
  | munmap base size => exact ⟨file, at_n⟩
  | close fd =>
      by_cases same : n = fd
      · subst same
        simp [Os.release] at at_n
      · exact ⟨file, by simpa [Os.release, same] using at_n⟩
  | freeTlb fd id => exact modifyFile_files at_n

structure Calls (s : Process) (o : Nat) (held : Held) (call : Call) (answer : Answer) : Prop where
  files : ∀ n file, s.os.files n = some file → 0 ≤ n
  holds : Holds s.os o (s.objects o) held
  ready : held.Ready call = true
  answers : s.os.MayAnswer (s.objects o) call answer

section Calls
variable {s : Process} {o : Nat} {held : Held} {call : Call} {answer : Answer}

theorem perform_others (s : Process) (call : Call) (answer : Answer) {p : Nat} (ne : p ≠ o) :
    (s.perform o call answer).objects p = s.objects p := Function.update_of_ne ne _ _

theorem perform_release {release : Release}
    (called : releaseOf (s.objects o) call answer = some release) :
    (s.perform o call answer).os = s.os.release release := by
  simp only [Process.perform, called]

theorem perform_acquire (called : releaseOf (s.objects o) call answer = none) :
    (s.perform o call answer).os = s.os.acquire o (s.objects o) call answer := by
  simp only [Process.perform, called]

theorem acquire_ownStep (calls : Calls s o held call answer)
    (called : releaseOf (s.objects o) call answer = none) :
    OwnStep o s (s.perform o call answer) := by
  obtain ⟨files, holds, ready, answers⟩ := calls
  have os := perform_acquire called
  have objects := fun p ne => perform_others (o := o) s call answer (p := p) ne
  have unchanged (same : s.os.acquire o (s.objects o) call answer = s.os) :
      OwnStep o s (s.perform o call answer) := by
    rw [same] at os
    exact ⟨fun n => .inl (by rw [os]), fun p => .inl (by rw [os]), objects⟩
  cases call with
  | openDevice =>
      cases answer with
      | fd n =>
          refine files_ownStep (by rw [os]; rfl) (by rw [os]; rfl) ?_ ?_ objects
          · intro file before
            rw [answers.2] at before
            cases before
          · intro file after
            rw [← Option.some.inj after]
      | _ => exact unchanged rfl
  | allocate h =>
      cases answer with
      | tlb id =>
          obtain ⟨file, at_fd, -⟩ := answers
          obtain ⟨_, same, own, -⟩ := holds.file ready (files _ _ at_fd)
          cases at_fd.symm.trans same
          exact modifyFile_ownStep os at_fd own rfl objects
      | _ => exact unchanged rfl
  | map h =>
      cases answer with
      | address a =>
          obtain ⟨-, aligned, placed⟩ := answers
          simp only [Held.Ready, Bool.and_eq_true, beq_iff_eq] at ready
          refine mmap_ownStep os (fun p inside owner at_p => ?_) objects
          cases base : (s.objects o).base h with
          | none =>
              rw [base] at placed
              rw [placed p inside] at at_p
              cases at_p
          | some b =>
              rw [base] at placed
              subst placed
              have memory : held.memory = true := ready.2.trans (inMemory_of_base base)
              have page := base_aligned base aligned
              have within := base_inside base inside
              have mapped := (holds.maps p).mpr (.inl ⟨memory, page, within⟩)
              exact Option.some.inj (at_p.symm.trans mapped)
      | _ => exact unchanged rfl
  | reserve =>
      cases answer with
      | address a =>
          refine mmap_ownStep os (fun p inside owner at_p => ?_) objects
          rw [answers.2 p inside] at at_p
          cases at_p
      | _ => exact unchanged rfl
  | configure h => exact unchanged rfl
  | unmap h | free h | unmapMemory | close => cases called

theorem perform_ownStep (calls : Calls s o held call answer) :
    OwnStep o s (s.perform o call answer) := by
  cases called : releaseOf (s.objects o) call answer with
  | none => exact acquire_ownStep calls called
  | some release =>
      exact release_ownStep (calls.holds.release_proper calls.ready called) (perform_release called)
        fun p ne => perform_others s call answer ne

theorem perform_self (s : Process) (call : Call) (answer : Answer) :
    (s.perform o call answer).objects o =
      { (s.objects o).receive call answer with made := (s.objects o).made + 1 } :=
  Function.update_self _ _ _

theorem perform_holds (calls : Calls s o held call answer) (stays : exits call answer = false) :
    Holds (s.perform o call answer).os o ((s.perform o call answer).objects o)
      (held.after call) := by
  obtain ⟨files, holds, ready, answers⟩ := calls
  rw [perform_self]
  refine Holds.made ?_ _
  cases call with
  | openDevice =>
      simp only [Held.Ready, Bool.and_eq_true, Bool.not_eq_true'] at ready
      obtain ⟨unused, -⟩ := ready
      rw [perform_acquire (by cases answer <;> rfl)]
      cases answer with
      | fd n => exact holds.openDevice unused n _ rfl fun _ => ⟨_, Function.update_self _ _ _, rfl⟩
      | fails => exact holds.openDevice unused (-1) _ rfl fun valid => absurd valid (by decide)
      | done | tlb _ | address _ => cases answers
  | allocate h =>
      cases answer with
      | tlb id =>
          obtain ⟨file, at_fd, fresh⟩ := answers
          rw [perform_acquire rfl]
          exact holds.allocate ready (files _ _ at_fd) at_fd (fresh _ file at_fd rfl)
      | fails => cases stays
      | done | fd _ | address _ => cases answers
  | configure h =>
      cases answer with
      | done =>
          rw [perform_acquire rfl]
          exact holds
      | fails => cases stays
      | tlb _ | fd _ | address _ => cases answers
  | map h =>
      simp only [Held.Ready, Bool.and_eq_true, Bool.not_eq_true', beq_iff_eq] at ready
      cases answer with
      | address a =>
          obtain ⟨-, aligned, placed⟩ := answers
          rw [perform_acquire rfl]
          cases inside : h.inMemory with
          | false =>
              rw [base_of_inMemory inside] at placed
              exact holds.mapFree inside ready.1.2 placed
          | true =>
              obtain ⟨base, at_base⟩ : ∃ base, (s.objects o).base h = some base := by
                cases h with
                | windowCntl5 | windowCntl1 => cases inside
                | first | second => exact ⟨_, rfl⟩
              rw [at_base] at placed
              subst placed
              exact holds.mapInside inside ready.1.2 (ready.2.trans inside) at_base aligned
      | fails => cases stays
      | done | tlb _ | fd _ => cases answers
  | reserve =>
      simp only [Held.Ready, Bool.and_eq_true, Bool.not_eq_true'] at ready
      rw [perform_acquire (by cases answer <;> rfl)]
      cases answer with
      | address a => exact holds.reserve ready.1.1 answers.1
      | fails => exact holds.reserveFails ready.1.1 ready.1.2
      | done | tlb _ | fd _ => cases answers
  | unmap h =>
      simp only [Held.Ready, Bool.and_eq_true, Bool.not_eq_true'] at ready
      rw [perform_release rfl]
      exact holds.unmap ready.1 ready.2
  | free h =>
      simp only [Held.Ready, Bool.and_eq_true] at ready
      rw [perform_release rfl]
      exact holds.free ready.2
  | unmapMemory =>
      simp only [Held.Ready, Bool.and_eq_true, List.all_eq_true, Bool.not_eq_true'] at ready
      rw [perform_release rfl]
      exact holds.unmapMemory fun h => ready.2 h (mem_allHandles h)
  | close =>
      rw [perform_release rfl]
      exact holds.close

theorem perform_files (calls : Calls s o held call answer) :
    ∀ n file, (s.perform o call answer).os.files n = some file → 0 ≤ n := by
  intro n file at_n
  cases called : releaseOf (s.objects o) call answer with
  | some release =>
      rw [perform_release called] at at_n
      obtain ⟨old, before⟩ := release_files at_n
      exact calls.files n old before
  | none =>
      have answers := calls.answers
      rw [perform_acquire called] at at_n
      cases call with
      | openDevice =>
          cases answer with
          | fd m =>
              by_cases same : n = m
              · exact same ▸ answers.1
              · exact calls.files n file (by simpa [Os.acquire, same] using at_n)
          | _ => exact calls.files n file at_n
      | allocate h =>
          cases answer with
          | tlb id =>
              obtain ⟨old, before⟩ := modifyFile_files at_n
              exact calls.files n old before
          | _ => exact calls.files n file at_n
      | map h | reserve => cases answer <;> exact calls.files n file at_n
      | configure h => exact calls.files n file at_n
      | unmap h | free h | unmapMemory | close => cases called

end Calls

/-! ## Runs of the process -/

theorem step_eq {e : Event} {s t : Process} (action : s.step e = some t) :
    s.exited = false ∧
      ∃ call, s.next e.object = some call ∧ t = s.perform e.object call e.answer := by
  obtain ⟨running, moved⟩ := Option.ite_none_left_eq_some.mp action
  obtain ⟨call, next, rfl⟩ := Option.map_eq_some_iff.mp moved
  exact ⟨Bool.not_eq_true _ ▸ running, call, next, rfl⟩

theorem Process.Inv.calls {s : Process} {e : Event} {call : Call} (inv : s.Inv)
    (running : s.exited = false) (allowed : Allowed s e) (early : ¬MemberCall s e)
    (next : s.next e.object = some call) :
    Calls s e.object (heldAfter (s.objects e.object).made) call e.answer :=
  ⟨inv.1, inv.2 running e.object, ready_of_next (Nat.not_le.mp early) next, allowed call next⟩

theorem Process.Inv.step {s t : Process} {e : Event} (inv : s.Inv) (allowed : Allowed s e)
    (early : ¬MemberCall s e) (action : s.step e = some t) : t.Inv := by
  obtain ⟨running, call, next, rfl⟩ := step_eq action
  have calls := inv.calls running allowed early next
  refine ⟨perform_files calls, fun stays p => ?_⟩
  by_cases same : p = e.object
  · subst same
    have made : ((s.perform e.object call e.answer).objects e.object).made =
        (s.objects e.object).made + 1 := by rw [perform_self]
    rw [made, held_succ next]
    exact perform_holds calls stays
  · have holds := (inv.2 running p).others (perform_ownStep calls) same
    rwa [perform_others s call e.answer same] at holds ⊢

theorem Process.Inv.initial {s : Process} (init : process.init s) : s.Inv := by
  obtain ⟨-, made, files, maps⟩ := init
  refine ⟨fun n file at_n => (files n file at_n).1, fun _ o => ?_⟩
  rw [made o]
  refine ⟨fun used => Bool.noConfusion used, fun file => Bool.noConfusion file,
    fun _ _ live => Bool.noConfusion live, fun _ _ live => Bool.noConfusion live,
    fun _ live => Bool.noConfusion live, fun placed => Bool.noConfusion placed, fun p => ?_⟩
  constructor
  · intro mapped
    cases maps p _ mapped
  · rintro (⟨memory, -⟩ | ⟨h, live, -⟩)
    · cases memory
    · cases live

theorem inv_of_reachable {s : Process}
    (reachable : process.ReachableUnder InBody s) : s.Inv :=
  reachable.invariant (fun _ => .initial) fun _ _ _ inv guard action =>
    inv.step guard.1 guard.2 action

theorem made_le {s : Process}
    (reachable : process.ReachableUnder InBody s) (o : Nat) :
    (s.objects o).made ≤ bodyEnd := by
  apply reachable.invariant
  · rintro s ⟨-, made, -⟩
    rw [made o]
    exact Nat.zero_le _
  · rintro s t e le ⟨-, early⟩ action
    obtain ⟨-, call, -, rfl⟩ := step_eq action
    by_cases same : o = e.object
    · subst same
      rw [perform_self]
      exact Nat.not_le.mp early
    · rwa [perform_others s call e.answer same]

theorem covers_bodyEnd (obj : Object) (p : U64) : ¬Covers obj (heldAfter bodyEnd) p := by
  rintro (⟨memory, -⟩ | ⟨h, live, -⟩)
  · cases memory
  · cases h <;> cases live

theorem releases_own_iff (s : Process) (e : Event) (t : Process)
    (reachable : process.ReachableUnder InBody s)
    (allowed : Allowed s e) (action : process.step e s = some t) :
    ReleasesOwn s e t ↔ ¬MemberCall s e := by
  have inv := inv_of_reachable reachable
  obtain ⟨running, call, next, rfl⟩ := step_eq action
  constructor
  · intro own late
    have made : (s.objects e.object).made = bodyEnd := le_antisymm (made_le reachable _) late
    have unmaps : s.next e.object = some (.unmap .second) := by
      rw [Process.next, made]
      rfl
    have holds := inv.2 running e.object
    have mapped := own.proper _ _ unmaps rfl _ (InRegion.start _ (by decide))
    rw [made] at holds
    exact covers_bodyEnd _ _ ((holds.maps _).mp mapped)
  · intro early
    have calls := inv.calls running allowed early next
    refine ⟨fun call' release same called => ?_, perform_ownStep calls⟩
    cases next.symm.trans same
    exact calls.holds.release_proper calls.ready called

/-! ## Two objects, one after the other -/

def chosen : Handle → U64
  | .windowCntl5 => 0x10000000
  | .windowCntl1 => 0x20000000
  | .first => 0x700000000000
  | .second => 0x700100000000

structure Alone (s : Process) (o : Nat) : Prop where
  inv : s.Inv
  running : s.exited = false
  maps : ∀ p owner, s.os.maps p = some owner → owner = .object o
  files : ∀ n file, s.os.files n = some file →
    n = (s.objects o).fd ∧ (heldAfter (s.objects o).made).file = true
  fd : (heldAfter (s.objects o).made).file = true → (s.objects o).fd = 3
  memory : .reserve ∈ lifetime.take (s.objects o).made → (s.objects o).memory = chosen .first
  bases : ∀ h, .map h ∈ lifetime.take (s.objects o).made → (s.objects o).tlbBase h = chosen h

theorem held_mapped : ∀ n < bodyEnd,
    ((heldAfter n).memory = true → .reserve ∈ lifetime.take n) ∧
    ∀ h ∈ allHandles, (heldAfter n).window h = true →
      .map h ∈ lifetime.take n ∧ h.inMemory = false := by
  decide

theorem held_map_file (held : Held) (h : Handle) : (held.after (.map h)).file = held.file := by
  rw [Held.after]
  split <;> rfl

theorem chosen_apart {h h' : Handle} (outside : h.inMemory = false) (outside' : h'.inMemory = false)
    (ne : h ≠ h') : Apart (chosen h) h.size (chosen h') h'.size := by
  cases h with
  | windowCntl5 => cases h' with
    | windowCntl5 => exact absurd rfl ne
    | windowCntl1 => exact apart_of_le (by decide) (by decide)
    | first | second => cases outside'
  | windowCntl1 => cases h' with
    | windowCntl5 => exact (apart_of_le (by decide) (by decide)).symm
    | windowCntl1 => exact absurd rfl ne
    | first | second => cases outside'
  | first | second => cases outside

def Advances (s : Process) (o : Nat) : Prop :=
  ∃ e t, Allowed s e ∧ ¬MemberCall s e ∧ process.step e s = some t ∧ Alone t o ∧
    (t.objects o).made = (s.objects o).made + 1 ∧ ∀ p, p ≠ o → t.objects p = s.objects p

section Alone
variable {s : Process} {o : Nat} {call : Call}

theorem Alone.free (alone : Alone s o) {base : U64} {size : Nat}
    (clear : ∀ p, InRegion base size p →
      ¬Covers (s.objects o) (heldAfter (s.objects o).made) p) : s.os.Free base size := by
  intro p inside
  cases at_p : s.os.maps p with
  | none => rfl
  | some owner =>
      have own := alone.maps p owner at_p
      subst own
      exact absurd (((alone.inv.2 alone.running o).maps p).mp at_p) (clear p inside)

variable (alone : Alone s o) (early : (s.objects o).made < bodyEnd) (next : s.next o = some call)
include alone early next

theorem Alone.perform (answer : Answer) (may : s.os.MayAnswer (s.objects o) call answer)
    (stays : exits call answer = false)
    (files : ∀ n file, (s.perform o call answer).os.files n = some file →
      n = ((s.objects o).receive call answer).fd ∧
        ((heldAfter (s.objects o).made).after call).file = true)
    (fd : ((heldAfter (s.objects o).made).after call).file = true →
      ((s.objects o).receive call answer).fd = 3)
    (memory : .reserve ∈ lifetime.take (s.objects o).made ++ [call] →
      ((s.objects o).receive call answer).memory = chosen .first)
    (bases : ∀ h, .map h ∈ lifetime.take (s.objects o).made ++ [call] →
      ((s.objects o).receive call answer).tlbBase h = chosen h) :
    Advances s o := by
  have allowed : Allowed s ⟨o, answer⟩ := by
    intro call' same
    cases next.symm.trans same
    exact may
  have action : process.step ⟨o, answer⟩ s = some (s.perform o call answer) := by
    show (if s.exited then none else (s.next o).map fun call => s.perform o call answer) = _
    rw [alone.running, next]
    rfl
  have not_member : ¬MemberCall s ⟨o, answer⟩ := Nat.not_le.mpr early
  have calls := alone.inv.calls alone.running allowed not_member next
  have taken :
      lifetime.take ((s.objects o).made + 1) = lifetime.take (s.objects o).made ++ [call] := by
    rw [List.take_add_one, show lifetime[(s.objects o).made]? = some call from next]
    rfl
  have self := perform_self (o := o) s call answer
  refine ⟨⟨o, answer⟩, _, allowed, not_member, action, ?_, by rw [self],
    fun p ne => perform_others s call answer ne⟩
  refine ⟨alone.inv.step allowed not_member action, stays, fun p owner at_p => ?_, ?_, ?_, ?_, ?_⟩
  · rcases (perform_ownStep calls).maps p with same | ⟨-, after⟩
    · exact alone.maps p owner (same ▸ at_p)
    · exact after owner at_p
  · rw [self, held_succ next]
    exact files
  · rw [self, held_succ next]
    exact fd
  · rw [self, taken]
    exact memory
  · rw [self, taken]
    exact bases

theorem Alone.advance : Advances s o := by
  have ready := ready_of_next early next
  have holds := alone.inv.2 alone.running o
  obtain ⟨reserved, windows⟩ := held_mapped _ early
  have open_file (file : (heldAfter (s.objects o).made).file = true) :
      ∃ f, s.os.files (s.objects o).fd = some f := by
    obtain ⟨f, at_fd, -⟩ := holds.file file (by rw [alone.fd file]; decide)
    exact ⟨f, at_fd⟩
  have kept_memory (other : call ≠ .reserve)
      (taken : Call.reserve ∈ lifetime.take (s.objects o).made ++ [call]) :
      (s.objects o).memory = chosen .first := by
    rcases List.mem_append.mp taken with taken | taken
    · exact alone.memory taken
    · exact absurd (List.mem_singleton.mp taken).symm other
  have kept_bases (other : ∀ h, call ≠ .map h) (h : Handle)
      (taken : Call.map h ∈ lifetime.take (s.objects o).made ++ [call]) :
      (s.objects o).tlbBase h = chosen h := by
    rcases List.mem_append.mp taken with taken | taken
    · exact alone.bases h taken
    · exact absurd (List.mem_singleton.mp taken).symm (other h)
  cases call with
  | openDevice =>
      simp only [Held.Ready, Bool.and_eq_true, Bool.not_eq_true'] at ready
      have none_open (n : Int) : s.os.files n = none := by
        cases at_n : s.os.files n with
        | none => rfl
        | some file =>
            have held := (alone.files n file at_n).2
            rw [ready.2] at held
            cases held
      refine alone.perform early next (.fd 3) ⟨by decide, none_open 3⟩ rfl ?_ (fun _ => rfl)
        (kept_memory (by simp)) (kept_bases (by simp))
      intro n file at_n
      by_cases same : n = 3
      · exact ⟨same, rfl⟩
      · have old : s.os.files n = some file := by
          simpa [Process.perform, releaseOf, Os.acquire, same] using at_n
        rw [none_open n] at old
        cases old
  | allocate h =>
      obtain ⟨file, at_fd⟩ := open_file ready
      obtain ⟨id, fresh⟩ := Infinite.exists_notMem_finset file.tlbs.toFinset
      have may : s.os.MayAnswer (s.objects o) (.allocate h) (.tlb id) := by
        refine ⟨file, at_fd, fun n other at_n _ => ?_⟩
        rw [(alone.files n other at_n).1, at_fd] at at_n
        obtain rfl := Option.some.inj at_n
        simpa using fresh
      refine alone.perform early next (.tlb id) may rfl ?_ alone.fd (kept_memory (by simp))
        (kept_bases (by simp))
      intro n file at_n
      obtain ⟨old, before⟩ := modifyFile_files at_n
      exact alone.files n old before
  | configure h =>
      exact alone.perform early next .done trivial rfl alone.files alone.fd
        (kept_memory (by simp)) (kept_bases (by simp))
  | map h =>
      simp only [Held.Ready, Bool.and_eq_true, Bool.not_eq_true', beq_iff_eq] at ready
      have placed : s.os.MayMap ((s.objects o).base h) (chosen h) h.size := by
        cases inside : h.inMemory with
        | false =>
            rw [base_of_inMemory inside]
            refine alone.free fun p at_p => ?_
            rintro (⟨memory, -⟩ | ⟨h', live, covered⟩)
            · rw [ready.2, inside] at memory
              cases memory
            · obtain ⟨taken, outside⟩ := windows h' (mem_allHandles h') live
              have ne : h ≠ h' := by
                rintro rfl
                rw [ready.1.2] at live
                cases live
              rw [alone.bases h' taken] at covered
              exact chosen_apart inside outside ne p at_p covered
        | true =>
            have memory := alone.memory (reserved (ready.2.trans inside))
            cases h with
            | windowCntl5 | windowCntl1 => cases inside
            | first => exact memory.symm
            | second =>
                show _ = (s.objects o).memory + _
                rw [memory]
                rfl
      have page : PageAligned (chosen h) := by cases h <;> rfl
      refine alone.perform early next (.address (chosen h)) ⟨open_file ready.1.1.1, page, placed⟩
        rfl (fun n file at_n => ?_) (fun file => ?_) (kept_memory (by simp)) fun h' taken => ?_
      · rw [held_map_file]
        exact alone.files n file at_n
      · rw [held_map_file] at file
        exact alone.fd file
      · show Function.update (s.objects o).tlbBase h (chosen h) h' = chosen h'
        by_cases same : h' = h
        · rw [same, Function.update_self]
        · rw [Function.update_of_ne same]
          rcases List.mem_append.mp taken with taken | taken
          · exact alone.bases h' taken
          · exact absurd (Call.map.inj (List.mem_singleton.mp taken)) same
  | reserve =>
      simp only [Held.Ready, Bool.and_eq_true, List.all_eq_true, Bool.not_eq_true'] at ready
      have free : s.os.Free (chosen .first) (2 <<< 32) := by
        refine alone.free fun p _ => ?_
        rintro (⟨memory, -⟩ | ⟨h, live, -⟩)
        · rw [ready.1.1] at memory
          cases memory
        · rw [ready.2 h (mem_allHandles h)] at live
          cases live
      exact alone.perform early next (.address (chosen .first)) ⟨rfl, free⟩ rfl alone.files alone.fd
        (fun _ => rfl) (kept_bases (by simp))
  | unmap h =>
      exact alone.perform early next .done trivial rfl alone.files alone.fd
        (kept_memory (by simp)) (kept_bases (by simp))
  | free h =>
      refine alone.perform early next .done trivial rfl ?_ alone.fd
        (kept_memory (by simp)) (kept_bases (by simp))
      intro n file at_n
      obtain ⟨old, before⟩ := modifyFile_files at_n
      exact alone.files n old before
  | unmapMemory =>
      exact alone.perform early next .done trivial rfl alone.files alone.fd
        (kept_memory (by simp)) (kept_bases (by simp))
  | close =>
      refine alone.perform early next .done trivial rfl ?_ (fun file => Bool.noConfusion file)
        (kept_memory (by simp)) (kept_bases (by simp))
      intro n file at_n
      by_cases same : n = (s.objects o).fd
      · subst same
        simp [Process.perform, releaseOf, Os.release] at at_n
      · have old : s.os.files n = some file := by
          simpa [Process.perform, releaseOf, Os.release, same] using at_n
        exact absurd (alone.files n file old).1 same

end Alone

theorem Alone.run {s : Process} {o : Nat} (reachable : process.ReachableUnder InBody s)
    (alone : Alone s o) (k : Nat) (early : (s.objects o).made + k ≤ bodyEnd) :
    ∃ t, process.ReachableUnder InBody t ∧ Alone t o ∧ (t.objects o).made = (s.objects o).made + k ∧
      ∀ p, p ≠ o → t.objects p = s.objects p := by
  induction k with
  | zero => exact ⟨s, reachable, alone, rfl, fun _ _ => rfl⟩
  | succ k ih =>
      obtain ⟨t, reached, there, made, others⟩ := ih (by omega)
      have before : (t.objects o).made < bodyEnd := by omega
      have short : (t.objects o).made < lifetime.length := before.trans (by decide)
      obtain ⟨e, u, allowed, early, action, last, more, rest⟩ :=
        there.advance before (List.getElem?_eq_getElem short)
      exact ⟨u, .next reached ⟨allowed, early⟩ action, last, by omega,
        fun p ne => (rest p ne).trans (others p ne)⟩

theorem Alone.next_object {s : Process} {o p : Nat} (alone : Alone s o)
    (done : (s.objects o).made = bodyEnd) (fresh : (s.objects p).made = 0) : Alone s p := by
  have no_maps (a : U64) (owner : Owner) (at_a : s.os.maps a = some owner) : False := by
    have own := alone.maps a owner at_a
    subst own
    have covered := ((alone.inv.2 alone.running o).maps a).mp at_a
    rw [done] at covered
    exact covers_bodyEnd _ a covered
  have no_files (n : Int) (file : DeviceFile) (at_n : s.os.files n = some file) : False := by
    have held := (alone.files n file at_n).2
    rw [done] at held
    cases held
  refine ⟨alone.inv, alone.running, fun a owner at_a => (no_maps a owner at_a).elim,
    fun n file at_n => (no_files n file at_n).elim, ?_, ?_, ?_⟩
  · rw [fresh]
    exact fun file => Bool.noConfusion file
  · rw [fresh]
    exact fun taken => absurd taken List.not_mem_nil
  · rw [fresh]
    exact fun h taken => absurd taken List.not_mem_nil

def freshProcess : Process where
  os := ⟨fun _ => none, fun _ => none⟩
  objects _ := ⟨0, 0, -1, 0, fun _ => 0, fun _ => 0⟩
  exited := false

theorem freshProcess_init : process.init freshProcess := by
  refine ⟨rfl, fun _ => rfl, ?_, ?_⟩
  · intro n file at_n
    cases at_n
  · intro p owner at_p
    cases at_p

theorem freshProcess_alone : Alone freshProcess 0 where
  inv := .initial freshProcess_init
  running := rfl
  maps _ _ at_p := by cases at_p
  files _ _ at_n := by cases at_n
  fd file := Bool.noConfusion file
  memory taken := absurd taken List.not_mem_nil
  bases _ taken := absurd taken List.not_mem_nil

theorem process_done {s : Process} {o : Nat} {call : Call} (running : s.exited = false)
    (next : s.next o = some call) (may : s.os.MayAnswer (s.objects o) call .done) :
    Allowed s ⟨o, .done⟩ ∧ process.step ⟨o, .done⟩ s = some (s.perform o call .done) := by
  constructor
  · intro call' same
    cases next.symm.trans same
    exact may
  · show (if s.exited then none else (s.next o).map fun call => s.perform o call .done) = _
    rw [running, next]
    rfl

theorem perform_munmap {s : Process} {o : Nat} {call : Call} {base : U64} {size : Nat}
    (called : releaseOf (s.objects o) call .done = some (.munmap base size)) (nonempty : 0 < size) :
    (s.perform o call .done).os.maps base = none := by
  rw [perform_release called]
  simp only [Os.release, InRegion.start base nonempty, if_true]

theorem body_release :
    ∃ s t, process.ReachableUnder InBody s ∧ Allowed s ⟨0, .done⟩ ∧ ¬MemberCall s ⟨0, .done⟩ ∧
      process.step ⟨0, .done⟩ s = some t ∧ s.next 0 = some .unmapMemory ∧
      s.os.maps (chosen .first) = some (.object 0) ∧ t.os.maps (chosen .first) = none := by
  obtain ⟨s, reached, object, made, -⟩ :=
    freshProcess_alone.run (.start freshProcess_init) 18 (by decide)
  have made : (s.objects 0).made = 18 := made
  have next : s.next 0 = some .unmapMemory := by
    rw [Process.next, made]
    rfl
  have memory : (s.objects 0).memory = chosen .first := object.memory (by rw [made]; decide)
  have holds := object.inv.2 object.running 0
  rw [made] at holds
  have mapped : s.os.maps (chosen .first) = some (.object 0) := by
    refine (holds.maps _).mpr (.inl ⟨rfl, ?_, ?_⟩)
    · rw [memory]
      rfl
    · rw [memory]
      exact InRegion.start _ (by decide)
  obtain ⟨allowed, action⟩ := process_done object.running next trivial
  have early : ¬MemberCall s ⟨0, .done⟩ := by
    rw [MemberCall, made]
    decide
  refine ⟨s, _, reached, allowed, early, action, next, mapped, ?_⟩
  apply perform_munmap
  · rw [releaseOf, memory]
  · decide

/-- Object 0 is destroyed; object 1 gets the same addresses before the destructor of `second`. -/
theorem late_release :
    ∃ s t, process.ReachableUnder InBody s ∧ Allowed s ⟨0, .done⟩ ∧ MemberCall s ⟨0, .done⟩ ∧
      process.step ⟨0, .done⟩ s = some t ∧ s.next 0 = some (.unmap .second) ∧
      (s.objects 0).tlbBase .second = chosen .second ∧
      s.os.maps (chosen .second) = some (.object 1) ∧ t.os.maps (chosen .second) = none := by
  obtain ⟨s, reached, first, made, others⟩ :=
    freshProcess_alone.run (.start freshProcess_init) bodyEnd (by decide)
  have done : (s.objects 0).made = bodyEnd := by rw [made]; rfl
  have fresh : (s.objects 1).made = 0 := by rw [others 1 (by decide)]; rfl
  have base : (s.objects 0).tlbBase .second = chosen .second :=
    first.bases .second (by rw [done]; decide)
  obtain ⟨t, reached, second, made, others⟩ :=
    (first.next_object done fresh).run reached 12 (by rw [fresh]; decide)
  have same : t.objects 0 = s.objects 0 := others 0 (by decide)
  have next : t.next 0 = some (.unmap .second) := by
    rw [Process.next, same, done]
    rfl
  rw [fresh] at made
  have mapped : t.os.maps (chosen .second) = some (.object 1) := by
    have memory : (t.objects 1).memory = chosen .first := second.memory (by rw [made]; decide)
    have holds := second.inv.2 second.running 1
    rw [made] at holds
    refine (holds.maps _).mpr (.inl ⟨rfl, ?_, ?_⟩)
    · rw [memory]
      rfl
    · rw [memory]
      decide
  obtain ⟨allowed, action⟩ := process_done second.running next trivial
  have late : MemberCall t ⟨0, .done⟩ := by
    rw [MemberCall, same]
    exact done.ge
  refine ⟨t, _, reached, allowed, late, action, next, by rw [same, base], mapped, ?_⟩
  apply perform_munmap
  · rw [releaseOf, same, base]
  · decide

/-- First the object's own memory is released, then that of another. -/
theorem releases_own_teardown :
    (∃ s t, s.next 0 = some .unmapMemory ∧ s.os.maps (chosen .first) = some (.object 0) ∧
      process.step ⟨0, .done⟩ s = some t ∧ t.os.maps (chosen .first) = none ∧
      ReleasesOwn s ⟨0, .done⟩ t) ∧
    ∃ s t, s.next 0 = some (.unmap .second) ∧ s.os.maps (chosen .second) = some (.object 1) ∧
      process.step ⟨0, .done⟩ s = some t ∧ t.os.maps (chosen .second) = none ∧
      ¬ReleasesOwn s ⟨0, .done⟩ t := by
  constructor
  · obtain ⟨s, t, reached, allowed, early, action, next, before, after⟩ := body_release
    exact ⟨s, t, next, before, action, after,
      (releases_own_iff s _ t reached allowed action).mpr early⟩
  · obtain ⟨s, t, reached, allowed, late, action, next, -, before, after⟩ := late_release
    exact ⟨s, t, next, before, action, after, fun own =>
      (releases_own_iff s _ t reached allowed action).mp own late⟩

theorem late_release_not_own :
    ¬∀ s e t, process.ReachableUnder Allowed s → Allowed s e → process.step e s = some t →
      ReleasesOwn s e t := by
  intro own
  obtain ⟨s, t, reached, allowed, -, action, next, base, mapped, -⟩ := late_release
  have proper := (own s _ t (reached.mono fun _ _ => And.left) allowed action).proper _ _ next rfl
  have start := InRegion.start ((s.objects 0).tlbBase .second)
    (show 0 < Handle.second.size by decide)
  have own := proper _ start
  rw [base, mapped] at own
  cases own

end TtBhLinux.L2cpu
