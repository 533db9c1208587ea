import TtBhLinux.Boot.Loading
import TtBhLinux.Boot.Regions
import TtBhLinux.Pll.Settled

/-!
# The cores are released once, with everything in place

The one write to L2CPU_RESET comes after the images and the reset vectors, with the PLL at 200 MHz.
-/

namespace TtBhLinux.Boot
open Common L2cpu

/-! ## The clock -/

theorem setL2cpuPll_ramp (mhz : Nat) (t : Pll.Target)
    (solution : Pll.Clock.solutions.lookup mhz = some t) (r : Pll.Regs) : ∃ ws, (∀ fuel, 2 ^ 16 ≤ fuel →
      Pll.Clock.setL2cpuPll fuel mhz r.cntl5 r.cntl1 = .ok (some ws)) ∧ Pll.Ramp t r.copies ws := by
  obtain ⟨s, ws, result, final, extend⟩ :=
    Pll.Clock.ramp_ensures t (2 ^ 16) le_rfl r.copies trivial
  refine ⟨ws, fun fuel enough => ?_, by simpa using extend [] (.done final)⟩
  have longer := Pll.Clock.ramp_extends t _ _ enough _ _ result
  rw [Pll.Clock.setL2cpuPll, solution]
  exact congrArg Except.ok (congrArg (Option.map Prod.snd) longer)

theorem move_addr {t : Pll.Target} {s s' : Pll.Copies} {w : Pll.Write} (h : Pll.Move t s s' w) :
    w.addr ≠ Boot.l2cpuReset := by
  cases h with
  | postdiv i ne settled =>
      simp only [Pll.Copies.writeCntl5]
      decide
  | fbdiv ne raised =>
      simp only [Pll.Copies.writeCntl1]
      decide

theorem ramp_addr {t : Pll.Target} {s : Pll.Copies} {ws : List Pll.Write} (h : Pll.Ramp t s ws) :
    ∀ w ∈ ws, w.addr ≠ Boot.l2cpuReset := by
  induction h with
  | done _ => simp
  | move move _ ih =>
      intro w member
      rcases List.mem_cons.mp member with rfl | later
      · exact move_addr move
      · exact ih w later

def slowTarget : Pll.Target := ⟨128, fun _ => 15⟩
def fastTarget : Pll.Target := ⟨140, fun _ => 1⟩

structure ResetRun (pll : Pll.Regs) (down up : List Pll.Write) : Prop where
  slow : Pll.Ramp slowTarget pll.copies down
  fast : Pll.Ramp fastTarget (pll.after down).copies up

theorem resetX280_run (pll : Pll.Regs) (val : U32) (l2cpus : List (Fin 4)) :
    ∃ down up, ResetRun pll down up ∧ ∀ fuel, 2 ^ 16 ≤ fuel → resetX280 fuel pll val l2cpus =
      .ok (some (pllOps down ++ .axiWrite l2cpuReset (resetVal val l2cpus) :: pllOps up)) := by
  obtain ⟨down, slow, ramp⟩ := setL2cpuPll_ramp 200 slowTarget rfl pll
  obtain ⟨up, fast, ramp'⟩ := setL2cpuPll_ramp 1750 fastTarget rfl (pll.after down)
  refine ⟨down, up, ⟨ramp, ramp'⟩, fun fuel enough => ?_⟩
  simp only [resetX280, slow fuel enough, fast fuel enough, Except.mapError, bind, Except.bind]
  rfl

theorem resetVal_bit (val : U32) (l2cpus : List (Fin 4)) (bit : Nat) :
    (resetVal val l2cpus).getLsbD bit =
      (val.getLsbD bit || l2cpus.any fun l2cpu => bit == l2cpu.val + 4) := by
  induction l2cpus generalizing val with
  | nil => simp [resetVal]
  | cons l2cpu rest ih =>
      rw [resetVal, List.foldl_cons, ← resetVal, ih, BitVec.getLsbD_or, List.any_cons, Bool.or_assoc]
      congr 2
      have only : ∀ l2cpu : Fin 4, ∀ bit < 32,
          (1 <<< (l2cpu.val + 4) : U32).getLsbD bit = (bit == l2cpu.val + 4) := by decide
      by_cases inside : bit < 32
      · exact only l2cpu bit inside
      · have above := l2cpu.isLt
        rw [BitVec.getLsbD_of_ge _ _ (by omega), eq_comm, beq_eq_false_iff_ne]
        omega

/-! ## The whole script -/

theorem forM_ok_iff {α ε : Type} {f : α → Except ε Unit} {l : List α} :
    l.forM f = .ok () ↔ ∀ a ∈ l, f a = .ok () := by
  induction l with
  | nil => exact iff_of_true rfl fun _ member => absurd member List.not_mem_nil
  | cons first rest ih =>
      rw [List.forall_mem_cons, ← ih]
      constructor
      · intro checked
        obtain ⟨⟨⟩, head, tail⟩ := bind_ok checked
        exact ⟨head, tail⟩
      · rintro ⟨head, tail⟩
        show (f first).bind (fun _ => rest.forM f) = .ok ()
        rw [head]
        exact tail

inductive MainRun (env : Env) (args : Args) (telemetry : Telemetry) (pll : Pll.Regs) (val : U32) :
    List Op → Option Halt → Prop
  | refused {halt : Halt} (refused : ∀ l2cpus, parseArgs args = .ok l2cpus →
      ¬∀ l2cpu ∈ l2cpus, checkHarvesting telemetry l2cpu = .ok ()) :
      MainRun env args telemetry pll val [] (some halt)
  | stopped {l2cpus : List (Fin 4)} {ops : List Op} {halt : Halt}
      (parsed : parseArgs args = .ok l2cpus)
      (checked : ∀ l2cpu ∈ l2cpus, checkHarvesting telemetry l2cpu = .ok ())
      (stopped : perform (attempts env args l2cpus) = (ops, some halt)) :
      MainRun env args telemetry pll val ops (some halt)
  | loaded {l2cpus : List (Fin 4)} {ops : List Op} (parsed : parseArgs args = .ok l2cpus)
      (checked : ∀ l2cpu ∈ l2cpus, checkHarvesting telemetry l2cpu = .ok ())
      (done : perform (attempts env args l2cpus) = (ops, none)) (boot : ¬args.boot = true) :
      MainRun env args telemetry pll val (ops ++ l2cpus.flatMap prefetchers) none
  | booted {l2cpus : List (Fin 4)} {ops : List Op} {down up : List Pll.Write}
      (parsed : parseArgs args = .ok l2cpus)
      (checked : ∀ l2cpu ∈ l2cpus, checkHarvesting telemetry l2cpu = .ok ())
      (done : perform (attempts env args l2cpus) = (ops, none)) (boot : args.boot = true)
      (reset : ResetRun pll down up) :
      MainRun env args telemetry pll val ((ops ++ pllOps down) ++
        .axiWrite l2cpuReset (resetVal val l2cpus) :: (pllOps up ++ l2cpus.flatMap prefetchers)) none

theorem main_run (env : Env) (args : Args) (telemetry : Telemetry) (pll : Pll.Regs) (val : U32) :
    ∃ ops halt, (∀ fuel, 2 ^ 16 ≤ fuel →
      main fuel env args telemetry pll val = some (ops, halt)) ∧
        MainRun env args telemetry pll val ops halt := by
  unfold main
  cases parsed : parseArgs args with
  | error halt => exact ⟨[], some halt, fun _ _ => rfl, .refused (by simp [parsed])⟩
  | ok l2cpus =>
      simp only
      cases harvest : l2cpus.forM (checkHarvesting telemetry) with
      | error halt =>
          refine ⟨[], some halt, fun _ _ => rfl, .refused fun l2cpus' same checked => ?_⟩
          cases parsed.symm.trans same
          rw [forM_ok_iff.mpr checked] at harvest
          cases harvest
      | ok _ =>
          have checked := forM_ok_iff.mp harvest
          obtain ⟨⟨ops, stopped⟩, done⟩ : ∃ r, perform (attempts env args l2cpus) = r := ⟨_, rfl⟩
          rw [done]
          cases stopped with
          | some halt => exact ⟨ops, some halt, fun _ _ => rfl, .stopped parsed checked done⟩
          | none =>
              simp only
              by_cases boot : args.boot = true
              · obtain ⟨down, up, run, result⟩ := resetX280_run pll val l2cpus
                refine ⟨_, none, fun fuel enough => ?_, .booted parsed checked done boot run⟩
                rw [if_pos boot, result fuel enough]
                simp
              · exact ⟨_, none, fun _ _ => if_neg boot, .loaded parsed checked done boot⟩

section
variable {κ : Type*} (cell : Xy → U64 → κ)

theorem pllOps_cells (ws : List Pll.Write) : (pllOps ws).flatMap (Op.cells cell) = [] := by
  induction ws with
  | nil => rfl
  | cons w rest ih => exact ih

variable [DecidableEq κ]

structure Released (env : Env) (args : Args) (chip : Chip κ) (l2cpus : List (Fin 4))
    (before after : List Op) : Prop where
  once : ∀ op ∈ before ++ after, ∀ value, op ≠ .axiWrite l2cpuReset value
  slow : Pll.AtTarget slowTarget (chip.run cell before).pll.copies
  held : (chip.run cell before).l2cpuReset = chip.l2cpuReset
  loaded : Distinct cell before → ∀ l2cpu idx, l2cpus[idx]? = some l2cpu →
    ∃ images, readImages env args idx = .ok images ∧
      Loaded cell (chip.run cell before).mem l2cpu images

structure ScriptRun (env : Env) (args : Args) (telemetry : Telemetry) (chip : Chip κ)
    (ops : List Op) (halt : Option Halt) : Prop where
  checked : ops ≠ [] → ∃ l2cpus, parseArgs args = .ok l2cpus ∧
    ∀ l2cpu ∈ l2cpus, checkHarvesting telemetry l2cpu = .ok ()
  held : halt ≠ none ∨ args.boot = false → ∀ op ∈ ops, op.isAxi = false
  released : halt = none → args.boot = true → ∃ l2cpus before after value,
    parseArgs args = .ok l2cpus ∧ ops = before ++ .axiWrite l2cpuReset value :: after ∧
    Released cell env args chip l2cpus before after ∧
    (chip.run cell ops).l2cpuReset = value ∧
    (∀ bit, value.getLsbD bit =
      (chip.l2cpuReset.getLsbD bit || l2cpus.any fun l2cpu => bit == l2cpu.val + 4)) ∧
    Pll.AtTarget fastTarget (chip.run cell ops).pll.copies

theorem loaded_all {env : Env} {args : Args} {l2cpus : List (Fin 4)} {ops : List Op} (mem : κ → U8)
    (done : perform (attempts env args l2cpus) = (ops, none)) (distinct : Distinct cell ops)
    {l2cpu : Fin 4} {idx : Nat} (selected : l2cpus[idx]? = some l2cpu) :
    ∃ images, readImages env args idx = .ok images ∧
      Loaded cell (put mem (ops.flatMap (Op.cells cell))) l2cpu images := by
  have written : ∀ attempt ∈ prepare env args idx l2cpu, ∃ op ∈ ops, attempt = .ok op := by
    intro attempt among
    have member : attempt ∈ attempts env args l2cpus :=
      List.mem_flatMap.mpr ⟨(l2cpu, idx), List.mem_zipIdx_iff_getElem?.mpr selected, among⟩
    rw [perform_none done] at member
    obtain ⟨op, inside, same⟩ := List.mem_map.mp member
    exact ⟨op, inside, same.symm⟩
  unfold prepare at written
  cases images : readImages env args idx with
  | error halt =>
      rw [images] at written
      obtain ⟨op, -, same⟩ := written (.error halt) List.mem_cons_self
      cases same
  | ok images' =>
      rw [images] at written
      exact ⟨images', rfl, loaded_of_written cell mem distinct written⟩

theorem released (env : Env) (args : Args) (chip : Chip κ) {l2cpus : List (Fin 4)}
    {ops : List Op} {down up : List Pll.Write}
    (done : perform (attempts env args l2cpus) = (ops, none)) (run : ResetRun chip.pll down up) :
    Released cell env args chip l2cpus (ops ++ pllOps down)
      (pllOps up ++ l2cpus.flatMap prefetchers) := by
  have noc : ∀ op ∈ ops, op.isAxi = false := by
    have all := attempts_noc env args l2cpus
    rwa [done] at all
  have before : chip.run cell (ops ++ pllOps down) = { chip with
      pll := chip.pll.after down, mem := put chip.mem (ops.flatMap (Op.cells cell)) } := by
    rw [Chip.run_append, Chip.run_noc cell _ noc, Chip.run_pll cell _ (ramp_addr run.slow)]
  have clock {ws : List Pll.Write} {value : U32} (other : ∀ w ∈ ws, w.addr ≠ l2cpuReset) :
      .axiWrite l2cpuReset value ∉ pllOps ws := by
    intro member
    obtain ⟨w, inside, same⟩ := List.mem_map.mp member
    exact other w inside (Op.axiWrite.inj same).1
  constructor
  · rintro op member value rfl
    simp only [List.mem_append, List.mem_flatMap] at member
    rcases member with (load | slow) | fast | ⟨l2cpu, -, word⟩
    · cases noc _ load
    · exact clock (ramp_addr run.slow) slow
    · exact clock (ramp_addr run.fast) fast
    · cases prefetchers_noc _ word
  · rw [before]
    exact run.slow.final
  · rw [before]
  · intro distinct l2cpu idx selected
    rw [Distinct, List.flatMap_append, pllOps_cells, List.append_nil] at distinct
    rw [before]
    exact loaded_all cell chip.mem done distinct selected

theorem prefetchers_all_noc (l2cpus : List (Fin 4)) :
    ∀ op ∈ l2cpus.flatMap prefetchers, op.isAxi = false := by
  intro op member
  obtain ⟨l2cpu, -, among⟩ := List.mem_flatMap.mp member
  exact prefetchers_noc op among

theorem run_released (chip : Chip κ) {before : List Op} {up : List Pll.Write} {t : Pll.Target}
    (fast : Pll.Ramp t (chip.run cell before).pll.copies up) (value : U32)
    (l2cpus : List (Fin 4)) :
    let last := chip.run cell
      (before ++ .axiWrite l2cpuReset value :: (pllOps up ++ l2cpus.flatMap prefetchers))
    last.l2cpuReset = value ∧ Pll.AtTarget t last.pll.copies := by
  have write : (chip.run cell before).apply cell (.axiWrite l2cpuReset value) =
      { chip.run cell before with l2cpuReset := value } := by rw [Chip.apply, if_pos rfl]
  intro last
  have final : last = { chip.run cell before with
      l2cpuReset := value, pll := (chip.run cell before).pll.after up,
      mem := put (chip.run cell before).mem
        ((l2cpus.flatMap prefetchers).flatMap (Op.cells cell)) } := by
    simp only [last]
    rw [Chip.run_append, Chip.run, List.foldl_cons, ← Chip.run, write, Chip.run_append,
      Chip.run_pll cell _ (ramp_addr fast), Chip.run_noc cell _ (prefetchers_all_noc l2cpus)]
  rw [final]
  exact ⟨rfl, fast.final⟩

theorem script_booted {env : Env} {args : Args} {telemetry : Telemetry} (chip : Chip κ)
    {l2cpus : List (Fin 4)} {ops : List Op} {down up : List Pll.Write} (boot : args.boot = true)
    (parsed : parseArgs args = .ok l2cpus)
    (checked : ∀ l2cpu ∈ l2cpus, checkHarvesting telemetry l2cpu = .ok ())
    (done : perform (attempts env args l2cpus) = (ops, none)) (run : ResetRun chip.pll down up) :
    ScriptRun cell env args telemetry chip ((ops ++ pllOps down) ++
      .axiWrite l2cpuReset (resetVal chip.l2cpuReset l2cpus) ::
        (pllOps up ++ l2cpus.flatMap prefetchers)) none := by
  have noc := attempts_noc env args l2cpus
  rw [done] at noc
  have slow : (chip.run cell (ops ++ pllOps down)).pll = chip.pll.after down := by
    rw [Chip.run_append, Chip.run_noc cell _ noc, Chip.run_pll cell _ (ramp_addr run.slow)]
  have last := run_released cell chip (slow ▸ run.fast) (resetVal chip.l2cpuReset l2cpus) l2cpus
  constructor
  · exact fun _ => ⟨l2cpus, parsed, checked⟩
  · simp [boot]
  · exact fun _ _ => ⟨l2cpus, _, _, _, parsed, rfl, released cell env args chip done run, last.1,
      resetVal_bit _ _, last.2⟩

theorem MainRun.script {env : Env} {args : Args} {telemetry : Telemetry} {chip : Chip κ}
    {ops : List Op} {halt : Option Halt}
    (run : MainRun env args telemetry chip.pll chip.l2cpuReset ops halt) :
    ScriptRun cell env args telemetry chip ops halt := by
  cases run with
  | refused _ => exact ⟨by simp, by simp, by simp⟩
  | @stopped l2cpus _ _ parsed checked stopped =>
      have noc := attempts_noc env args l2cpus
      rw [stopped] at noc
      exact ⟨fun _ => ⟨l2cpus, parsed, checked⟩, fun _ => noc, by simp⟩
  | @loaded l2cpus _ parsed checked done boot =>
      have noc := attempts_noc env args l2cpus
      rw [done] at noc
      refine ⟨fun _ => ⟨l2cpus, parsed, checked⟩, fun _ op member => ?_,
        fun _ booted => absurd booted boot⟩
      rcases List.mem_append.mp member with load | word
      · exact noc op load
      · exact prefetchers_all_noc l2cpus op word
  | booted parsed checked done boot reset => exact script_booted cell chip boot parsed checked done reset

/-- The cores of an L2CPU leave reset with its images in place, or nothing leaves reset. -/
theorem released_with_images_in_place (env : Env) (args : Args) (telemetry : Telemetry)
    (chip : Chip κ) : ∃ ops halt,
      (∀ fuel, 2 ^ 16 ≤ fuel →
        main fuel env args telemetry chip.pll chip.l2cpuReset = some (ops, halt)) ∧
      ScriptRun cell env args telemetry chip ops halt := by
  obtain ⟨ops, halt, result, run⟩ := main_run env args telemetry chip.pll chip.l2cpuReset
  exact ⟨ops, halt, result, run.script cell⟩

/-- No interleaving of the threads of `tt-bh-linux` changes the clock that the script has left. -/
theorem clock_stays (env : Env) (args : Args) (telemetry : Telemetry) (chip : Chip κ) :
    ∃ ops halt, (∀ fuel, 2 ^ 16 ≤ fuel →
        main fuel env args telemetry chip.pll chip.l2cpuReset = some (ops, halt)) ∧
      (halt = none → args.boot = true → ∀ n s,
        (Pll.pool n (chip.run cell ops).pll).Reachable s → s.regs = (chip.run cell ops).pll) := by
  obtain ⟨ops, halt, result, run⟩ := main_run env args telemetry chip.pll chip.l2cpuReset
  refine ⟨ops, halt, result, fun finished boot n s reachable => ?_⟩
  obtain ⟨_, _, _, _, -, -, -, -, -, settled⟩ := (run.script cell).released finished boot
  exact (reachable.invariant (Pll.Settled.initial settled) Pll.Settled.step).regs

end

/-! ## Booting L2CPU 2 -/

def bootArgs : Args where
  boot := true
  l2cpu := [2]
  bootDevice := "vda"
  dtNoVirtioDevices := false
  extraBootargs := ""
  rootfsBin := none
  rootfsDst := ["rootfs address"]
  opensbiBin := "opensbi"
  opensbiDst := ["opensbi address"]
  kernelBin := some "kernel"
  kernelDst := some ["kernel address"]
  dtbBin := some ["dtb"]
  dtbDst := some ["dtb address"]

def bootEnv : Env where
  readFile path :=
    [("opensbi", [1, 2, 3, 4]), ("kernel", [5, 6, 7]), ("dtb", [8, 9, 10, 11])].lookup path
  pathExists _ := false
  int16 text := [("opensbi address", 0x400030000000), ("kernel address", 0x400030200000),
    ("dtb address", 0x400030100000)].lookup text
  fdt := ⟨fun _ => some libfdt0, fun _ _ => true, fun dtb_bytes _ _ => some dtb_bytes⟩

/-- The kernel has been filled up to four bytes. -/
def bootImages : Images :=
  ⟨⟨0x400030000000, [1, 2, 3, 4]⟩, none, some ⟨0x400030200000, [5, 6, 7, 0]⟩,
    ⟨0x400030100000, [8, 9, 10, 11]⟩⟩

def bootTelemetry : Telemetry := ⟨4, 0x80⟩

def bootChip : Chip (Xy × U64) := ⟨Pll.staleStart, 0, fun _ => 0⟩

theorem bootArgs_parsed : parseArgs bootArgs = .ok [2] := rfl

theorem bootTelemetry_checked :
    ∀ l2cpu ∈ ([2] : List (Fin 4)), checkHarvesting bootTelemetry l2cpu = .ok () := by
  intro l2cpu member
  cases List.mem_singleton.mp member
  rfl

theorem bootImages_read : readImages bootEnv bootArgs 0 = .ok bootImages := by
  have vda : bootArgs.bootDevice.startsWith "vda" = true := by decide +kernel
  obtain ⟨text, root⟩ : ∃ text, bootargs bootEnv bootArgs 0 none = .ok text := by
    rw [bootargs, if_pos vda]
    exact ⟨_, rfl⟩
  show (bootargs bootEnv bootArgs 0 none).bind _ = .ok bootImages
  rw [root]
  rfl

theorem boot_attempts : attempts bootEnv bootArgs [2] = loadL2cpu 2 bootImages := by
  show prepare bootEnv bootArgs 0 2 ++ [] = _
  rw [List.append_nil, prepare, bootImages_read]

theorem boot_distinct : Distinct Prod.mk ((perform (loadL2cpu 2 bootImages)).1 ++
    [(2 : Fin 4)].flatMap prefetchers) := by
  unfold Distinct
  decide +kernel

theorem boot_run {pll : Pll.Regs} {val : U32} {ops : List Op} {halt : Option Halt}
    (run : MainRun bootEnv bootArgs bootTelemetry pll val ops halt) :
    halt = none ∧ Distinct Prod.mk ops := by
  cases run with
  | refused refused => exact absurd bootTelemetry_checked (refused _ bootArgs_parsed)
  | stopped parsed _ stopped =>
      cases bootArgs_parsed.symm.trans parsed
      rw [boot_attempts] at stopped
      cases congrArg Prod.snd stopped
  | loaded _ _ _ boot => exact absurd rfl boot
  | booted parsed _ done _ _ =>
      cases bootArgs_parsed.symm.trans parsed
      have distinct := boot_distinct
      rw [← boot_attempts, done] at distinct
      simp only [Distinct, List.flatMap_append, List.flatMap_cons, pllOps_cells, Op.cells,
        List.append_nil, List.nil_append] at distinct ⊢
      exact ⟨trivial, distinct⟩

theorem boot_ends {ops : List Op} {halt : Option Halt} (result : ∀ fuel, 2 ^ 16 ≤ fuel →
    main fuel bootEnv bootArgs bootTelemetry bootChip.pll bootChip.l2cpuReset = some (ops, halt)) :
    halt = none ∧ Distinct Prod.mk ops := by
  obtain ⟨ops', halt', result', run⟩ :=
    main_run bootEnv bootArgs bootTelemetry bootChip.pll bootChip.l2cpuReset
  cases (result _ le_rfl).symm.trans (result' _ le_rfl)
  exact boot_run run

theorem released_l2cpu_2 : ∃ ops before after value, (∀ fuel, 2 ^ 16 ≤ fuel →
      main fuel bootEnv bootArgs bootTelemetry bootChip.pll bootChip.l2cpuReset = some (ops, none)) ∧
    ops = before ++ .axiWrite l2cpuReset value :: after ∧ value.getLsbD 6 = true ∧
    Loaded Prod.mk (bootChip.run Prod.mk before).mem 2 bootImages := by
  obtain ⟨ops, halt, result, script⟩ :=
    released_with_images_in_place Prod.mk bootEnv bootArgs bootTelemetry bootChip
  obtain ⟨rfl, distinct⟩ := boot_ends result
  obtain ⟨l2cpus, before, after, value, parsed, split, released, -, bits, -⟩ :=
    script.released rfl rfl
  cases bootArgs_parsed.symm.trans parsed
  rw [split] at distinct
  obtain ⟨images, read, loaded⟩ := released.loaded distinct.before 2 0 rfl
  cases bootImages_read.symm.trans read
  exact ⟨ops, before, after, value, result, split, bits 6, loaded⟩

theorem clock_stays_l2cpu_2 : ∃ ops, (∀ fuel, 2 ^ 16 ≤ fuel →
      main fuel bootEnv bootArgs bootTelemetry bootChip.pll bootChip.l2cpuReset = some (ops, none)) ∧
    ∀ n s, (Pll.pool n (bootChip.run Prod.mk ops).pll).Reachable s →
      s.regs = (bootChip.run Prod.mk ops).pll := by
  obtain ⟨ops, halt, result, stays⟩ :=
    clock_stays Prod.mk bootEnv bootArgs bootTelemetry bootChip
  obtain ⟨rfl, -⟩ := boot_ends result
  exact ⟨ops, result, stays rfl rfl⟩

end TtBhLinux.Boot
