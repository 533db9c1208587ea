import TtBhLinux.Boot.Script
import TtBhLinux.Common.Cells
import TtBhLinux.Common.LittleEndian

/-!
# The chip when the cores are released

`cell` says which cell of the chip a tile has at an address: two L2CPUs may share their DRAM.
-/

namespace TtBhLinux.Boot
open Common L2cpu

/-! ## What the writes do -/

structure Chip (κ : Type*) where
  pll : Pll.Regs
  l2cpuReset : U32
  mem : κ → U8

def Op.isAxi : Op → Bool
  | .axiWrite _ _ => true
  | _ => false

section
variable {κ : Type*} (cell : Xy → U64 → κ)

def byteCells (tile : Xy) (addr : U64) (bytes : List U8) : List (κ × U8) :=
  bytes.zipIdx.map fun (byte, i) => (cell tile (addr + .ofNat 64 i), byte)

def Op.cells : Op → List (κ × U8)
  | .axiWrite _ _ => []
  | .nocWrite32 tile addr value => byteCells cell tile addr (wordBytes value)
  | .nocWrite tile addr bytes => byteCells cell tile addr bytes

variable [DecidableEq κ]

def Chip.apply (chip : Chip κ) : Op → Chip κ
  | .axiWrite addr value =>
      if addr = Boot.l2cpuReset then { chip with l2cpuReset := value }
      else { chip with pll := chip.pll.write ⟨addr, value⟩ }
  | op => { chip with mem := put chip.mem (op.cells cell) }

def Chip.run (chip : Chip κ) (ops : List Op) : Chip κ := ops.foldl (Chip.apply cell) chip

theorem Chip.run_append (chip : Chip κ) (before after : List Op) :
    chip.run cell (before ++ after) = (chip.run cell before).run cell after := List.foldl_append

theorem Chip.run_noc (chip : Chip κ) {ops : List Op} (noc : ∀ op ∈ ops, op.isAxi = false) :
    chip.run cell ops = { chip with mem := put chip.mem (ops.flatMap (Op.cells cell)) } := by
  induction ops generalizing chip with
  | nil => rfl
  | cons op rest ih =>
      have first : chip.apply cell op = { chip with mem := put chip.mem (op.cells cell) } := by
        cases op with
        | axiWrite addr value => exact absurd (noc _ List.mem_cons_self) (by simp [Op.isAxi])
        | nocWrite32 tile addr value | nocWrite tile addr bytes => rfl
      have others := ih (chip.apply cell op) fun op member => noc op (List.mem_cons_of_mem _ member)
      rw [Chip.run, List.foldl_cons, ← Chip.run, others, first, List.flatMap_cons, put_append]

theorem Chip.run_pll (chip : Chip κ) {ws : List Pll.Write}
    (other : ∀ w ∈ ws, w.addr ≠ Boot.l2cpuReset) :
    chip.run cell (pllOps ws) = { chip with pll := chip.pll.after ws } := by
  induction ws generalizing chip with
  | nil => rfl
  | cons w rest ih =>
      have first : chip.apply cell (.axiWrite w.addr w.value) =
          { chip with pll := chip.pll.write w } := by
        rw [apply, if_neg (other w List.mem_cons_self)]
      have others := ih (chip.apply cell (.axiWrite w.addr w.value)) fun w member =>
        other w (List.mem_cons_of_mem _ member)
      rw [pllOps, List.map_cons, Chip.run, List.foldl_cons, ← Chip.run, ← pllOps, others, first]
      rfl

end

/-! ## Images in place -/

section
variable {κ : Type*} (cell : Xy → U64 → κ)

def InPlace (mem : κ → U8) (tile : Xy) (addr : U64) (bytes : List U8) : Prop :=
  ∀ i (h : i < bytes.length), mem (cell tile (addr + .ofNat 64 i)) = bytes[i]

def wordAt (mem : κ → U8) (tile : Xy) (addr : U64) : U32 :=
  loadU32 (fun a => mem (cell tile a)) addr

theorem byteCells_mem {tile : Xy} {addr : U64} {bytes : List U8} {i : Nat} (h : i < bytes.length) :
    (cell tile (addr + .ofNat 64 i), bytes[i]) ∈ byteCells cell tile addr bytes := by
  refine List.mem_map.mpr ⟨(bytes[i], i), ?_, rfl⟩
  rw [List.mem_zipIdx_iff_getElem?]
  exact List.getElem?_eq_getElem h

def Distinct (ops : List Op) : Prop := ((ops.flatMap (Op.cells cell)).map Prod.fst).Nodup

theorem Distinct.before {before after : List Op} (distinct : Distinct cell (before ++ after)) :
    Distinct cell before := by
  rw [Distinct, List.flatMap_append, List.map_append] at distinct
  exact distinct.of_append_left

theorem wordAt_of_inPlace {mem : κ → U8} {tile : Xy} {addr : U64} {value : U32}
    (inPlace : InPlace cell mem tile addr (wordBytes value)) :
    wordAt cell mem tile addr = value := by
  apply loadU32_of_bytes
  intro i lt
  exact (inPlace i lt).trans (wordBytes_getElem value i lt)

variable [DecidableEq κ]

theorem inPlace_of_cells (mem : κ → U8) {ops : List Op} {op : Op} {tile : Xy} {addr : U64}
    {bytes : List U8} (distinct : Distinct cell ops) (member : op ∈ ops)
    (cells : op.cells cell = byteCells cell tile addr bytes) :
    InPlace cell (put mem (ops.flatMap (Op.cells cell))) tile addr bytes := by
  intro i h
  apply put_of_mem mem distinct
  rw [List.mem_flatMap]
  exact ⟨op, member, cells ▸ byteCells_mem cell h⟩

end

/-! ## What has been written when the script stops -/

theorem perform_none {attempts : List (Except Halt Op)} {ops : List Op}
    (done : perform attempts = (ops, none)) : attempts = ops.map .ok := by
  induction attempts generalizing ops with
  | nil =>
      cases done
      rfl
  | cons attempt rest ih =>
      cases attempt with
      | error halt => cases done
      | ok op =>
          obtain ⟨first, second⟩ := Prod.mk.inj done
          rw [← first, List.map_cons, ← ih (Prod.ext rfl second)]

theorem perform_mem {attempts : List (Except Halt Op)} {op : Op}
    (member : op ∈ (perform attempts).1) : .ok op ∈ attempts := by
  induction attempts with
  | nil => cases member
  | cons attempt rest ih =>
      cases attempt with
      | error halt => cases member
      | ok first =>
          rcases List.mem_cons.mp member with rfl | later
          · exact List.mem_cons_self
          · exact List.mem_cons_of_mem _ (ih later)

theorem nocWrite_ok {tile : Xy} {image : Image} {op : Op} (written : nocWrite tile image = .ok op) :
    op = .nocWrite tile (.ofInt 64 image.addr) image.bytes ∧
      0 ≤ image.addr ∧ image.addr < 2 ^ 64 := by
  unfold nocWrite at written
  split at written
  case isTrue range => exact ⟨(Except.ok.inj written).symm, range⟩
  case isFalse => cases written

theorem resetVectors_noc {tile : Xy} {opensbi_addr : U64} :
    ∀ op ∈ resetVectors tile opensbi_addr, op.isAxi = false := by
  intro op member
  obtain ⟨core, -, words⟩ := List.mem_flatMap.mp member
  simp only [List.mem_cons, List.not_mem_nil, or_false] at words
  rcases words with rfl | rfl <;> rfl

theorem prefetchers_noc {l2cpu : Fin 4} : ∀ op ∈ prefetchers l2cpu, op.isAxi = false := by
  intro op member
  obtain ⟨offset, -, words⟩ := List.mem_flatMap.mp member
  simp only [List.mem_cons, List.not_mem_nil, or_false] at words
  rcases words with rfl | rfl <;> rfl

theorem prepare_noc {env : Env} {args : Args} {idx : Nat} {l2cpu : Fin 4} {op : Op}
    (member : .ok op ∈ prepare env args idx l2cpu) : op.isAxi = false := by
  unfold prepare at member
  split at member
  · simp at member
  · rename_i images _
    simp only [loadL2cpu, List.cons_append, List.mem_cons, List.mem_append, List.mem_map] at member
    rcases member with first | ⟨image, -, written⟩ | ⟨vector, among, same⟩
    · cases first
      rfl
    · rw [(nocWrite_ok written).1]
      rfl
    · cases same
      exact resetVectors_noc op among

theorem attempts_noc (env : Env) (args : Args) (l2cpus : List (Fin 4)) :
    ∀ op ∈ (perform (attempts env args l2cpus)).1, op.isAxi = false := by
  intro op member
  obtain ⟨⟨l2cpu, idx⟩, -, among⟩ := List.mem_flatMap.mp (perform_mem member)
  exact prepare_noc among

/-! ## One L2CPU loaded -/

section
variable {κ : Type*} (cell : Xy → U64 → κ)

structure Loaded (mem : κ → U8) (l2cpu : Fin 4) (images : Images) : Prop where
  inPlace : ∀ image ∈ images.list, (0 ≤ image.addr ∧ image.addr < 2 ^ 64) ∧
    InPlace cell mem (l2cpuTileMapping l2cpu) (.ofInt 64 image.addr) image.bytes
  vectors : ∀ core ∈ [(0 : U64), 1, 2, 3],
    Virtio.joinWords (wordAt cell mem (l2cpuTileMapping l2cpu) (l2cpuBase + 8 * core + 4))
      (wordAt cell mem (l2cpuTileMapping l2cpu) (l2cpuBase + 8 * core)) =
        .ofInt 64 images.opensbi.addr
  cache : wordAt cell mem (l2cpuTileMapping l2cpu) (l3RegBase + 8) = 0xf

variable [DecidableEq κ]

theorem word_written (mem : κ → U8) {ops : List Op} {tile : Xy} {addr : U64} {value : U32}
    (distinct : Distinct cell ops) (member : .nocWrite32 tile addr value ∈ ops) :
    wordAt cell (put mem (ops.flatMap (Op.cells cell))) tile addr = value :=
  wordAt_of_inPlace cell (inPlace_of_cells cell mem distinct member rfl)

theorem loaded_of_written (mem : κ → U8) {ops : List Op} {l2cpu : Fin 4} {images : Images}
    (distinct : Distinct cell ops)
    (written : ∀ attempt ∈ loadL2cpu l2cpu images, ∃ op ∈ ops, attempt = .ok op) :
    Loaded cell (put mem (ops.flatMap (Op.cells cell))) l2cpu images := by
  have vector {op : Op} (among : op ∈ resetVectors (l2cpuTileMapping l2cpu)
      (.ofInt 64 images.opensbi.addr)) : op ∈ ops := by
    obtain ⟨op', member, same⟩ := written (.ok op)
      (List.mem_append_right _ (List.mem_map_of_mem among))
    rwa [Except.ok.inj same]
  constructor
  · intro image among
    obtain ⟨op, member, same⟩ := written (nocWrite (l2cpuTileMapping l2cpu) image)
      (List.mem_append_left _ (List.mem_cons_of_mem _ (List.mem_map_of_mem among)))
    obtain ⟨rfl, range⟩ := nocWrite_ok same
    exact ⟨range, inPlace_of_cells cell mem distinct member rfl⟩
  · intro core among
    have low := word_written cell mem distinct (vector (List.mem_flatMap.mpr
      ⟨core, among, List.mem_cons_self⟩))
    have high := word_written cell mem distinct (vector (List.mem_flatMap.mpr
      ⟨core, among, List.mem_cons_of_mem _ List.mem_cons_self⟩))
    rw [low, high, Virtio.joinWords_split]
  · obtain ⟨op, member, same⟩ := written _ List.mem_cons_self
    cases same
    exact word_written cell mem distinct member

end

end TtBhLinux.Boot
