import TtBhLinux.Common.LittleEndian
import TtBhLinux.Console.Lossless
import TtBhLinux.L2cpu.MemoryPtr

/-!
# The console rings in the memory of the tile

The host comes to the fields of `struct queues` through a window and the guest directly. What either
of them does there to the bytes of the tile is what the rings do.
-/

namespace TtBhLinux.Console
open Common L2cpu

/-! ## struct queues -/

structure RingLayout where
  buf : U64
  head : U64
  tail : U64

def txLayout : RingLayout := ⟨0x8, 0x2008, 0x200c⟩
def rxLayout : RingLayout := ⟨0x1008, 0x2010, 0x2014⟩

/-- `sizeof(struct queues)` -/
def queuesSize : Nat := 0x2018

def RingLayout.slot (l : RingLayout) (index : U32) : U64 := l.buf + (index % bufferSize).setWidth 64

def Ring.within (fields : U64 → U8) (l : RingLayout) : Ring where
  buf i := if i < bufferSize.toNat then fields (l.buf + .ofNat 64 i) else 0
  head := loadU32 fields l.head
  tail := loadU32 fields l.tail

/-! ## Accesses -/

/-- Which byte a party reaches at an offset into the struct, if any. -/
abbrev Port := U64 → Option TileByte

namespace Port
variable (port : Port) (tiles : TileByte → U8)

def load (field : U64) : Option U8 := (port field).map tiles

def loadU32 (field : U64) : Option U32 := do
  let first ← port.load tiles field
  let second ← port.load tiles (field + 1)
  let third ← port.load tiles (field + 2)
  let fourth ← port.load tiles (field + 3)
  return fourth ++ third ++ second ++ first

def store (tiles : TileByte → U8) (field : U64) : List U8 → Option (TileByte → U8)
  | [] => some tiles
  | byte :: rest => do
      let cell ← port field
      store (Function.update tiles cell byte) (field + 1) rest

end Port

structure Control where
  pusher : PushPc
  popper : PopPc
  pushed : List U8
  popped : List U8

def Control.on (d : Control) (ring : Ring) : Direction :=
  ⟨ring, d.pusher, d.popper, d.pushed, d.popped⟩

section
variable (port : Port) (l : RingLayout)

def Control.pushStep (free : Bool) (d : Control) (tiles : TileByte → U8) :
    Option (Control × (TileByte → U8)) :=
  match d.pusher with
  | .idle => none
  | .loadHead c => (port.loadU32 tiles l.head).map fun head =>
      ({ d with pusher := .loadTail c head }, tiles)
  | .loadTail c head => (port.loadU32 tiles l.tail).map fun tail =>
      ({ d with pusher := if canPush head tail then .loadSlot c else .loadHead c }, tiles)
  | .loadSlot c => (port.loadU32 tiles l.head).map fun head =>
      ({ d with pusher := .storeSlot c head }, tiles)
  | .storeSlot c head => (port.store tiles (l.slot head) [c]).map fun tiles =>
      ({ d with pusher := .reloadHead c }, tiles)
  | .reloadHead c => (port.loadU32 tiles l.head).map fun head =>
      ({ d with pusher := .storeHead c head }, tiles)
  | .storeHead c head =>
      (port.store tiles l.head (wordBytes (advance free head))).map fun tiles =>
        ({ d with pusher := .idle, pushed := d.pushed ++ [c] }, tiles)

def Control.popStep (free : Bool) (d : Control) (tiles : TileByte → U8) :
    Option (Control × (TileByte → U8)) :=
  match d.popper with
  | .idle _ => none
  | .pollHead => (port.loadU32 tiles l.head).map fun head =>
      ({ d with popper := .pollTail head }, tiles)
  | .pollTail head => (port.loadU32 tiles l.tail).map fun tail =>
      ({ d with popper := .idle (canPop head tail) }, tiles)
  | .loadHead ready => (port.loadU32 tiles l.head).map fun head =>
      ({ d with popper := .loadTail ready head }, tiles)
  | .loadTail ready head => (port.loadU32 tiles l.tail).map fun tail =>
      ({ d with popper := if canPop head tail then .loadSlot else .loadHead ready }, tiles)
  | .loadSlot => (port.loadU32 tiles l.tail).map fun tail =>
      ({ d with popper := .readSlot tail }, tiles)
  | .readSlot tail => (port.load tiles (l.slot tail)).map fun c =>
      ({ d with popper := .reloadTail c }, tiles)
  | .reloadTail c => (port.loadU32 tiles l.tail).map fun tail =>
      ({ d with popper := .storeTail c tail }, tiles)
  | .storeTail c tail =>
      (port.store tiles l.tail (wordBytes (advance free tail))).map fun tiles =>
        ({ d with popper := .idle false, popped := d.popped ++ [c] }, tiles)

def Control.step (move : Move) (d : Control) (tiles : TileByte → U8) :
    Option (Control × (TileByte → U8)) :=
  match move with
  | .push c => if d.pusher = .idle then some ({ d with pusher := .loadHead c }, tiles) else none
  | .pushStep free => d.pushStep port l free tiles
  | .poll => match d.popper with
      | .idle _ => some ({ d with popper := .pollHead }, tiles)
      | _ => none
  | .pop => match d.popper with
      | .idle ready => some ({ d with popper := .loadHead ready }, tiles)
      | _ => none
  | .popStep free => d.popStep port l free tiles

end

structure InMemory where
  tiles : TileByte → U8
  tx : Control
  rx : Control

def Label.port (host guest : Port) : Label → Port
  | .rx (.push _) | .rx (.pushStep _) | .tx .poll | .tx .pop | .tx (.popStep _) => host
  | _ => guest

section
variable (tile : Xy) (uart_base : U64)

def fields (tiles : TileByte → U8) (field : U64) : U8 := tiles ⟨tile, uart_base + field⟩

def InMemory.queues (s : InMemory) : Queues where
  tx := s.tx.on (.within (fields tile uart_base s.tiles) txLayout)
  rx := s.rx.on (.within (fields tile uart_base s.tiles) rxLayout)

def InMemory.step (host guest : Port) (label : Label) (s : InMemory) : Option InMemory :=
  if hostTurn (s.queues tile uart_base) label then
    match label with
    | .tx move => (s.tx.step (label.port host guest) txLayout move s.tiles).map fun (tx, tiles) =>
        { s with tx, tiles }
    | .rx move => (s.rx.step (label.port host guest) rxLayout move s.tiles).map fun (rx, tiles) =>
        { s with rx, tiles }
  else none

def Control.fresh : Control := ⟨.idle, .idle false, [], []⟩

def inMemory (host guest : Port) (tiles : TileByte → U8) : System InMemory Label where
  init s := s = ⟨tiles, .fresh, .fresh⟩
  step := InMemory.step tile uart_base host guest

def Port.Resolves (port : Port) : Prop :=
  ∀ field : U64, field.toNat < queuesSize → port field = some ⟨tile, uart_base + field⟩

end

/-! ## Accesses that reach the struct -/

theorem fields_update {tile : Xy} {uart_base : U64} {tiles : TileByte → U8} {field : U64}
    {byte : U8} :
    fields tile uart_base (Function.update tiles ⟨tile, uart_base + field⟩ byte) =
      Common.store (fields tile uart_base tiles) field [byte] := by
  funext other
  by_cases same : other = field
  · rw [same, store_singleton, fields, Function.update_self]
  · have ne : TileByte.mk tile (uart_base + other) ≠ ⟨tile, uart_base + field⟩ := fun eq =>
      same (add_left_cancel (TileByte.mk.inj eq).2)
    rw [store_outside _ _ (mt inRegion_one.mp same), fields, Function.update_of_ne ne, fields]

section
variable {tile : Xy} {uart_base : U64} {port : Port} (resolves : port.Resolves tile uart_base)
  {tiles : TileByte → U8}
include resolves

theorem Port.Resolves.load {field : U64} (inside : field.toNat < queuesSize) :
    port.load tiles field = some (fields tile uart_base tiles field) := by
  rw [Port.load, resolves field inside]
  rfl

theorem Port.Resolves.loadU32 {field : U64} (inside : field.toNat + 4 ≤ queuesSize) :
    port.loadU32 tiles field = some (Common.loadU32 (fields tile uart_base tiles) field) := by
  have size : queuesSize = 0x2018 := rfl
  have at_offset : ∀ i : Nat, i < 4 → (field + .ofNat 64 i).toNat < queuesSize := by
    intro i lt
    rw [BitVec.toNat_add, BitVec.toNat_ofNat]
    omega
  have second : (field + 1).toNat < queuesSize := at_offset 1 (by omega)
  have third : (field + 2).toNat < queuesSize := at_offset 2 (by omega)
  have fourth : (field + 3).toNat < queuesSize := at_offset 3 (by omega)
  rw [Port.loadU32, resolves.load (by omega), resolves.load second, resolves.load third,
    resolves.load fourth]
  rfl

theorem Port.Resolves.store (tiles : TileByte → U8) {field : U64} (bytes : List U8)
    (inside : field.toNat + bytes.length ≤ queuesSize) :
    ∃ tiles', port.store tiles field bytes = some tiles' ∧
      fields tile uart_base tiles' = Common.store (fields tile uart_base tiles) field bytes := by
  have size : queuesSize = 0x2018 := rfl
  induction bytes generalizing tiles field with
  | nil => exact ⟨tiles, rfl, rfl⟩
  | cons byte rest ih =>
      rw [List.length_cons] at inside
      have next : (field + 1).toNat = field.toNat + 1 := by
        rw [BitVec.toNat_add, show (1 : U64).toNat = 1 from rfl]
        omega
      obtain ⟨tiles', stored, same⟩ :=
        ih (Function.update tiles ⟨tile, uart_base + field⟩ byte)
          (show (field + 1).toNat + rest.length ≤ queuesSize by omega)
      refine ⟨tiles', ?_, ?_⟩
      · rw [Port.store, resolves field (by omega)]
        exact stored
      · rw [same, fields_update, store_cons _ _ _ (by omega)]

end

/-! ## Stores to a ring -/

def RingLayout.Owns (l : RingLayout) (x : U64) : Prop :=
  InRegion l.buf bufferSize.toNat x ∨ InRegion l.head 4 x ∨ InRegion l.tail 4 x

structure RingLayout.Proper (l : RingLayout) : Prop where
  inside : l.buf.toNat + bufferSize.toNat ≤ queuesSize ∧ l.head.toNat + 4 ≤ queuesSize ∧
    l.tail.toNat + 4 ≤ queuesSize
  buf_head : Apart l.buf bufferSize.toNat l.head 4
  buf_tail : Apart l.buf bufferSize.toNat l.tail 4
  head_tail : Apart l.head 4 l.tail 4

theorem within_buf {l : RingLayout} {fields fields' : U64 → U8}
    (same : ∀ x, InRegion l.buf bufferSize.toNat x → fields' x = fields x) :
    (Ring.within fields' l).buf = (Ring.within fields l).buf := by
  funext i
  simp only [Ring.within]
  split
  · rename_i lt
    exact same _ (inRegion_offset l.buf lt (by decide))
  · rfl

theorem within_congr {l : RingLayout} {fields fields' : U64 → U8}
    (same : ∀ x, l.Owns x → fields' x = fields x) : Ring.within fields' l = .within fields l := by
  have buf := within_buf fun x inside => same x (.inl inside)
  have head := loadU32_congr fun x inside => same x (.inr (.inl inside))
  have tail := loadU32_congr fun x inside => same x (.inr (.inr inside))
  rw [Ring.within, head, tail]
  exact congrArg (Ring.mk · _ _) buf

theorem slot_at (l : RingLayout) (index : U32) :
    l.slot index = l.buf + .ofNat 64 (index % bufferSize).toNat := by
  rw [RingLayout.slot]
  congr 1
  apply BitVec.eq_of_toNat_eq
  rw [BitVec.toNat_setWidth, BitVec.toNat_ofNat]

theorem slot_lt (index : U32) : (index % bufferSize).toNat < bufferSize.toNat :=
  Nat.mod_lt _ (by decide)

theorem slot_inside {l : RingLayout} {index : U32} {x : U64} (inside : InRegion (l.slot index) 1 x) :
    InRegion l.buf bufferSize.toNat x := by
  rw [slot_at] at inside
  exact inside.shift (slot_lt index) (by decide)

section
variable {l : RingLayout} (proper : l.Proper) (fields : U64 → U8)
include proper

theorem within_storeHead (value : U32) : Ring.within (Common.store fields l.head (wordBytes value)) l =
    { Ring.within fields l with head := value } := by
  have kept : ∀ x, ¬InRegion l.head 4 x →
      Common.store fields l.head (wordBytes value) x = fields x :=
    fun x outside => store_outside fields l.head outside
  have buf := within_buf fun x inside => kept x (proper.buf_head x inside)
  have tail := loadU32_congr fun x (inside : InRegion l.tail 4 x) =>
    kept x fun stored => proper.head_tail x stored inside
  rw [Ring.within, loadU32_store, tail]
  exact congrArg (Ring.mk · _ _) buf

theorem within_storeTail (value : U32) : Ring.within (Common.store fields l.tail (wordBytes value)) l =
    { Ring.within fields l with tail := value } := by
  have kept : ∀ x, ¬InRegion l.tail 4 x →
      Common.store fields l.tail (wordBytes value) x = fields x :=
    fun x outside => store_outside fields l.tail outside
  have buf := within_buf fun x inside => kept x (proper.buf_tail x inside)
  have head := loadU32_congr fun x (inside : InRegion l.head 4 x) =>
    kept x (proper.head_tail x inside)
  rw [Ring.within, loadU32_store, head]
  exact congrArg (Ring.mk · _ _) buf

theorem within_storeSlot (index : U32) (c : U8) :
    Ring.within (Common.store fields (l.slot index) [c]) l = { Ring.within fields l with
      buf := Function.update (Ring.within fields l).buf (index % bufferSize).toNat c } := by
  have kept : ∀ x, ¬InRegion (l.slot index) 1 x →
      Common.store fields (l.slot index) [c] x = fields x :=
    fun x outside => store_outside fields (l.slot index) outside
  have head := loadU32_congr fun x (inside : InRegion l.head 4 x) =>
    kept x fun stored => proper.buf_head x (slot_inside stored) inside
  have tail := loadU32_congr fun x (inside : InRegion l.tail 4 x) =>
    kept x fun stored => proper.buf_tail x (slot_inside stored) inside
  have buf : (Ring.within (Common.store fields (l.slot index) [c]) l).buf =
      Function.update (Ring.within fields l).buf (index % bufferSize).toNat c := by
    funext i
    have small := slot_lt index
    by_cases same : i = (index % bufferSize).toNat
    · rw [same, Function.update_self, slot_at]
      simp only [Ring.within, small, if_true]
      exact store_singleton _ _ _
    · rw [Function.update_of_ne same]
      simp only [Ring.within]
      split
      · rename_i lt
        refine kept _ fun stored => same ?_
        have size : bufferSize.toNat = 4096 := rfl
        rw [slot_at] at stored
        have eq := congrArg BitVec.toNat (add_left_cancel (inRegion_one.mp stored))
        rw [BitVec.toNat_ofNat, BitVec.toNat_ofNat] at eq
        omega
      · rfl
  rw [Ring.within, head, tail]
  exact congrArg (Ring.mk · _ _) buf

end

/-! ## The refinement -/

def RingLayout.Separate (l l' : RingLayout) : Prop := ∀ x, l.Owns x → ¬l'.Owns x

theorem within_other {l l' : RingLayout} (separate : l.Separate l') (fields : U64 → U8) (a : U64)
    (bytes : List U8) (own : ∀ x, InRegion a bytes.length x → l.Owns x) :
    Ring.within (Common.store fields a bytes) l' = .within fields l' :=
  within_congr fun x other => store_outside fields a fun stored => separate x (own x stored) other

theorem RingLayout.Proper.slot_fits {l : RingLayout} (proper : l.Proper) (index : U32) :
    (l.slot index).toNat + 1 ≤ queuesSize := by
  have lt := slot_lt index
  have inside := proper.inside.1
  have size : queuesSize = 0x2018 := rfl
  rw [slot_at, BitVec.toNat_add, BitVec.toNat_ofNat]
  omega

section
variable {tile : Xy} {uart_base : U64} {port : Port} {l l' : RingLayout}

/-- A direction and the ring of the other one. -/
def Control.seen (tile : Xy) (uart_base : U64) (l l' : RingLayout)
    (r : Control × (TileByte → U8)) : Direction × Ring :=
  (r.1.on (.within (fields tile uart_base r.2) l), .within (fields tile uart_base r.2) l')

variable (resolves : port.Resolves tile uart_base) (proper : l.Proper) (separate : l.Separate l')
include resolves proper separate

theorem pushStep_refines (free : Bool) (d : Control) (tiles : TileByte → U8) :
    (d.pushStep port l free tiles).map (Control.seen tile uart_base l l') =
      ((d.on (.within (fields tile uart_base tiles) l)).pushStep free).map
        (·, Ring.within (fields tile uart_base tiles) l') := by
  obtain ⟨-, head, tail⟩ := proper.inside
  unfold Control.pushStep Direction.pushStep
  cases pusher : d.pusher with
  | idle => simp [Control.on, pusher]
  | loadHead c | loadSlot c | reloadHead c =>
      simp only [Control.on, pusher, resolves.loadU32 head]
      rfl
  | loadTail c index =>
      simp only [Control.on, pusher, resolves.loadU32 tail]
      rfl
  | storeSlot c index =>
      obtain ⟨tiles', stored, same⟩ := resolves.store tiles [c] (proper.slot_fits index)
      have other := within_other separate (fields tile uart_base tiles) (l.slot index) [c]
        fun x inside => .inl (slot_inside inside)
      simp only [Control.on, pusher, stored, Option.map_some, Control.seen, same,
        within_storeSlot proper, other]
  | storeHead c index =>
      obtain ⟨tiles', stored, same⟩ := resolves.store tiles (wordBytes (advance free index)) head
      have other := within_other separate (fields tile uart_base tiles) l.head
        (wordBytes (advance free index)) fun x inside => .inr (.inl inside)
      simp only [Control.on, pusher, stored, Option.map_some, Control.seen, same,
        within_storeHead proper, other]

theorem popStep_refines (free : Bool) (d : Control) (tiles : TileByte → U8) :
    (d.popStep port l free tiles).map (Control.seen tile uart_base l l') =
      ((d.on (.within (fields tile uart_base tiles) l)).popStep free).map
        (·, Ring.within (fields tile uart_base tiles) l') := by
  obtain ⟨-, head, tail⟩ := proper.inside
  unfold Control.popStep Direction.popStep
  cases popper : d.popper with
  | idle ready => simp [Control.on, popper]
  | pollHead | loadHead ready =>
      simp only [Control.on, popper, resolves.loadU32 head]
      rfl
  | pollTail index | loadTail ready index | loadSlot | reloadTail c =>
      simp only [Control.on, popper, resolves.loadU32 tail]
      rfl
  | readSlot index =>
      have slot : (Ring.within (fields tile uart_base tiles) l).buf (index % bufferSize).toNat =
          fields tile uart_base tiles (l.slot index) := by
        rw [slot_at]
        exact if_pos (slot_lt index)
      simp only [Control.on, popper, resolves.load (proper.slot_fits index), slot]
      rfl
  | storeTail c index =>
      obtain ⟨tiles', stored, same⟩ := resolves.store tiles (wordBytes (advance free index)) tail
      have other := within_other separate (fields tile uart_base tiles) l.tail
        (wordBytes (advance free index)) fun x inside => .inr (.inr inside)
      simp only [Control.on, popper, stored, Option.map_some, Control.seen, same,
        within_storeTail proper, other]

theorem control_refines (move : Move) (d : Control) (tiles : TileByte → U8) :
    (d.step port l move tiles).map (Control.seen tile uart_base l l') =
      ((d.on (.within (fields tile uart_base tiles) l)).step move).map
        (·, Ring.within (fields tile uart_base tiles) l') := by
  cases move with
  | pushStep free => exact pushStep_refines resolves proper separate free d tiles
  | popStep free => exact popStep_refines resolves proper separate free d tiles
  | push c =>
      unfold Control.step Direction.step
      by_cases idle : d.pusher = .idle
      · simp only [Control.on, idle, if_true]
        rfl
      · simp [Control.on, idle]
  | poll | pop =>
      unfold Control.step Direction.step
      cases popper : d.popper <;> simp only [Control.on, popper] <;> rfl

end

/-! ## Bytes that stay -/

theorem Port.store_kept {port : Port} {tiles tiles' : TileByte → U8} {field : U64}
    {bytes : List U8} (stored : port.store tiles field bytes = some tiles') {cell : TileByte}
    (missed : ∀ i < bytes.length, port (field + .ofNat 64 i) ≠ some cell) :
    tiles' cell = tiles cell := by
  induction bytes generalizing tiles field with
  | nil =>
      cases stored
      rfl
  | cons byte rest ih =>
      obtain ⟨first, reached, stored⟩ := Option.bind_eq_some_iff.mp stored
      have other : cell ≠ first := by
        have here := missed 0 (Nat.succ_pos _)
        rw [show field + BitVec.ofNat 64 0 = field from BitVec.add_zero field, reached] at here
        exact fun same => here (congrArg some same.symm)
      rw [ih stored fun i lt => ?_, Function.update_of_ne other]
      have next : field + 1 + .ofNat 64 i = field + .ofNat 64 (i + 1) := by
        rw [BitVec.ofNat_add, BitVec.add_comm (.ofNat 64 i), BitVec.add_assoc]
        rfl
      rw [next]
      exact missed (i + 1) (Nat.succ_lt_succ lt)

def RingLayout.Misses (l : RingLayout) (tile : Xy) (uart_base : U64) (cell : TileByte) : Prop :=
  ∀ field, l.Owns field → cell ≠ ⟨tile, uart_base + field⟩

section
variable {tile : Xy} {uart_base : U64} {port : Port} {l : RingLayout} {cell : TileByte}
  (resolves : port.Resolves tile uart_base) (missed : l.Misses tile uart_base cell)
include resolves missed

theorem store_misses {tiles tiles' : TileByte → U8} {field : U64} {bytes : List U8}
    (inside : field.toNat + bytes.length ≤ queuesSize)
    (own : ∀ x, InRegion field bytes.length x → l.Owns x)
    (stored : port.store tiles field bytes = some tiles') : tiles' cell = tiles cell := by
  have size : queuesSize = 0x2018 := rfl
  apply Port.store_kept stored
  intro i lt
  have offset : (field + .ofNat 64 i).toNat < queuesSize := by
    rw [BitVec.toNat_add, BitVec.toNat_ofNat]
    omega
  rw [resolves _ offset]
  intro same
  exact missed _ (own _ (inRegion_offset field lt (by omega))) (Option.some.inj same).symm

theorem control_kept (proper : l.Proper) {move : Move} {d d' : Control}
    {tiles tiles' : TileByte → U8} (action : d.step port l move tiles = some (d', tiles')) :
    tiles' cell = tiles cell := by
  obtain ⟨-, head, tail⟩ := proper.inside
  have of_load {α : Type} {r : Option α} {f : α → Control}
      (action : r.map (fun a => (f a, tiles)) = some (d', tiles')) : tiles' cell = tiles cell := by
    obtain ⟨_, _, same⟩ := Option.map_eq_some_iff.mp action
    rw [(Prod.mk.inj same).2]
  have of_store {field : U64} {bytes : List U8} {after : Control}
      (inside : field.toNat + bytes.length ≤ queuesSize)
      (own : ∀ x, InRegion field bytes.length x → l.Owns x)
      (action : (port.store tiles field bytes).map (fun t => (after, t)) = some (d', tiles')) :
      tiles' cell = tiles cell := by
    obtain ⟨_, stored, same⟩ := Option.map_eq_some_iff.mp action
    rw [← (Prod.mk.inj same).2]
    exact store_misses resolves missed inside own stored
  cases move with
  | push c =>
      obtain ⟨-, action⟩ := Option.ite_none_right_eq_some.mp action
      cases action
      rfl
  | poll | pop =>
      simp only [Control.step] at action
      split at action <;> cases action
      rfl
  | pushStep free =>
      simp only [Control.step, Control.pushStep] at action
      cases pusher : d.pusher <;> simp only [pusher] at action
      case idle => cases action
      case storeSlot c index =>
        exact of_store (proper.slot_fits index) (fun x inside => .inl (slot_inside inside)) action
      case storeHead c index => exact of_store head (fun x inside => .inr (.inl inside)) action
      all_goals exact of_load action
  | popStep free =>
      simp only [Control.step, Control.popStep] at action
      cases popper : d.popper <;> simp only [popper] at action
      case idle => cases action
      case storeTail c index => exact of_store tail (fun x inside => .inr (.inr inside)) action
      all_goals exact of_load action

end

/-! ## The console -/

theorem txLayout_proper : txLayout.Proper where
  inside := by decide
  buf_head := apart_of_le (by decide) (by decide)
  buf_tail := apart_of_le (by decide) (by decide)
  head_tail := apart_of_le (by decide) (by decide)

theorem rxLayout_proper : rxLayout.Proper where
  inside := by decide
  buf_head := apart_of_le (by decide) (by decide)
  buf_tail := apart_of_le (by decide) (by decide)
  head_tail := apart_of_le (by decide) (by decide)

theorem tx_rx_separate : txLayout.Separate rxLayout := by
  have apart {a b : U64} {n m : Nat} (before : a.toNat + n ≤ b.toNat)
      (small : b.toNat + m ≤ 2 ^ 64) : Apart a n b m := apart_of_le before small
  intro x tx rx
  rcases tx with tx | tx | tx <;> rcases rx with rx | rx | rx
  · exact apart (by decide) (by decide) x tx rx
  · exact apart (by decide) (by decide) x tx rx
  · exact apart (by decide) (by decide) x tx rx
  · exact apart (by decide) (by decide) x rx tx
  · exact apart (by decide) (by decide) x tx rx
  · exact apart (by decide) (by decide) x tx rx
  · exact apart (by decide) (by decide) x rx tx
  · exact apart (by decide) (by decide) x tx rx
  · exact apart (by decide) (by decide) x tx rx

theorem rx_tx_separate : rxLayout.Separate txLayout := fun x rx tx => tx_rx_separate x tx rx

section
variable {tile : Xy} {uart_base : U64} {host guest : Port}
  (host_resolves : host.Resolves tile uart_base) (guest_resolves : guest.Resolves tile uart_base)
include host_resolves guest_resolves

theorem port_resolves (label : Label) : (label.port host guest).Resolves tile uart_base := by
  unfold Label.port
  split
  all_goals assumption

/-- A party does to the bytes what it does to the rings, and is as free to move. -/
theorem step_queues_eq (label : Label) (s : InMemory) :
    (s.step tile uart_base host guest label).map (·.queues tile uart_base) =
      (s.queues tile uart_base).step label := by
  unfold InMemory.step Queues.step
  have resolves := port_resolves host_resolves guest_resolves label
  split
  · cases label with
    | tx move =>
        have same := control_refines resolves txLayout_proper tx_rx_separate move s.tx s.tiles
        simp only [InMemory.queues, Option.map_map]
        have seen := congrArg (Option.map fun r : Direction × Ring => Queues.mk r.1 (s.rx.on r.2))
          same
        simp only [Option.map_map] at seen
        exact seen
    | rx move =>
        have same := control_refines resolves rxLayout_proper rx_tx_separate move s.rx s.tiles
        simp only [InMemory.queues, Option.map_map]
        have seen := congrArg (Option.map fun r : Direction × Ring => Queues.mk (s.tx.on r.2) r.1)
          same
        simp only [Option.map_map] at seen
        exact seen
  · rfl

theorem step_kept {label : Label} {s s' : InMemory} {cell : TileByte}
    (tx_missed : txLayout.Misses tile uart_base cell)
    (rx_missed : rxLayout.Misses tile uart_base cell)
    (action : s.step tile uart_base host guest label = some s') :
    s'.tiles cell = s.tiles cell := by
  have resolves := port_resolves host_resolves guest_resolves label
  obtain ⟨-, action⟩ := Option.ite_none_right_eq_some.mp action
  cases label with
  | tx move =>
      obtain ⟨r, moved, rfl⟩ := Option.map_eq_some_iff.mp action
      exact control_kept resolves tx_missed txLayout_proper moved
  | rx move =>
      obtain ⟨r, moved, rfl⟩ := Option.map_eq_some_iff.mp action
      exact control_kept resolves rx_missed rxLayout_proper moved

end

def windowPort (cpu : L2CPU) (host : HostMap) (uart_base base : U64) : Port := fun field =>
  let window := cpu.getPersistent2MTlbWindow uart_base base
  window.map (cpu.map host) (window.getWindow + field)

def tilePort (cpu : L2CPU) (uart_base : U64) : Port := fun field =>
  some ⟨cpu.coordinates, uart_base + field⟩

/-- What the bytes of `start` have become is what the rings in it have become. -/
structure AsConsole (tile : Xy) (uart_base : U64) (host guest : Port) (start : TileByte → U8)
    (s : InMemory) : Prop where
  rings : (console (.within (fields tile uart_base start) txLayout)
    (.within (fields tile uart_base start) rxLayout)).Reachable (s.queues tile uart_base)
  moves : ∀ label, (s.step tile uart_base host guest label).map (·.queues tile uart_base) =
    (s.queues tile uart_base).step label
  kept : ∀ cell, txLayout.Misses tile uart_base cell → rxLayout.Misses tile uart_base cell →
    s.tiles cell = start cell

theorem windowPort_resolves (cpu : L2CPU) (host : HostMap) {uart_base : U64} (base : U64)
    (fits : (uart_base &&& (twoMeg - 1)).toNat + queuesSize ≤ twoMeg.toNat) :
    (windowPort cpu host uart_base base).Resolves cpu.coordinates uart_base := by
  intro field inside
  have size : twoMeg.toNat = 2 ^ 21 := rfl
  apply window_shows
  rw [BitVec.toNat_add]
  omega

theorem tilePort_resolves (cpu : L2CPU) (uart_base : U64) :
    (tilePort cpu uart_base).Resolves cpu.coordinates uart_base := fun _ _ => rfl

theorem console_in_memory (cpu : L2CPU) (host : HostMap) (uart_base base : U64)
    (start : TileByte → U8) (s : InMemory)
    (fits : (uart_base &&& (twoMeg - 1)).toNat + queuesSize ≤ twoMeg.toNat)
    (reachable : (inMemory cpu.coordinates uart_base (windowPort cpu host uart_base base)
      (tilePort cpu uart_base) start).Reachable s) :
    AsConsole cpu.coordinates uart_base (windowPort cpu host uart_base base)
      (tilePort cpu uart_base) start s := by
  have host_resolves := windowPort_resolves cpu host base fits
  have same := step_queues_eq host_resolves (tilePort_resolves cpu uart_base)
  refine ⟨System.reachable_view same reachable ?_, fun label => same label s, ?_⟩
  · rintro s rfl
    rfl
  · apply reachable.invariant
    · rintro s rfl cell _ _
      rfl
    · intro s s' label before _ action cell tx_missed rx_missed
      have kept := step_kept host_resolves (tilePort_resolves cpu uart_base) tx_missed rx_missed
        action
      exact kept.trans (before cell tx_missed rx_missed)

theorem console_in_memory_exchange :
    let cpu := L2CPU.new 0 0x7f0000000000
    let window := windowPort cpu (fun _ => none) 0x4000301fdfe8 0x7e0000000000
    let console := inMemory cpu.coordinates 0x4000301fdfe8 window (tilePort cpu 0x4000301fdfe8)
      fun _ => 0
    ∃ s, console.run (exchange 65) ⟨fun _ => 0, .fresh, .fresh⟩ = some s ∧ s.rx.popped = [65] ∧
      AsConsole cpu.coordinates 0x4000301fdfe8 window (tilePort cpu 0x4000301fdfe8) (fun _ => 0)
        s := by
  intro cpu window memory
  have fits : ((0x4000301fdfe8 : U64) &&& (twoMeg - 1)).toNat + queuesSize ≤ twoMeg.toNat := by decide
  have same := step_queues_eq (windowPort_resolves cpu (fun _ => none) 0x7e0000000000 fits)
    (tilePort_resolves cpu 0x4000301fdfe8)
  have word (a : U64) : loadU32 (fields cpu.coordinates 0x4000301fdfe8 fun _ => 0) a = 0 := by
    show (0 : U8) ++ (0 : U8) ++ (0 : U8) ++ (0 : U8) = 0#32
    decide
  have ring (l : RingLayout) : Ring.within (fields cpu.coordinates 0x4000301fdfe8 fun _ => 0) l =
      ⟨fun _ => 0, 0, 0⟩ := by
    have buf : (Ring.within (fields cpu.coordinates 0x4000301fdfe8 fun _ => 0) l).buf =
        fun _ => 0 := funext fun i => ite_self 0
    rw [Ring.within, word, word]
    exact congrArg (Ring.mk · 0 0) buf
  have run : ∃ q, (console ⟨fun _ => 0, 0, 0⟩ ⟨fun _ => 0, 0, 0⟩).run (exchange 65)
      ⟨.fresh ⟨fun _ => 0, 0, 0⟩, .fresh ⟨fun _ => 0, 0, 0⟩⟩ = some q ∧ q.rx.popped = [65] :=
    ⟨_, rfl, rfl⟩
  obtain ⟨q, moved, popped⟩ := run
  have shown := System.run_view (S := memory) (T := console ⟨fun _ => 0, 0, 0⟩ ⟨fun _ => 0, 0, 0⟩)
    same (exchange 65) ⟨fun _ => 0, .fresh, .fresh⟩
  simp only [InMemory.queues, ring] at shown
  obtain ⟨s, action, rfl⟩ := Option.map_eq_some_iff.mp (shown.trans moved)
  have initial : memory.Reachable ⟨fun _ => 0, .fresh, .fresh⟩ := .start rfl
  exact ⟨s, action, popped, console_in_memory cpu (fun _ => none) 0x4000301fdfe8 0x7e0000000000
    (fun _ => 0) s fits (initial.run _ action)⟩

end TtBhLinux.Console
