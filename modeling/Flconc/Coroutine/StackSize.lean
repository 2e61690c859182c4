/-
The sizes of the coroutines' stacks: `Config::readConf` of comm/config.cc takes the stack size in units of
1024 bytes, and a region of coroutine/memory.cc is as many such stacks as the pool is large.
Nothing bounds the two numbers, and all products of them are `int`s.

As long as the size of a region is an `int`, the region is the `Memory` of the pool, which counts in
natural numbers: every run of `getBlock` and `backBlock` keeps that. From there on the region is smaller
than the stacks handed out of it. Addresses are compared without a sign, and a region that `malloc` has
returned does not wrap around the end of them.
-/
import Flconc.Coroutine.Pool
import Flconc.Http.Codec

namespace Flconc

open Wire Text Http

/-! ## The model -/

/-- What `readConf` reads of the node `coroutine`: its local for the stack size and the two members. -/
structure Config where
  localCorStackSize : Int
  corStackSize : Int
  corPoolSize : Int
  deriving DecidableEq, Repr

/-- `readConf`, given the texts of `coroutine_stack_size` and `coroutine_pool_size`. It exits when one of
them is missing. -/
def readConf (stackSize poolSize : Option Bytes) : Option Config :=
  match stackSize, poolSize with
  | some stackSize, some poolSize =>
    let corStackSize := atoi stackSize
    some ⟨corStackSize, wrap32 (1024 * corStackSize), atoi poolSize⟩
  | _, _ => none

/-- `Memory` in `int`s. -/
structure Memory32 where
  blockSize : Int
  blockCount : Int
  size : Int
  start : Int
  stop : Int
  refCounts : Int
  blocks : List Bool
  deriving DecidableEq, Repr

namespace Memory32

/-- An address has 64 bits and no sign. -/
def address (x : Int) : Int := x % 2 ^ 64

/-- An address that `malloc` can return: there is as much room behind it as an `int` can count. -/
def HasRoom (start : Nat) : Prop := start + 2 ^ 31 ≤ 2 ^ 64

instance (start : Nat) : Decidable (HasRoom start) := inferInstanceAs (Decidable (_ ≤ _))

/-- `Memory(block_size, block_count)` with the region at `start`. `resize` throws when the count is
negative. -/
def new (blockSize blockCount : Int) (start : Nat) : Except Fault Memory32 :=
  let size := wrap32 (blockCount * blockSize)
  if blockCount < 0 then .error .thrown
  else .ok ⟨blockSize, blockCount, size, start, address (start + size - 1), 0, List.replicate blockCount.toNat false⟩

/-- The loop of `getBlock`. -/
def freeBlock (m : Memory32) : Option Nat := m.blocks.findIdx? (· = false)

/-- `t * m_block_size`. -/
def offset (m : Memory32) (t : Nat) : Int := wrap32 (t * m.blockSize)

def getBlock (m : Memory32) : Option (Int × Memory32) :=
  m.freeBlock.map fun t =>
    (address (m.start + m.offset t), { m with blocks := m.blocks.set t true, refCounts := wrap32 (m.refCounts + 1) })

/-- The `i` of `backBlock`: the difference of two addresses has a sign, and C++ divides towards zero, by a block
size that is not 0. -/
def index (m : Memory32) (s : Int) : Int := wrap32 (((s - m.start).bmod (2 ^ 64)).tdiv m.blockSize)

def backBlock (m : Memory32) (s : Int) : Except Fault Memory32 :=
  if s > m.stop ∨ s < m.start then .ok m
  else if m.blockSize ≠ 0 ∧ 0 ≤ m.index s ∧ m.index s < m.blocks.length then
    .ok { m with blocks := m.blocks.set (m.index s).toNat false, refCounts := wrap32 (m.refCounts - 1) }
  else .error .memory

end Memory32

/-- A region of the pool, with `malloc` returning `start`. -/
def Config.memory (c : Config) (start : Nat) : Except Fault Memory32 :=
  Memory32.new c.corStackSize c.corPoolSize start

/-! ## Runs of a region -/

/-- A region and what `getBlock` has returned of it so far, each address with the block it was for. -/
structure BlockRun where
  memory : Memory32
  got : List (Nat × Int)

inductive BlockAct
  | get
  /-- `backBlock`, of any address. -/
  | back (s : Fin (2 ^ 64))

def blockStep (b : BlockRun) : BlockAct → Option BlockRun
  | .get => b.memory.freeBlock.bind fun t => b.memory.getBlock.map fun r => ⟨r.2, (t, r.1) :: b.got⟩
  | .back s => (b.memory.backBlock (s : Nat)).toOption.map fun m => ⟨m, b.got⟩

/-- Each block that `getBlock` returned is inside the region, and `backBlock` finds it. -/
structure InPlace (b : BlockRun) : Prop where
  inside : ∀ g ∈ b.got, b.memory.start ≤ g.2 ∧ g.2 + b.memory.blockSize - 1 ≤ b.memory.stop
  index : ∀ g ∈ b.got, b.memory.index g.2 = g.1
  back : ∀ g ∈ b.got, b.memory.backBlock g.2 = .ok { b.memory with
    blocks := b.memory.blocks.set g.1 false, refCounts := wrap32 (b.memory.refCounts - 1) }

namespace Config

/-- The products are exact, and with them every block is in place in every run. -/
structure Exact (c : Config) : Prop where
  stackSize : c.corStackSize = 1024 * c.localCorStackSize
  region : ∀ start, Memory32.HasRoom start → ∃ m, c.memory start = .ok m ∧ m.size = c.corPoolSize * c.corStackSize ∧
    (∀ t : Nat, t < c.corPoolSize → m.offset t = t * c.corStackSize) ∧
    ∀ as, Lts.Always blockStep InPlace ⟨m, []⟩ as

/-- A pool of the stacks is less than 2 GiB. -/
def Fits (c : Config) : Prop := c.corPoolSize * (1024 * c.localCorStackSize) < 2 ^ 31

instance (c : Config) : Decidable c.Fits := inferInstanceAs (Decidable (_ < _))

end Config

/-! ## One call -/

namespace Memory32

variable {m : Memory32} {blockSize blockCount s : Int} {start : Nat}

theorem new_eq_ok (h : new blockSize blockCount start = .ok m) : m = ⟨blockSize, blockCount,
    wrap32 (blockCount * blockSize), start, address (start + wrap32 (blockCount * blockSize) - 1), 0,
    List.replicate blockCount.toNat false⟩ := by
  unfold new at h
  dsimp only at h
  split at h
  · cases h
  · cases h
    rfl

theorem address_natCast {x : Nat} (h : x < 2 ^ 64) : address x = x := Int.emod_eq_of_lt (by omega) (by omega)

theorem backBlock_outside (h : s > m.stop ∨ s < m.start) : m.backBlock s = .ok m := by
  unfold backBlock
  rw [if_pos h]

end Memory32

/-! ## The region of natural numbers -/

/-- The region in `int`s. -/
def Memory.int32 (n : Memory) (refCounts : Int) : Memory32 :=
  ⟨n.blockSize, n.blockCount, n.size, n.start, n.start + n.size - 1, refCounts, n.blocks⟩

namespace Memory

variable {z : PoolSizes} {n : Memory} (r : Int)

/-- Behind an address with room for an `int`, no address of a region wraps. -/
theorem Sized.end_le (hn : n.Sized z) (hroom : Memory32.HasRoom n.start) : n.start + n.size ≤ 2 ^ 64 := by
  have hint := z.int
  rw [← hn.size_eq] at hint
  unfold Memory32.HasRoom at hroom
  omega

theorem int32_new (z : PoolSizes) {start : Nat} (hroom : Memory32.HasRoom start) :
    Memory32.new z.stackSize z.poolSize start = .ok ((new z.stackSize z.poolSize start).int32 0) := by
  have hn := new_sized z start
  have hsize : wrap32 ((z.poolSize : Int) * z.stackSize) = (new z.stackSize z.poolSize start).size := by
    rw [hn.size_eq, Int.natCast_mul]
    have hint := z.int
    exact wrap32_of_inInt32 ⟨by omega, by exact_mod_cast hint⟩
  have hpos := hn.size_pos
  have hend : start + (new z.stackSize z.poolSize start).size ≤ 2 ^ 64 := hn.end_le hroom
  have hstop : Memory32.address (start + (new z.stackSize z.poolSize start).size - 1) =
      start + (new z.stackSize z.poolSize start).size - 1 := Int.emod_eq_of_lt (by omega) (by omega)
  unfold Memory32.new
  dsimp only
  rw [if_neg (by omega), hsize, hstop]
  rfl

/-- No offset wraps: the region's size does not. -/
theorem Sized.offset (hn : n.Sized z) {t : Nat} (ht : t < z.poolSize) :
    (n.int32 r).offset t = (t * z.stackSize : Nat) := by
  have hle : t * z.stackSize ≤ z.poolSize * z.stackSize := Nat.mul_le_mul_right _ (Nat.le_of_lt ht)
  have hint := z.int
  unfold Memory32.offset int32
  rw [hn.blockSize, ← Int.natCast_mul]
  exact wrap32_of_inInt32 ⟨by omega, by omega⟩

/-- `getBlock` in `int`s is `getBlock` in natural numbers. -/
theorem Sized.getBlock_int32 (hn : n.Sized z) (hroom : Memory32.HasRoom n.start) :
    (n.int32 r).getBlock = n.getBlock.map fun g => ((g.1 : Int), g.2.int32 (wrap32 (r + 1))) := by
  unfold Memory32.getBlock Memory.getBlock
  rw [Option.map_map]
  show (n.blocks.findIdx? (· = false)).map _ = _
  refine Option.map_congr fun t ht => ?_
  have hlt : t < z.poolSize := hn.length ▸ (List.findIdx?_eq_some_iff_getElem.1 ht).1
  obtain ⟨-, hblock⟩ := hn.block_mem hlt
  have hend := hn.end_le hroom
  have haddress : Memory32.address (n.block t) = n.block t := by
    have hpos := z.stack_pos
    unfold Memory.range at hblock
    exact Memory32.address_natCast (by dsimp only at hblock; omega)
  rw [hn.offset r hlt, ← hn.blockSize]
  show (Memory32.address (n.block t), _) = _
  rw [haddress]
  rfl

theorem Sized.hasBlock_bounds (hn : n.Sized z) {s : Nat} (hs : n.hasBlock s = true) :
    n.start ≤ s ∧ s < n.start + n.size :=
  (hasBlock_iff hn).1 hs

/-- The division of `backBlock` fits: it is at most what is divided. -/
theorem Sized.index (hn : n.Sized z) {s : Nat} (hs : n.hasBlock s = true) :
    (n.int32 r).index s = ((s - n.start) / n.blockSize : Nat) := by
  obtain ⟨h1, h2⟩ := hn.hasBlock_bounds hs
  have hint := z.int
  rw [← hn.size_eq] at hint
  have hle : (s - n.start) / n.blockSize ≤ s - n.start := Nat.div_le_self _ _
  unfold Memory32.index int32
  dsimp only
  rw [← Int.natCast_sub h1, Int.bmod_eq_of_le (by omega) (by omega), ← Int.ofNat_tdiv]
  generalize (s - n.start) / n.blockSize = i at hle ⊢
  exact wrap32_of_inInt32 ⟨by omega, by omega⟩

/-- An address of the region belongs to one of its blocks. -/
theorem Sized.div_lt (hn : n.Sized z) {s : Nat} (hs : n.hasBlock s = true) :
    (s - n.start) / n.blockSize < n.blocks.length := by
  obtain ⟨h1, h2⟩ := hn.hasBlock_bounds hs
  rw [hn.size_eq] at h2
  rw [hn.length, hn.blockSize, Nat.div_lt_iff_lt_mul z.stack_pos]
  omega

/-- `backBlock` in `int`s is `backBlock` in natural numbers, inside the region... -/
theorem Sized.backBlock_int32 (hn : n.Sized z) {s : Nat} (hs : n.hasBlock s = true) :
    (n.int32 r).backBlock s = .ok ((n.backBlock s).int32 (wrap32 (r - 1))) := by
  obtain ⟨h1, h2⟩ := hn.hasBlock_bounds hs
  have hidx := hn.index r hs
  have hlt := hn.div_lt hs
  rw [backBlock_of_hasBlock hs]
  generalize (s - n.start) / n.blockSize = i at hidx hlt
  unfold Memory32.backBlock
  rw [if_neg, if_pos, hidx]
  · rfl
  · rw [hidx]
    have hpos : n.blockSize ≠ 0 := hn.blockSize ▸ Nat.one_le_iff_ne_zero.1 z.stack_pos
    exact ⟨Int.natCast_ne_zero.2 hpos, by omega, by exact_mod_cast hlt⟩
  · unfold int32
    dsimp only
    omega

/-- ... and outside, where both do nothing. -/
theorem Sized.backBlock_int32_outside (hn : n.Sized z) {s : Nat} (hs : ¬ n.hasBlock s = true) :
    (n.int32 r).backBlock s = .ok ((n.backBlock s).int32 r) := by
  have hpos := hn.size_pos
  rw [backBlock_of_not_hasBlock hs]
  rw [hasBlock_eq_true, not_not] at hs
  refine Memory32.backBlock_outside ?_
  unfold stop at hs
  unfold int32
  dsimp only
  omega

theorem backBlock_start (n : Memory) (s : Nat) : (n.backBlock s).start = n.start := by
  unfold backBlock
  split <;> rfl

theorem backBlock_block (n : Memory) (s t : Nat) : (n.backBlock s).block t = n.block t := by
  unfold backBlock
  split <;> rfl

end Memory

/-! ## Every run stays in the region -/

/-- The region is `n` in `int`s, and what was got of it are blocks of `n`. -/
structure Tracks (z : PoolSizes) (b : BlockRun) (n : Memory) (r : Int) : Prop where
  memory : b.memory = n.int32 r
  sized : n.Sized z
  room : Memory32.HasRoom n.start
  got : ∀ g ∈ b.got, g.1 < z.poolSize ∧ g.2 = n.block g.1

namespace Tracks

variable {z : PoolSizes} {b b' : BlockRun} {n : Memory} {r : Int}

theorem get (h : Tracks z b n r) (hs : blockStep b .get = some b') :
    ∃ n' r', Tracks z b' n' r' := by
  obtain ⟨t, ht, hs⟩ := Option.bind_eq_some_iff.1 hs
  obtain ⟨⟨s, m⟩, hget, hs⟩ := Option.map_eq_some_iff.1 hs
  cases hs
  rw [h.memory] at ht hget
  have hlt : t < z.poolSize := h.sized.length ▸ (List.findIdx?_eq_some_iff_getElem.1 ht).1
  have hblock : n.getBlock = some (n.block t, { n with blocks := n.blocks.set t true }) := by
    unfold Memory.getBlock
    rw [show n.blocks.findIdx? (· = false) = some t from ht]
    rfl
  rw [h.sized.getBlock_int32 r h.room, hblock] at hget
  cases hget
  exact ⟨_, _, rfl, h.sized.set t true, h.room, List.forall_mem_cons.2 ⟨⟨hlt, rfl⟩, h.got⟩⟩

theorem back (h : Tracks z b n r) {s : Fin (2 ^ 64)} (hs : blockStep b (.back s) = some b') :
    ∃ n' r', Tracks z b' n' r' := by
  obtain ⟨m, hm, hs⟩ := Option.map_eq_some_iff.1 hs
  cases hs
  rw [h.memory] at hm
  have hroom : Memory32.HasRoom (n.backBlock s).start := (n.backBlock_start s).symm ▸ h.room
  have hgot : ∀ g ∈ b.got, g.1 < z.poolSize ∧ g.2 = (n.backBlock s).block g.1 := by
    intro g hg
    rw [Memory.backBlock_block]
    exact h.got g hg
  by_cases hin : n.hasBlock s = true
  · rw [h.sized.backBlock_int32 r hin] at hm
    cases hm
    exact ⟨n.backBlock s, _, rfl, h.sized.backBlock s, hroom, hgot⟩
  · rw [h.sized.backBlock_int32_outside r hin] at hm
    cases hm
    exact ⟨n.backBlock s, _, rfl, h.sized.backBlock s, hroom, hgot⟩

/-- One call keeps the region. -/
theorem step (h : Tracks z b n r) {a : BlockAct} (hs : blockStep b a = some b') :
    ∃ n' r', Tracks z b' n' r' := by
  cases a with
  | get => exact h.get hs
  | back s => exact h.back hs

theorem inPlace (h : Tracks z b n r) : InPlace b := by
  refine ⟨fun g hg => ?_, fun g hg => ?_, fun g hg => ?_⟩
  all_goals
    obtain ⟨hlt, heq⟩ := h.got g hg
    rw [h.memory, heq]
  · obtain ⟨h1, h2⟩ := h.sized.block_mem hlt
    unfold Memory.range at h1 h2
    rw [← h.sized.blockSize] at h2
    unfold Memory.int32
    dsimp only at h1 h2 ⊢
    omega
  · rw [h.sized.index r (h.sized.hasBlock_block hlt), h.sized.block_div]
  · rw [h.sized.backBlock_int32 r (h.sized.hasBlock_block hlt), h.sized.backBlock_block hlt]
    rfl

/-- And so does every run. -/
theorem always (h : Tracks z b n r) (as : List BlockAct) : Lts.Always blockStep InPlace b as := by
  have hrun : Lts.Always blockStep (fun b => ∃ n r, Tracks z b n r) b as :=
    Lts.always_invariant (fun _ _ _ ⟨_, _, h⟩ hs => h.step hs) ⟨n, r, h⟩
  exact hrun.imp fun _ ⟨_, _, h⟩ => h.inPlace

theorem new (z : PoolSizes) {start : Nat} (hroom : Memory32.HasRoom start) :
    Tracks z ⟨(Memory.new z.stackSize z.poolSize start).int32 0, []⟩ (.new z.stackSize z.poolSize start) 0 :=
  ⟨rfl, Memory.new_sized z start, hroom, fun _ hg => absurd hg List.not_mem_nil⟩

end Tracks

/-! ## Which sizes fit -/

namespace Config

variable {c : Config}

theorem readConf_stackSize {stackSize poolSize : Option Bytes} (h : readConf stackSize poolSize = some c) :
    c.corStackSize = wrap32 (1024 * c.localCorStackSize) := by
  unfold readConf at h
  split at h
  · cases h
    rfl
  · cases h

/-- A pool that fits is one that the model of the pool is about. -/
theorem Fits.sizes (hint : c.Fits) (hstack : 1 ≤ c.localCorStackSize) (hpool : 1 ≤ c.corPoolSize) :
    ∃ z : PoolSizes, 1024 * c.localCorStackSize = z.stackSize ∧ c.corPoolSize = z.poolSize := by
  unfold Fits at hint
  obtain ⟨stack, hs⟩ := Int.eq_ofNat_of_zero_le (show 0 ≤ 1024 * c.localCorStackSize by omega)
  obtain ⟨pool, hp⟩ := Int.eq_ofNat_of_zero_le (show 0 ≤ c.corPoolSize by omega)
  rw [hs, hp, ← Int.natCast_mul] at hint
  exact ⟨⟨pool, stack, by omega, by omega, by omega⟩, hs, hp⟩

theorem exact_of_sizes {z : PoolSizes} (hstack : c.corStackSize = 1024 * c.localCorStackSize)
    (hs : c.corStackSize = z.stackSize) (hp : c.corPoolSize = z.poolSize) : c.Exact := by
  refine ⟨hstack, fun start hroom => ?_⟩
  have hsized := Memory.new_sized z start
  refine ⟨(Memory.new z.stackSize z.poolSize start).int32 0, ?_, ?_, fun t ht => ?_, fun as => ?_⟩
  · unfold memory
    rw [hs, hp]
    exact Memory.int32_new z hroom
  · rw [hs, hp, ← Int.natCast_mul, ← hsized.size_eq]
    rfl
  · rw [hs, hsized.offset 0 (by omega), Int.natCast_mul]
  · exact (Tracks.new z hroom).always as

theorem exact_of_fits {stackSize poolSize : Option Bytes} (h : readConf stackSize poolSize = some c)
    (hstack : 1 ≤ c.localCorStackSize) (hpool : 1 ≤ c.corPoolSize) (hfits : c.Fits) : c.Exact := by
  obtain ⟨z, hs, hp⟩ := hfits.sizes hstack hpool
  have hle : z.stackSize ≤ z.poolSize * z.stackSize := Nat.le_mul_of_pos_left _ z.pool_pos
  have hint := z.int
  have hexact : c.corStackSize = 1024 * c.localCorStackSize := by
    rw [readConf_stackSize h, hs]
    exact wrap32_of_inInt32 ⟨by omega, by omega⟩
  exact exact_of_sizes hexact (hexact.trans hs) hp

/-- The products are exact and every block of every run is in place exactly when the whole pool of stacks is below
2 GiB. -/
theorem exact_iff_fits {stackSize poolSize : Option Bytes} (h : readConf stackSize poolSize = some c)
    (hstack : 1 ≤ c.localCorStackSize) (hpool : 1 ≤ c.corPoolSize) : c.Exact ↔ c.Fits := by
  constructor
  · intro hexact
    obtain ⟨m, hm, hsize, -⟩ := hexact.region 0 (by decide)
    rw [Memory32.new_eq_ok hm] at hsize
    unfold Fits
    rw [← hexact.stackSize, ← hsize]
    exact (wrap32_inInt32 _).2
  · exact exact_of_fits h hstack hpool

/-- The sizes in the configurations of the tests. -/
theorem exact_test_conf :
    readConf (some (ascii "256")) (some (ascii "1000")) = some ⟨256, 262144, 1000⟩ ∧
      (⟨256, 262144, 1000⟩ : Config).Exact := by
  have h : readConf (some (ascii "256")) (some (ascii "1000")) = some ⟨256, 262144, 1000⟩ := by decide
  exact ⟨h, (exact_iff_fits h (by decide) (by decide)).2 (by decide)⟩

/-- 4097 stacks of 1 MiB are 4 GiB and 1 MiB, in an `int` 1 MiB: the second stack starts behind the
region. -/
theorem not_exact_pool4097 : ∃ c, readConf (some (ascii "1024")) (some (ascii "4097")) = some c ∧
    1 ≤ c.localCorStackSize ∧ 1 ≤ c.corPoolSize ∧ ¬ c.Exact ∧
    ∀ start m, c.memory start = .ok m → m.blocks.length = 4097 ∧ m.stop < m.start + m.offset 1 := by
  refine ⟨⟨1024, 1048576, 4097⟩, by decide, by decide, by decide, fun h => ?_, fun start m hm => ?_⟩
  · obtain ⟨m, hm, hsize, -⟩ := h.region 0 (by decide)
    rw [Memory32.new_eq_ok hm] at hsize
    exact absurd hsize (by decide)
  · have hsize : wrap32 (4097 * 1048576) = 1048576 := by decide
    have hoffset : m.offset 1 = 1048576 := by
      rw [Memory32.new_eq_ok hm]
      show wrap32 ((1 : Nat) * 1048576) = 1048576
      decide
    rw [hoffset, Memory32.new_eq_ok hm]
    dsimp only
    rw [hsize, List.length_replicate]
    unfold Memory32.address
    omega

end Config

end Flconc
