/-
The coroutine pool of coroutine/coroutine_pool.cc over the regions of coroutine/memory.cc: a fixed table
of coroutines on the blocks of one region, each with a busy flag, and further coroutines made on demand
on the blocks of further regions, each with a bitmap.

Handing out sets a flag or a bit, returning clears it: by the coroutine's index when it is in the
table, else by searching the regions for its stack and dividing. What is handed out and not yet
returned never shares a flag or a bit, so no two of these coroutines share a stack.
-/
import Flconc.Lib.Run
import Mathlib.Algebra.Ring.Nat
import Mathlib.Data.List.Pairwise
import Mathlib.Data.List.Nodup
import Mathlib.Data.List.Perm.Subperm

namespace Flconc

/-! ## Regions -/

/-- `Memory`: `m_start` is what `malloc` returned. -/
structure Memory where
  blockSize : Nat
  blockCount : Nat
  start : Nat
  blocks : List Bool
  deriving DecidableEq, Repr

namespace Memory

def new (blockSize blockCount start : Nat) : Memory :=
  ⟨blockSize, blockCount, start, List.replicate blockCount false⟩

/-- `m_size`. -/
def size (m : Memory) : Nat := m.blockCount * m.blockSize

/-- `m_end`, the address of the last byte. -/
def stop (m : Memory) : Nat := m.start + m.size - 1

/-- `getBlock`: the first free block, if there is one. -/
def getBlock (m : Memory) : Option (Nat × Memory) :=
  (m.blocks.findIdx? (· = false)).map fun t =>
    (m.start + t * m.blockSize, { m with blocks := m.blocks.set t true })

def hasBlock (m : Memory) (s : Nat) : Bool := s ≥ m.start ∧ s ≤ m.stop

def backBlock (m : Memory) (s : Nat) : Memory :=
  if s > m.stop ∨ s < m.start then m
  else { m with blocks := m.blocks.set ((s - m.start) / m.blockSize) false }

/-- Where block `t` starts. -/
def block (m : Memory) (t : Nat) : Nat := m.start + t * m.blockSize

/-- The first address of the region and the first behind it. -/
def range (m : Memory) : Nat × Nat := (m.start, m.start + m.size)

end Memory

/-- Two ranges of addresses, each given by its first one and the first behind it, have none in common. -/
def Apart (r r' : Nat × Nat) : Prop := r.2 ≤ r'.1 ∨ r'.2 ≤ r.1

instance (r r' : Nat × Nat) : Decidable (Apart r r') := inferInstanceAs (Decidable (_ ∨ _))

theorem Apart.symm {r r' : Nat × Nat} (h : Apart r r') : Apart r' r := Or.symm h

instance : Std.Symm fun m m' : Memory => Apart m.range m'.range := ⟨fun _ _ => Apart.symm⟩

/-! ## The pool -/

/-- `pool_size` and `stack_size`: positive, and a region's size is an `int`. -/
structure PoolSizes where
  poolSize : Nat
  stackSize : Nat
  pool_pos : 1 ≤ poolSize
  stack_pos : 1 ≤ stackSize
  int : poolSize * stackSize < 2 ^ 31

/-- What the pool knows of a coroutine: its index (-1 outside the table) and its stack. -/
structure Coroutine where
  index : Int
  stackPtr : Nat
  deriving DecidableEq, Repr

/-- `m_free_cors`, and `m_memory_pool` as its first region and the others. -/
structure CoroutinePool where
  freeCors : List (Coroutine × Bool)
  memory : Memory
  overflow : List Memory
  deriving DecidableEq, Repr

namespace CoroutinePool

/-- The loop of the constructor, from index `i` on. -/
def fill : Nat → Nat → Memory → Memory × List (Coroutine × Bool)
  | 0, _, m => (m, [])
  | n + 1, i, m =>
    match m.getBlock with
    | none => (m, [])
    | some (s, m) =>
      let (m, cors) := fill n (i + 1) m
      (m, (⟨i, s⟩, false) :: cors)

/-- `CoroutinePool(pool_size, stack_size)`, with its region at `start`. -/
def new (z : PoolSizes) (start : Nat) : CoroutinePool :=
  let (m, cors) := fill z.poolSize 0 (.new z.stackSize z.poolSize start)
  ⟨cors, m, []⟩

/-- A coroutine of the table that can be handed out: not in its function, not busy. -/
def available (p : CoroutinePool) (inCoFunc : Nat → Bool) (i : Nat) : Bool :=
  !inCoFunc i && p.freeCors[i]?.any fun slot => !slot.2

/-- A block of the first region that has one. -/
def takeBlock : List Memory → Option (Nat × List Memory)
  | [] => none
  | m :: rest =>
    match m.getBlock with
    | some (s, m') => some (s, m' :: rest)
    | none => (takeBlock rest).map fun r => (r.1, m :: r.2)

/-- `getCoroutineInstanse`, given which coroutines of the table are in their function and where
`malloc` puts a new region. -/
def getCoroutineInstanse (z : PoolSizes) (p : CoroutinePool) (inCoFunc : Nat → Bool) (start : Nat) :
    Option (Coroutine × CoroutinePool) :=
  match (List.range z.poolSize).find? (p.available inCoFunc) with
  | some i => p.freeCors[i]?.map fun slot => (slot.1, { p with freeCors := p.freeCors.set i (slot.1, true) })
  | none =>
    match takeBlock p.overflow with
    | some (s, overflow) => some (⟨-1, s⟩, { p with overflow := overflow })
    | none => (Memory.new z.stackSize z.poolSize start).getBlock.map fun r =>
      (⟨-1, r.1⟩, { p with overflow := p.overflow ++ [r.2] })

/-- `returnCoroutine`. -/
def returnCoroutine (z : PoolSizes) (p : CoroutinePool) (cor : Coroutine) : CoroutinePool :=
  if 0 ≤ cor.index ∧ cor.index < z.poolSize then
    { p with freeCors := p.freeCors.modify cor.index.toNat fun slot => (slot.1, false) }
  else
    { p with overflow := p.overflow.map fun m => if m.hasBlock cor.stackPtr then m.backBlock cor.stackPtr else m }

def regions (p : CoroutinePool) : List Memory := p.memory :: p.overflow

end CoroutinePool

/-! ## Blocks of a region -/

namespace Memory

/-- A region of the pool. -/
structure Sized (z : PoolSizes) (m : Memory) : Prop where
  blockSize : m.blockSize = z.stackSize
  blockCount : m.blockCount = z.poolSize
  length : m.blocks.length = z.poolSize

theorem new_sized (z : PoolSizes) (start : Nat) : (new z.stackSize z.poolSize start).Sized z :=
  ⟨rfl, rfl, List.length_replicate⟩

theorem Sized.set {z : PoolSizes} {m : Memory} (h : m.Sized z) (t : Nat) (v : Bool) :
    Sized z { m with blocks := m.blocks.set t v } :=
  ⟨h.blockSize, h.blockCount, by rw [List.length_set]; exact h.length⟩

/-- The first block of a new region is free. -/
theorem findIdx?_free {n : Nat} (h : 1 ≤ n) : (List.replicate n false).findIdx? (· = false) = some 0 := by
  obtain ⟨n, rfl⟩ := Nat.exists_eq_add_of_le' h
  rw [List.replicate_succ, List.findIdx?_cons]
  rfl

variable {z : PoolSizes} {m m' : Memory} {s t : Nat}

/-- `getBlock` marks a block that was free. -/
theorem getBlock_eq_some (h : m.getBlock = some (s, m')) : ∃ t, m.blocks[t]? = some false ∧
    s = m.block t ∧ m' = { m with blocks := m.blocks.set t true } := by
  obtain ⟨t, ht, h⟩ := Option.map_eq_some_iff.1 h
  cases h
  obtain ⟨hlt, hfree, -⟩ := List.findIdx?_eq_some_iff_getElem.1 ht
  exact ⟨t, by rw [List.getElem?_eq_getElem hlt, of_decide_eq_true hfree], rfl, rfl⟩

theorem Sized.lt (h : m.Sized z) {v : Bool} (ht : m.blocks[t]? = some v) : t < z.poolSize :=
  h.length ▸ (List.getElem?_eq_some_iff.1 ht).1

/-- A block lies inside its region. -/
theorem Sized.block_mem (h : m.Sized z) (ht : t < z.poolSize) :
    m.range.1 ≤ m.block t ∧ m.block t + z.stackSize ≤ m.range.2 := by
  have hmul : (t + 1) * z.stackSize ≤ z.poolSize * z.stackSize := Nat.mul_le_mul_right _ ht
  rw [Nat.add_mul, Nat.one_mul] at hmul
  unfold range block size
  rw [h.blockSize, h.blockCount]
  omega

theorem Sized.block_inj (h : m.Sized z) {t' : Nat} (heq : m.block t = m.block t') : t = t' := by
  unfold block at heq
  rw [h.blockSize] at heq
  exact Nat.eq_of_mul_eq_mul_right z.stack_pos (by omega)

/-- Two blocks of one region have no address in common. -/
theorem Sized.block_apart (h : m.Sized z) {t' : Nat} (hne : t ≠ t') :
    Apart (m.block t, m.block t + z.stackSize) (m.block t', m.block t' + z.stackSize) := by
  have key : ∀ i j, i < j → m.block i + z.stackSize ≤ m.block j := by
    intro i j hij
    have hmul : (i + 1) * z.stackSize ≤ j * z.stackSize := Nat.mul_le_mul_right _ hij
    rw [Nat.add_mul, Nat.one_mul] at hmul
    unfold block
    rw [h.blockSize]
    omega
  rcases Nat.lt_or_gt_of_ne hne with hlt | hlt
  · exact .inl (key t t' hlt)
  · exact .inr (key t' t hlt)

theorem Sized.size_eq (h : m.Sized z) : m.size = z.poolSize * z.stackSize := by
  unfold size
  rw [h.blockCount, h.blockSize]

theorem Sized.size_pos (h : m.Sized z) : 0 < m.size := by
  rw [h.size_eq]
  exact Nat.mul_pos z.pool_pos z.stack_pos

/-- `backBlock` tests for what `hasBlock` says. -/
theorem hasBlock_eq_true : m.hasBlock s = true ↔ ¬ (s > m.stop ∨ s < m.start) := by
  unfold hasBlock
  rw [decide_eq_true_iff]
  omega

theorem hasBlock_iff (h : m.Sized z) : m.hasBlock s = true ↔ m.range.1 ≤ s ∧ s < m.range.2 := by
  have hpos := h.size_pos
  rw [hasBlock_eq_true]
  unfold stop
  show _ ↔ m.start ≤ s ∧ s < m.start + m.size
  omega

theorem Sized.hasBlock_block (h : m.Sized z) (ht : t < z.poolSize) : m.hasBlock (m.block t) = true := by
  obtain ⟨h1, h2⟩ := h.block_mem ht
  have hpos := z.stack_pos
  exact (hasBlock_iff h).2 ⟨h1, by omega⟩

/-- The division of `backBlock` gives a block its index back. -/
theorem Sized.block_div (h : m.Sized z) (t : Nat) : (m.block t - m.start) / m.blockSize = t := by
  unfold block
  rw [Nat.add_sub_cancel_left, h.blockSize]
  exact Nat.mul_div_cancel _ z.stack_pos

theorem backBlock_of_hasBlock (hs : m.hasBlock s = true) :
    m.backBlock s = { m with blocks := m.blocks.set ((s - m.start) / m.blockSize) false } := by
  unfold backBlock
  rw [if_neg (hasBlock_eq_true.1 hs)]

theorem backBlock_of_not_hasBlock (hs : ¬ m.hasBlock s = true) : m.backBlock s = m := by
  unfold backBlock
  rw [if_pos (not_not.1 (mt hasBlock_eq_true.2 hs))]

theorem ite_hasBlock (m : Memory) (s : Nat) : (if m.hasBlock s then m.backBlock s else m) = m.backBlock s := by
  split
  · rfl
  · rename_i hs
    exact (backBlock_of_not_hasBlock hs).symm

/-- `backBlock` of the start of a block clears it. -/
theorem Sized.backBlock_block (h : m.Sized z) (ht : t < z.poolSize) :
    m.backBlock (m.block t) = { m with blocks := m.blocks.set t false } := by
  rw [backBlock_of_hasBlock (h.hasBlock_block ht), h.block_div]

theorem backBlock_range (m : Memory) (s : Nat) : (m.backBlock s).range = m.range := by
  unfold backBlock
  split <;> rfl

theorem Sized.backBlock (h : m.Sized z) (s : Nat) : (m.backBlock s).Sized z := by
  unfold Memory.backBlock
  split
  · exact h
  · exact h.set _ _

end Memory

/-! ## The pool in order -/

namespace CoroutinePool

/-- The table sits on the blocks of the first region, all of them used; the regions are apart. -/
structure Ok (z : PoolSizes) (p : CoroutinePool) : Prop where
  length : p.freeCors.length = z.poolSize
  table : ∀ (i : Nat) c busy, p.freeCors[i]? = some (c, busy) → c.index = i ∧ c.stackPtr = p.memory.block i
  full : ∀ t < z.poolSize, p.memory.blocks[t]? = some true
  sized : ∀ m ∈ p.regions, m.Sized z
  apart : p.regions.Pairwise fun m m' => Apart m.range m'.range

/-- The coroutine has a slot of the table that is busy, or a block of another region that is used. -/
inductive HandedOut (p : CoroutinePool) (c : Coroutine) : Prop
  | pooled (i : Nat) (slot : p.freeCors[i]? = some (c, true))
  | carved (m : Memory) (t : Nat) (mem : m ∈ p.overflow) (used : m.blocks[t]? = some true)
      (stack : c.stackPtr = m.block t) (index : c.index = -1)

variable {z : PoolSizes} {p : CoroutinePool}

theorem Ok.lt (h : p.Ok z) {i : Nat} {slot : Coroutine × Bool} (hi : p.freeCors[i]? = some slot) :
    i < z.poolSize :=
  h.length ▸ (List.getElem?_eq_some_iff.1 hi).1

/-- Where the stack of a coroutine is. -/
structure Place (z : PoolSizes) (p : CoroutinePool) (c : Coroutine) (m : Memory) (t : Nat) : Prop where
  mem : m ∈ p.regions
  used : m.blocks[t]? = some true
  stack : c.stackPtr = m.block t

theorem HandedOut.place (h : p.Ok z) {c : Coroutine} (hc : p.HandedOut c) :
    ∃ m t, Place z p c m t := by
  cases hc with
  | pooled i slot => exact ⟨p.memory, i, List.mem_cons_self, h.full i (h.lt slot), (h.table i c true slot).2⟩
  | carved m t mem used stack index => exact ⟨m, t, List.mem_cons_of_mem _ mem, used, stack⟩

/-- Two addresses that blocks of the pool start at are one only for one block. -/
theorem Ok.block_inj (h : p.Ok z) {m m' : Memory} (hm : m ∈ p.regions) (hm' : m' ∈ p.regions) {t t' : Nat}
    (ht : t < z.poolSize) (ht' : t' < z.poolSize) (heq : m.block t = m'.block t') : m = m' ∧ t = t' := by
  by_cases hne : m = m'
  · subst hne
    exact ⟨rfl, (h.sized m hm).block_inj heq⟩
  · have hap := h.apart.forall hm hm' hne
    have h1 := (h.sized m hm).block_mem ht
    have h2 := (h.sized m' hm').block_mem ht'
    have hpos := z.stack_pos
    unfold Apart at hap
    omega

/-- The first region is none of the others. -/
theorem Ok.memory_ne (h : p.Ok z) {m : Memory} (hm : m ∈ p.overflow) {t t' : Nat} (ht : t < z.poolSize)
    (ht' : t' < z.poolSize) : p.memory.block t ≠ m.block t' := by
  intro heq
  have hap := (List.pairwise_cons.1 h.apart).1 m hm
  have h1 := (h.sized p.memory List.mem_cons_self).block_mem ht
  have h2 := (h.sized m (List.mem_cons_of_mem _ hm)).block_mem ht'
  have hpos := z.stack_pos
  unfold Apart at hap
  omega

/-! ## A new pool -/

/-- The constructor's loop takes the blocks one by one. -/
theorem fill_spec (z : PoolSizes) : ∀ (n i : Nat) {m : Memory}, m.Sized z →
    m.blocks = List.replicate i true ++ List.replicate n false →
    ∃ cors, fill n i m = ({ m with blocks := List.replicate (i + n) true }, cors) ∧ cors.length = n ∧
      ∀ k < n, cors[k]? = some (⟨i + k, m.block (i + k)⟩, false)
  | 0, i, m, _, hb => by
    refine ⟨[], ?_, rfl, nofun⟩
    rw [List.replicate_zero, List.append_nil] at hb
    unfold fill
    rw [Nat.add_zero, ← hb]
  | n + 1, i, m, hm, hb => by
    have hfirst : m.blocks.findIdx? (· = false) = some i := by
      rw [hb, List.findIdx?_append]
      simp
    have hset : m.blocks.set i true = List.replicate (i + 1) true ++ List.replicate n false := by
      rw [hb, List.set_append_right _ _ (by simp), List.replicate_succ' (n := i), List.append_assoc]
      simp [List.replicate_succ]
    have hget : m.getBlock = some (m.block i, { m with blocks := m.blocks.set i true }) := by
      unfold Memory.getBlock
      rw [hfirst]
      rfl
    obtain ⟨cors, hcors, hlen, hslot⟩ := fill_spec z n (i + 1) (hm.set i true) hset
    refine ⟨(⟨i, m.block i⟩, false) :: cors, ?_, by rw [List.length_cons, hlen], ?_⟩
    · unfold fill
      rw [hget]
      dsimp only
      rw [hcors, show i + 1 + n = i + (n + 1) by omega]
    · intro k hk
      cases k with
      | zero => rfl
      | succ k =>
        rw [List.getElem?_cons_succ, hslot k (by omega), show i + 1 + k = i + (k + 1) by omega]
        rw [show ((i + 1 : Nat) : Int) + (k : Nat) = i + (k + 1 : Nat) by omega]
        rfl

theorem ok_new (z : PoolSizes) (start : Nat) : (new z start).Ok z := by
  obtain ⟨cors, hcors, hlen, hslot⟩ := fill_spec z z.poolSize 0 (Memory.new_sized z start)
    (by simp [Memory.new])
  have hnew : new z start = ⟨cors, { Memory.new z.stackSize z.poolSize start with
      blocks := List.replicate (0 + z.poolSize) true }, []⟩ := by
    unfold new
    rw [hcors]
  rw [hnew]
  refine ⟨hlen, fun i c busy hi => ?_, fun t ht => ?_, fun m hm => ?_, List.pairwise_singleton _ _⟩
  · have hlt : i < z.poolSize := hlen ▸ (List.getElem?_eq_some_iff.1 hi).1
    have hi' := (hslot i hlt).symm.trans hi
    rw [Nat.zero_add] at hi'
    cases hi'
    exact ⟨by show ((0 : Nat) : Int) + i = i; omega, rfl⟩
  · rw [List.getElem?_replicate, if_pos (by omega)]
  · obtain rfl := List.mem_singleton.1 hm
    exact ⟨rfl, rfl, by rw [List.length_replicate, Nat.zero_add]⟩

theorem fill_free : ∀ (n i : Nat) (m : Memory), ∀ slot ∈ (fill n i m).2, slot.2 = false
  | 0, _, _ => nofun
  | n + 1, i, m => by
    intro slot hslot
    unfold fill at hslot
    split at hslot
    · cases hslot
    · rename_i s m' _
      rcases List.mem_cons.1 hslot with rfl | hslot
      · rfl
      · exact fill_free n (i + 1) m' slot hslot

/-- Every slot of a new pool is free. -/
theorem new_free {z : PoolSizes} {start i : Nat} {slot : Coroutine × Bool}
    (h : (new z start).freeCors[i]? = some slot) : slot.2 = false :=
  fill_free z.poolSize 0 _ slot (List.mem_of_getElem? h)

/-! ## Handing out -/

/-- A pool whose regions are those of another one, up to their bitmaps. -/
theorem pairwise_range {l l' : List Memory} (h : l'.map Memory.range = l.map Memory.range)
    (hl : l.Pairwise fun m m' => Apart m.range m'.range) : l'.Pairwise fun m m' => Apart m.range m'.range := by
  rw [← List.pairwise_map] at hl ⊢
  rw [h]
  exact hl

theorem takeBlock_eq_some {l l' : List Memory} {s : Nat} (h : takeBlock l = some (s, l')) :
    ∃ l₁ m l₂ t, l = l₁ ++ m :: l₂ ∧ m.blocks[t]? = some false ∧ s = m.block t ∧
      l' = l₁ ++ { m with blocks := m.blocks.set t true } :: l₂ := by
  induction l generalizing l' with
  | nil => cases h
  | cons m rest ih =>
    unfold takeBlock at h
    split at h
    · rename_i s' m' hget
      cases h
      obtain ⟨t, ht, rfl, rfl⟩ := Memory.getBlock_eq_some hget
      exact ⟨[], m, rest, t, rfl, ht, rfl, rfl⟩
    · obtain ⟨⟨s', rest'⟩, hr, h⟩ := Option.map_eq_some_iff.1 h
      cases h
      obtain ⟨l₁, m', l₂, t, rfl, ht, rfl, rfl⟩ := ih hr
      exact ⟨m :: l₁, m', l₂, t, rfl, ht, rfl, rfl⟩

/-- A block that is set stays set when another one is. -/
theorem set_true {bs : List Bool} {t u : Nat} (h : bs[u]? = some true) : (bs.set t true)[u]? = some true := by
  rw [List.getElem?_set]
  split
  · rename_i heq
    subst heq
    rw [if_pos (List.getElem?_eq_some_iff.1 h).1]
  · exact h

/-- What handing out a coroutine does to the others: the pool stays in order, they stay handed out,
and the new one has a stack of its own. -/
structure Hands (z : PoolSizes) (p : CoroutinePool) (c : Coroutine) (p' : CoroutinePool) : Prop where
  ok : p'.Ok z
  self : p'.HandedOut c
  others : ∀ c', p.HandedOut c' → p'.HandedOut c'
  fresh : ∀ c', p.HandedOut c' → c'.stackPtr ≠ c.stackPtr

/-- The table when a slot is handed out: that one is busy, and the others are as before. -/
theorem set_slot {i : Nat} {c : Coroutine} (hi : p.freeCors[i]? = some (c, false)) {j : Nat} {d : Coroutine}
    {busy : Bool} : (p.freeCors.set i (c, true))[j]? = some (d, busy) ↔
      j = i ∧ d = c ∧ busy = true ∨ j ≠ i ∧ p.freeCors[j]? = some (d, busy) := by
  by_cases hji : j = i
  · subst hji
    rw [List.getElem?_set_self (List.getElem?_eq_some_iff.1 hi).1, Option.some.injEq, Prod.mk.injEq]
    constructor
    · rintro ⟨rfl, rfl⟩
      exact .inl ⟨rfl, rfl, rfl⟩
    · rintro (⟨-, rfl, rfl⟩ | ⟨hne, -⟩)
      · exact ⟨rfl, rfl⟩
      · exact absurd rfl hne
  · rw [List.getElem?_set_ne (Ne.symm hji)]
    exact ⟨fun h => .inr ⟨hji, h⟩, fun h => (h.resolve_left fun hs => hji hs.1).2⟩

/-- A free slot of the table. -/
theorem hands_pooled (h : p.Ok z) {i : Nat} {c : Coroutine} (hi : p.freeCors[i]? = some (c, false)) :
    Hands z p c { p with freeCors := p.freeCors.set i (c, true) } := by
  refine ⟨⟨by rw [List.length_set]; exact h.length, fun j d busy hj => ?_, h.full, h.sized, h.apart⟩,
    .pooled i ((set_slot hi).2 (.inl ⟨rfl, rfl, rfl⟩)), fun c' hc' => ?_, fun c' hc' heq => ?_⟩
  · rcases (set_slot hi).1 hj with ⟨rfl, rfl, -⟩ | ⟨-, hj⟩
    · exact h.table j d false hi
    · exact h.table j d busy hj
  · cases hc' with
    | pooled j slot =>
      refine .pooled j ((set_slot hi).2 (.inr ⟨?_, slot⟩))
      rintro rfl
      rw [hi] at slot
      cases slot
    | carved m t mem used stack index => exact .carved m t mem used stack index
  · obtain ⟨-, hc⟩ := h.table i c false hi
    cases hc' with
    | pooled j slot =>
      rw [(h.table j c' true slot).2, hc] at heq
      obtain rfl := (h.sized p.memory List.mem_cons_self).block_inj heq
      rw [hi] at slot
      cases slot
    | carved m t mem used stack index =>
      have ht := (h.sized m (List.mem_cons_of_mem _ mem)).lt used
      exact h.memory_ne mem (h.lt hi) ht (by rw [← hc, ← heq, stack])

/-- A free block of a region that is there. -/
theorem hands_carved (h : p.Ok z) {overflow : List Memory} {s : Nat}
    (htake : takeBlock p.overflow = some (s, overflow)) : Hands z p ⟨-1, s⟩ { p with overflow := overflow } := by
  obtain ⟨l₁, m, l₂, t, hl, hfree, rfl, rfl⟩ := takeBlock_eq_some htake
  have hm : m ∈ p.overflow := by rw [hl]; simp
  have hm' : m ∈ p.regions := List.mem_cons_of_mem _ hm
  have ht := (h.sized m hm').lt hfree
  have hlt := (List.getElem?_eq_some_iff.1 hfree).1
  refine ⟨⟨h.length, h.table, h.full, fun n hn => ?_, ?_⟩, ?_, fun c' hc' => ?_, fun c' hc' heq => ?_⟩
  · -- every region is as large as before
    rcases List.mem_cons.1 hn with rfl | hn
    · exact h.sized _ List.mem_cons_self
    · rcases List.mem_append.1 hn with hn | hn
      · exact h.sized n (List.mem_cons_of_mem _ (hl ▸ List.mem_append_left _ hn))
      · rcases List.mem_cons.1 hn with rfl | hn
        · exact (h.sized m hm').set t true
        · exact h.sized n (List.mem_cons_of_mem _ (hl ▸ List.mem_append_right _ (List.mem_cons_of_mem _ hn)))
  · refine pairwise_range ?_ h.apart
    show Memory.range p.memory :: _ = Memory.range p.memory :: _
    rw [hl]
    simp [Memory.range, Memory.size]
  · exact .carved _ t (List.mem_append_right _ List.mem_cons_self) (List.getElem?_set_self hlt) rfl rfl
  · cases hc' with
    | pooled j slot => exact .pooled j slot
    | carved n u mem used stack index =>
      rw [hl] at mem
      rcases List.mem_append.1 mem with mem | mem
      · exact .carved n u (List.mem_append_left _ mem) used stack index
      · rcases List.mem_cons.1 mem with rfl | mem
        · exact .carved _ u (List.mem_append_right _ List.mem_cons_self) (set_true used) stack index
        · exact .carved n u (List.mem_append_right _ (List.mem_cons_of_mem _ mem)) used stack index
  · cases hc' with
    | pooled j slot =>
      rw [(h.table j c' true slot).2] at heq
      exact h.memory_ne hm (h.lt slot) ht heq
    | carved n u mem used stack index =>
      rw [stack] at heq
      have hn : n ∈ p.regions := List.mem_cons_of_mem _ mem
      obtain ⟨rfl, rfl⟩ := h.block_inj hn hm' ((h.sized n hn).lt used) ht heq
      rw [hfree] at used
      cases used

/-- The first block of a new region. -/
theorem hands_new (h : p.Ok z) {start : Nat}
    (hap : ∀ m ∈ p.regions, Apart m.range (Memory.new z.stackSize z.poolSize start).range)
    {s : Nat} {m' : Memory} (hget : (Memory.new z.stackSize z.poolSize start).getBlock = some (s, m')) :
    Hands z p ⟨-1, s⟩ { p with overflow := p.overflow ++ [m'] } := by
  obtain ⟨t, hfree, rfl, rfl⟩ := Memory.getBlock_eq_some hget
  have hnew := Memory.new_sized z start
  have ht := hnew.lt hfree
  have hlt := (List.getElem?_eq_some_iff.1 hfree).1
  refine ⟨⟨h.length, h.table, h.full, fun n hn => ?_, ?_⟩, ?_, fun c' hc' => ?_, fun c' hc' heq => ?_⟩
  · rcases List.mem_cons.1 hn with rfl | hn
    · exact h.sized _ List.mem_cons_self
    · rcases List.mem_append.1 hn with hn | hn
      · exact h.sized n (List.mem_cons_of_mem _ hn)
      · rw [List.mem_singleton.1 hn]
        exact hnew.set t true
  · show (p.memory :: (p.overflow ++ _)).Pairwise _
    rw [← List.cons_append]
    refine List.pairwise_append.2 ⟨h.apart, List.pairwise_singleton _ _, fun n hn n' hn' => ?_⟩
    rw [List.mem_singleton.1 hn']
    exact hap n hn
  · exact .carved _ t (List.mem_append_right _ (List.mem_singleton_self _)) (List.getElem?_set_self hlt) rfl rfl
  · cases hc' with
    | pooled j slot => exact .pooled j slot
    | carved n u mem used stack index => exact .carved n u (List.mem_append_left _ mem) used stack index
  · obtain ⟨n, u, hn, hused, hstack⟩ := hc'.place h
    have h1 := (h.sized n hn).block_mem ((h.sized n hn).lt hused)
    have h2 := hnew.block_mem ht
    have h3 := hap n hn
    have hpos := z.stack_pos
    unfold Apart at h3
    dsimp only at heq
    rw [hstack] at heq
    omega

/-- An available slot is a free one of a coroutine that is not in its function. -/
theorem available_iff {inCoFunc : Nat → Bool} {i : Nat} :
    p.available inCoFunc i = true ↔ inCoFunc i = false ∧ ∃ c, p.freeCors[i]? = some (c, false) := by
  unfold available
  rw [Bool.and_eq_true, Bool.not_eq_eq_eq_not, Bool.not_true]
  refine and_congr_right fun _ => ?_
  cases hs : p.freeCors[i]? with
  | none => simp
  | some slot =>
    obtain ⟨c, busy⟩ := slot
    cases busy <;> simp

/-- A coroutine comes from an available slot; or none is available, and it is not one of the table. -/
theorem getCoroutineInstanse_cases {inCoFunc : Nat → Bool} {start : Nat} {c : Coroutine} {p' : CoroutinePool}
    (hget : getCoroutineInstanse z p inCoFunc start = some (c, p')) :
    (∃ i < z.poolSize, p.available inCoFunc i = true ∧ p.freeCors[i]? = some (c, false) ∧
        p' = { p with freeCors := p.freeCors.set i (c, true) }) ∨
      (∀ i < z.poolSize, p.available inCoFunc i = false) ∧ c.index = -1 ∧ p'.freeCors = p.freeCors ∧
        p'.overflow ≠ [] ∧ (takeBlock p.overflow = some (c.stackPtr, p'.overflow) ∨
          ∃ m, (Memory.new z.stackSize z.poolSize start).getBlock = some (c.stackPtr, m) ∧
            p' = { p with overflow := p.overflow ++ [m] }) ∧ p'.memory = p.memory := by
  unfold getCoroutineInstanse at hget
  split at hget
  · rename_i i hi
    left
    have hav := List.find?_some hi
    obtain ⟨-, d, hslot⟩ := available_iff.1 hav
    rw [hslot] at hget
    cases hget
    exact ⟨i, List.mem_range.1 (List.mem_of_find?_eq_some hi), hav, hslot, rfl⟩
  · rename_i hnone
    right
    have hno : ∀ i < z.poolSize, p.available inCoFunc i = false := fun i hi =>
      Bool.not_eq_true _ ▸ List.find?_eq_none.1 hnone i (List.mem_range.2 hi)
    split at hget
    · rename_i s overflow htake
      cases hget
      refine ⟨hno, rfl, rfl, ?_, .inl htake, rfl⟩
      obtain ⟨l₁, m, l₂, t, -, -, -, hl⟩ := takeBlock_eq_some htake
      show overflow ≠ []
      rw [hl]
      simp
    · obtain ⟨⟨s, m'⟩, hnew, hget⟩ := Option.map_eq_some_iff.1 hget
      cases hget
      exact ⟨hno, rfl, rfl, by simp, .inr ⟨m', hnew, rfl⟩, rfl⟩

theorem hands_get (h : p.Ok z) {inCoFunc : Nat → Bool} {start : Nat}
    (hap : ∀ m ∈ p.regions, Apart m.range (Memory.new z.stackSize z.poolSize start).range)
    {c : Coroutine} {p' : CoroutinePool} (hget : getCoroutineInstanse z p inCoFunc start = some (c, p')) :
    Hands z p c p' := by
  rcases getCoroutineInstanse_cases hget with ⟨i, -, -, hslot, rfl⟩ | ⟨-, hc, hfree, -, hfrom, hmem⟩
  · exact hands_pooled h hslot
  · obtain ⟨index, s⟩ := c
    obtain rfl : index = -1 := hc
    rcases hfrom with htake | ⟨m, hnew, rfl⟩
    · obtain ⟨freeCors, memory, overflow⟩ := p'
      obtain rfl : freeCors = p.freeCors := hfree
      obtain rfl : memory = p.memory := hmem
      exact hands_carved h htake
    · exact hands_new h hap hnew

/-- The pool always has a coroutine to hand out. -/
theorem getCoroutineInstanse_isSome (p : CoroutinePool) (inCoFunc : Nat → Bool) (start : Nat) :
    (getCoroutineInstanse z p inCoFunc start).isSome = true := by
  unfold getCoroutineInstanse
  split
  · rename_i i hi
    obtain ⟨-, c, hslot⟩ := available_iff.1 (List.find?_some hi)
    rw [hslot]
    rfl
  · split
    · rfl
    · -- a new region has a block to give
      unfold Memory.getBlock Memory.new
      rw [Memory.findIdx?_free z.pool_pos]
      rfl

/-! ## Taking back -/

/-- What taking a coroutine back does: the pool stays in order, and whoever has another stack stays
handed out. -/
structure TakesBack (z : PoolSizes) (p : CoroutinePool) (c : Coroutine) (p' : CoroutinePool) : Prop where
  ok : p'.Ok z
  others : ∀ c', p.HandedOut c' → c'.stackPtr ≠ c.stackPtr → p'.HandedOut c'

theorem takesBack_pooled (h : p.Ok z) {i : Nat} {c : Coroutine} (hi : p.freeCors[i]? = some (c, true)) :
    TakesBack z p c { p with freeCors := p.freeCors.modify i fun slot => (slot.1, false) } := by
  refine ⟨⟨by rw [List.length_modify]; exact h.length, fun j d busy hj => ?_, h.full, h.sized, h.apart⟩,
    fun c' hc' hne => ?_⟩
  · change (p.freeCors.modify i _)[j]? = _ at hj
    rw [List.getElem?_modify] at hj
    obtain ⟨⟨e, b⟩, he, hj⟩ := Option.map_eq_some_iff.1 hj
    have hd : e = d := by
      split at hj <;> cases hj <;> rfl
    exact hd ▸ h.table j e b he
  · cases hc' with
    | pooled j slot =>
      have hij : i ≠ j := by
        rintro rfl
        rw [hi] at slot
        cases slot
        exact hne rfl
      refine .pooled j ?_
      show (p.freeCors.modify i _)[j]? = _
      rw [List.getElem?_modify, slot]
      simp [hij]
    | carved m t mem used stack index => exact .carved m t mem used stack index

theorem takesBack_carved (h : p.Ok z) {c : Coroutine} {m : Memory} {t : Nat} (hm : m ∈ p.overflow)
    (hused : m.blocks[t]? = some true) (hstack : c.stackPtr = m.block t) : TakesBack z p c
      { p with overflow := p.overflow.map fun m => if m.hasBlock c.stackPtr then m.backBlock c.stackPtr else m } := by
  have hm' : m ∈ p.regions := List.mem_cons_of_mem _ hm
  have ht := (h.sized m hm').lt hused
  simp only [Memory.ite_hasBlock]
  refine ⟨⟨h.length, h.table, h.full, fun n hn => ?_, ?_⟩, fun c' hc' hne => ?_⟩
  · rcases List.mem_cons.1 hn with rfl | hn
    · exact h.sized _ List.mem_cons_self
    · obtain ⟨n', hn', rfl⟩ := List.mem_map.1 hn
      exact (h.sized n' (List.mem_cons_of_mem _ hn')).backBlock _
  · refine pairwise_range ?_ h.apart
    show Memory.range p.memory :: _ = Memory.range p.memory :: _
    rw [List.map_map]
    congr 1
    exact List.map_congr_left fun n _ => Memory.backBlock_range n _
  · cases hc' with
    | pooled j slot => exact .pooled j slot
    | carved n u mem used stack index =>
      have hn : n ∈ p.regions := List.mem_cons_of_mem _ mem
      have hu := (h.sized n hn).lt used
      by_cases hhas : n.hasBlock c.stackPtr = true
      · -- only the region of the stack has it, and there another block is cleared
        have h1 := (Memory.hasBlock_iff (h.sized n hn)).1 hhas
        have h2 := (h.sized m hm').block_mem ht
        have hnm : n = m := by
          by_contra hnm
          have hap := h.apart.forall hn hm' hnm
          have hpos := z.stack_pos
          unfold Apart at hap
          rw [hstack] at h1
          omega
        subst hnm
        have htu : t ≠ u := by
          rintro rfl
          exact hne (stack.trans hstack.symm)
        refine .carved { n with blocks := n.blocks.set t false } u (List.mem_map.2 ⟨n, mem, ?_⟩) ?_ stack index
        · rw [hstack, (h.sized n hn).backBlock_block ht]
        · rw [List.getElem?_set_ne htu]
          exact used
      · exact .carved n u (List.mem_map.2 ⟨n, mem, Memory.backBlock_of_not_hasBlock hhas⟩) used stack index

theorem takesBack_return (h : p.Ok z) {c : Coroutine} (hc : p.HandedOut c) :
    TakesBack z p c (p.returnCoroutine z c) := by
  unfold returnCoroutine
  cases hc with
  | pooled i slot =>
    have hi := (h.table i c true slot).1
    have hlt := h.lt slot
    rw [if_pos (by omega), hi, Int.toNat_natCast]
    exact takesBack_pooled h slot
  | carved m t mem used stack index =>
    rw [if_neg (by omega)]
    exact takesBack_carved h mem used stack

/-- Returning a coroutine frees its slot, if it has one, and no other. -/
theorem returnCoroutine_slot (h : p.Ok z) {c : Coroutine} (hc : p.HandedOut c) {i : Nat} {d : Coroutine} {busy : Bool}
    (hi : (p.returnCoroutine z c).freeCors[i]? = some (d, busy)) :
    p.freeCors[i]? = some (d, busy) ∧ d ≠ c ∨ p.freeCors[i]? = some (c, true) ∧ d = c ∧ busy = false := by
  unfold returnCoroutine at hi
  cases hc with
  | pooled j slot =>
    have hj := (h.table j c true slot).1
    have hlt := h.lt slot
    rw [if_pos (by omega), hj, Int.toNat_natCast] at hi
    change (p.freeCors.modify j _)[i]? = _ at hi
    rw [List.getElem?_modify] at hi
    obtain ⟨⟨e, b⟩, he, hi⟩ := Option.map_eq_some_iff.1 hi
    by_cases hji : j = i
    · subst hji
      rw [slot] at he
      cases he
      rw [if_pos rfl] at hi
      cases hi
      exact .inr ⟨slot, rfl, rfl⟩
    · rw [if_neg hji] at hi
      cases hi
      refine .inl ⟨he, ?_⟩
      rintro rfl
      have := (h.table i d busy he).1
      omega
  | carved m t mem used stack index =>
    rw [if_neg (by omega)] at hi
    refine .inl ⟨hi, ?_⟩
    rintro rfl
    have := (h.table i d busy hi).1
    omega

/-- A coroutine of the table that is returned has a free slot. -/
theorem returnCoroutine_self (h : p.Ok z) {c : Coroutine} {i : Nat} (hi : p.freeCors[i]? = some (c, true)) :
    (p.returnCoroutine z c).freeCors[i]? = some (c, false) := by
  have hidx := (h.table i c true hi).1
  have hlt := h.lt hi
  unfold returnCoroutine
  rw [if_pos (by omega), hidx, Int.toNat_natCast]
  show (p.freeCors.modify i _)[i]? = _
  rw [List.getElem?_modify, hi]
  simp

theorem returnCoroutine_overflow {c : Coroutine} :
    (p.returnCoroutine z c).overflow ≠ [] ↔ p.overflow ≠ [] := by
  unfold returnCoroutine
  split
  · rfl
  · simp

/-- A coroutine of the table sits in its own slot. -/
theorem HandedOut.slot (h : p.Ok z) {c : Coroutine} (hc : p.HandedOut c) (h0 : c.index ≠ -1) :
    0 ≤ c.index ∧ c.index < z.poolSize ∧ p.freeCors[c.index.toNat]? = some (c, true) := by
  cases hc with
  | pooled i slot =>
    have hi := (h.table i c true slot).1
    have hlt := h.lt slot
    refine ⟨by omega, by omega, ?_⟩
    rw [hi, Int.toNat_natCast]
    exact slot
  | carved m t mem used stack index => exact absurd index h0

end CoroutinePool

/-! ## Runs of the pool -/

/-- The pool, and the coroutines handed out and not yet returned. -/
structure PoolRun where
  pool : CoroutinePool
  out : List Coroutine
  deriving DecidableEq

inductive PoolAct
  /-- `getCoroutineInstanse`, with the coroutines of the table that are in their function just now and
  what `malloc` returns if it is called. -/
  | get (inCoFunc : Nat → Bool) (start : Nat)
  | back (cor : Coroutine)

def poolGet (z : PoolSizes) (s : PoolRun) (inCoFunc : Nat → Bool) (start : Nat) : Option PoolRun :=
  if ∀ m ∈ s.pool.regions, Apart m.range (Memory.new z.stackSize z.poolSize start).range then
    (s.pool.getCoroutineInstanse z inCoFunc start).map fun r => ⟨r.2, r.1 :: s.out⟩
  else none

/-- Only what is handed out is returned. -/
def poolBack (z : PoolSizes) (s : PoolRun) (cor : Coroutine) : Option PoolRun :=
  if cor ∈ s.out then some ⟨s.pool.returnCoroutine z cor, s.out.erase cor⟩ else none

def poolStep (z : PoolSizes) (s : PoolRun) : PoolAct → Option PoolRun
  | .get inCoFunc start => poolGet z s inCoFunc start
  | .back cor => poolBack z s cor

/-- The addresses of a coroutine's stack. -/
def Coroutine.stackRange (z : PoolSizes) (c : Coroutine) : Nat × Nat := (c.stackPtr, c.stackPtr + z.stackSize)

/-- The coroutines handed out are distinct, their stacks have no address in common, and each stack is
inside a region, on a block that is marked as used. -/
structure Separate (z : PoolSizes) (s : PoolRun) : Prop where
  distinct : s.out.Nodup
  disjoint : s.out.Pairwise fun c d => Apart (c.stackRange z) (d.stackRange z)
  inside : ∀ c ∈ s.out, ∃ m ∈ s.pool.regions, ∃ t, m.blocks[t]? = some true ∧ c.stackPtr = m.block t ∧
    m.range.1 ≤ (c.stackRange z).1 ∧ (c.stackRange z).2 ≤ m.range.2

/-- What every run of the pool keeps. -/
structure PoolInv (z : PoolSizes) (s : PoolRun) : Prop where
  ok : s.pool.Ok z
  handed : ∀ c ∈ s.out, s.pool.HandedOut c
  stackPtrs : (s.out.map (·.stackPtr)).Nodup

theorem PoolInv.get {z : PoolSizes} {p p' : CoroutinePool} {out : List Coroutine} (hs : PoolInv z ⟨p, out⟩)
    {inCoFunc : Nat → Bool} {start : Nat}
    (hap : ∀ m ∈ p.regions, Apart m.range (Memory.new z.stackSize z.poolSize start).range) {c : Coroutine}
    (hget : p.getCoroutineInstanse z inCoFunc start = some (c, p')) : PoolInv z ⟨p', c :: out⟩ := by
  have hh := CoroutinePool.hands_get hs.ok hap hget
  refine ⟨hh.ok, fun c' hc' => ?_, ?_⟩
  · rcases List.mem_cons.1 hc' with rfl | hc'
    · exact hh.self
    · exact hh.others c' (hs.handed c' hc')
  · refine List.nodup_cons.2 ⟨fun hmem => ?_, hs.stackPtrs⟩
    obtain ⟨c', hc', heq⟩ := List.mem_map.1 hmem
    exact hh.fresh c' (hs.handed c' hc') heq

/-- A coroutine is returned, and the others are kept, some or all of them. -/
theorem PoolInv.back {z : PoolSizes} {p : CoroutinePool} {out out' : List Coroutine} (hs : PoolInv z ⟨p, out⟩)
    {c : Coroutine} (hc : c ∈ out) (hsub : out'.Sublist out) (hnot : c ∉ out') :
    PoolInv z ⟨p.returnCoroutine z c, out'⟩ := by
  have hb := CoroutinePool.takesBack_return hs.ok (hs.handed c hc)
  refine ⟨hb.ok, fun c' hc' => ?_, hs.stackPtrs.sublist (hsub.map _)⟩
  refine hb.others c' (hs.handed c' (hsub.subset hc')) fun heq => hnot ?_
  have hcc : c' = c := List.inj_on_of_nodup_map hs.stackPtrs (hsub.subset hc') hc heq
  exact hcc ▸ hc'

/-- With every slot busy there are as many coroutines handed out as slots. -/
theorem CoroutinePool.Ok.le_length {z : PoolSizes} {p : CoroutinePool} (h : p.Ok z) {out : List Coroutine}
    (hbusy : ∀ i < z.poolSize, ∃ c ∈ out, p.freeCors[i]? = some (c, true)) : z.poolSize ≤ out.length := by
  have hsub : List.range z.poolSize ⊆ out.map fun c => c.index.toNat := by
    intro i hi
    obtain ⟨c, hc, hslot⟩ := hbusy i (List.mem_range.1 hi)
    have hidx := (h.table i c true hslot).1
    exact List.mem_map.2 ⟨c, hc, by rw [hidx, Int.toNat_natCast]⟩
  simpa using (List.Nodup.subperm List.nodup_range hsub).length_le

/-- Without a further region there are at most as many coroutines handed out as slots. -/
theorem PoolInv.length_le {z : PoolSizes} {p : CoroutinePool} {out : List Coroutine} (hs : PoolInv z ⟨p, out⟩)
    (hnil : p.overflow = []) : out.length ≤ z.poolSize := by
  have hslot : ∀ c ∈ out, c.index.toNat < z.poolSize ∧ p.freeCors[c.index.toNat]? = some (c, true) := by
    intro c hc
    cases hs.handed c hc with
    | pooled i slot =>
      have hidx := (hs.ok.table i c true slot).1
      have hlt := hs.ok.lt slot
      rw [hidx, Int.toNat_natCast]
      exact ⟨hlt, slot⟩
    | carved m t mem used stack index =>
      change m ∈ p.overflow at mem
      rw [hnil] at mem
      cases mem
  have hnodup : (out.map fun c => c.index.toNat).Nodup := by
    refine List.Nodup.map_on (fun c hc d hd heq => ?_) (List.Nodup.of_map _ hs.stackPtrs)
    have h1 := (hslot c hc).2
    rw [heq, (hslot d hd).2] at h1
    cases h1
    rfl
  have hsub : (out.map fun c => c.index.toNat) ⊆ List.range z.poolSize := by
    intro i hi
    obtain ⟨c, hc, rfl⟩ := List.mem_map.1 hi
    exact List.mem_range.2 (hslot c hc).1
  simpa using (List.Nodup.subperm hnodup hsub).length_le

theorem poolInv_step {z : PoolSizes} {s s' : PoolRun} {a : PoolAct} (hs : PoolInv z s)
    (h : poolStep z s a = some s') : PoolInv z s' := by
  cases a with
  | get inCoFunc start =>
    change poolGet z s inCoFunc start = some s' at h
    unfold poolGet at h
    split at h
    · rename_i hap
      obtain ⟨⟨c, p'⟩, hget, h⟩ := Option.map_eq_some_iff.1 h
      cases h
      exact hs.get hap hget
    · cases h
  | back cor =>
    change poolBack z s cor = some s' at h
    unfold poolBack at h
    split at h
    · rename_i hmem
      cases h
      have hnodup : s.out.Nodup := List.Nodup.of_map _ hs.stackPtrs
      exact hs.back hmem List.erase_sublist fun hc => ((List.Nodup.mem_erase_iff hnodup).1 hc).1 rfl
    · cases h

theorem PoolInv.separate {z : PoolSizes} {s : PoolRun} (hs : PoolInv z s) : Separate z s := by
  have hsized := hs.ok.sized
  refine ⟨List.Nodup.of_map _ hs.stackPtrs, ?_, fun c hc => ?_⟩
  · refine List.Pairwise.imp_of_mem ?_ (List.pairwise_map.1 hs.stackPtrs)
    intro c d hc hd hne
    obtain ⟨m, t, hm, hused, hstack⟩ := (hs.handed c hc).place hs.ok
    obtain ⟨m', t', hm', hused', hstack'⟩ := (hs.handed d hd).place hs.ok
    unfold Coroutine.stackRange
    rw [hstack, hstack'] at hne ⊢
    by_cases hmm : m = m'
    · subst hmm
      exact (hsized m hm).block_apart fun htt => hne (by rw [htt])
    · have h1 := (hsized m hm).block_mem ((hsized m hm).lt hused)
      have h2 := (hsized m' hm').block_mem ((hsized m' hm').lt hused')
      have h3 := hs.ok.apart.forall hm hm' hmm
      unfold Apart at h3 ⊢
      dsimp only
      omega
  · obtain ⟨m, t, hm, hused, hstack⟩ := (hs.handed c hc).place hs.ok
    obtain ⟨h1, h2⟩ := (hsized m hm).block_mem ((hsized m hm).lt hused)
    unfold Coroutine.stackRange
    exact ⟨m, hm, t, hused, hstack, hstack ▸ h1, hstack ▸ h2⟩

/-- No two coroutines handed out share a stack. -/
theorem pool_separate {z : PoolSizes} {start : Nat} {s : PoolRun}
    (hr : Lts.Reachable (poolStep z) ⟨.new z start, []⟩ s) : Separate z s :=
  (hr.invariant (I := PoolInv z) ⟨CoroutinePool.ok_new z start, nofun, .nil⟩
    fun _ _ _ hs h => poolInv_step hs h).separate

/-- One coroutine in the table. -/
def onePooled : PoolSizes := ⟨1, 16, by decide, by decide, by decide⟩

/-- Two overflow coroutines beside the pooled one; the first of them is returned and made again. -/
theorem pool_separate_overflow : ∃ s, Lts.run (poolStep onePooled) ⟨.new onePooled 1000, []⟩
      [.get (fun _ => false) 2000, .get (fun _ => false) 2000, .get (fun _ => false) 3000, .back ⟨-1, 2000⟩,
        .get (fun _ => false) 4000] = some s ∧
    s.out = [⟨-1, 2000⟩, ⟨-1, 3000⟩, ⟨0, 1000⟩] ∧ Separate onePooled s := by
  obtain ⟨s, hs, hout⟩ : ∃ s, Lts.run (poolStep onePooled) ⟨.new onePooled 1000, []⟩
      [.get (fun _ => false) 2000, .get (fun _ => false) 2000, .get (fun _ => false) 3000, .back ⟨-1, 2000⟩,
        .get (fun _ => false) 4000] = some s ∧ s.out = [⟨-1, 2000⟩, ⟨-1, 3000⟩, ⟨0, 1000⟩] := by
    exact ⟨_, rfl, rfl⟩
  exact ⟨s, hs, hout, pool_separate ⟨_, hs⟩⟩

end Flconc
