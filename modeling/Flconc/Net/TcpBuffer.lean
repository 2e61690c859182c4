/-
The connection buffer of net/tcp/tcp_buffer.cc: a vector with a read and a write index, which
grows when a write does not fit and is compacted when the read index has passed a third of it.

Over it stands the byte queue it implements: the bytes between the two indices. Writing appends
to them, reading drops from their front, and growing and compacting leave them as they are.
-/
import Flconc.Lib.Wire
import Mathlib.Tactic.Linarith

namespace Flconc

open Wire

/-- `m_buffer`, `m_read_index` and `m_write_index`. -/
structure TcpBuffer where
  buffer : Bytes
  readIndex : Int
  writeIndex : Int
  deriving DecidableEq, Repr

namespace TcpBuffer

/-! ## The operations -/

/-- `TcpBuffer(int size)`. -/
def ofSize (size : Nat) : TcpBuffer := ⟨List.replicate size 0, 0, 0⟩

def getSize (b : TcpBuffer) : Int := b.buffer.length

def readAble (b : TcpBuffer) : Int := b.writeIndex - b.readIndex

def writeAble (b : TcpBuffer) : Int := b.getSize - b.writeIndex

/-- A zeroed vector of the given size whose front is overwritten. -/
def zeroFilled (live : Bytes) (size : Nat) : Bytes := live ++ List.replicate (size - live.length) 0

/-- `resizeBuffer`: a size outside `int` is a length the vector refuses. -/
def resizeBuffer (b : TcpBuffer) (size : Int) : Except Fault TcpBuffer :=
  if 0 ≤ size ∧ size < 2 ^ 31 then do
    let live ← bytesAt b.buffer b.readIndex (min size b.readAble)
    return ⟨zeroFilled live size.toNat, 0, min size b.readAble⟩
  else .error .thrown

/-- `memcpy` into the buffer, within its bounds. -/
def overwrite (t : Bytes) (i : Int) (bs : Bytes) : Except Fault Bytes :=
  if 0 ≤ i ∧ i + bs.length ≤ t.length then
    .ok (t.take i.toNat ++ (bs ++ t.drop (i.toNat + bs.length)))
  else .error .memory

def writeToBuffer (b : TcpBuffer) (buf : Bytes) : Except Fault TcpBuffer := do
  let b ← if buf.length > b.writeAble then b.resizeBuffer (3 * (b.writeIndex + buf.length) / 2)
    else pure b
  let t ← overwrite b.buffer b.writeIndex buf
  return { b with buffer := t, writeIndex := b.writeIndex + buf.length }

def adjustBuffer (b : TcpBuffer) : Except Fault TcpBuffer :=
  if b.readIndex > (b.buffer.length / 3 : Nat) then do
    let live ← bytesAt b.buffer b.readIndex b.readAble
    return ⟨zeroFilled live b.buffer.length, 0, b.readAble⟩
  else .ok b

/-- `recycleRead`: an index past the buffer is logged and ignored, any other is taken. -/
def recycleRead (b : TcpBuffer) (index : Int) : Except Fault TcpBuffer :=
  let j := wrap32 (b.readIndex + index)
  if j > b.getSize then .ok b else adjustBuffer { b with readIndex := j }

def recycleWrite (b : TcpBuffer) (index : Int) : Except Fault TcpBuffer :=
  let j := wrap32 (b.writeIndex + index)
  if j > b.getSize then .ok b else adjustBuffer { b with writeIndex := j }

/-- `readFromBuffer`: at most `size` bytes, with the buffer after them. -/
def readFromBuffer (b : TcpBuffer) (size : Int) : Except Fault (Option Bytes × TcpBuffer) :=
  if b.readAble = 0 then .ok (none, b)
  else do
    let readSize := if b.readAble > size then size else b.readAble
    let re ← bytesAt b.buffer b.readIndex readSize
    let b ← adjustBuffer { b with readIndex := b.readIndex + readSize }
    return (some re, b)

def clearBuffer (_ : TcpBuffer) : TcpBuffer := ⟨[], 0, 0⟩

def getBufferString (b : TcpBuffer) : Except Fault Bytes := bytesAt b.buffer b.readIndex b.readAble

/-! ## The byte queue -/

/-- The indices are in order and inside the buffer, whose size is an `int`. -/
structure WF (b : TcpBuffer) : Prop where
  read : 0 ≤ b.readIndex
  order : b.readIndex ≤ b.writeIndex
  write : b.writeIndex ≤ b.buffer.length
  size : b.buffer.length < 2 ^ 31

/-- The bytes written and not yet read. -/
def readable (b : TcpBuffer) : Bytes :=
  (b.buffer.drop b.readIndex.toNat).take b.readAble.toNat

theorem length_readable {b : TcpBuffer} (h : b.WF) : (b.readable.length : Int) = b.readAble := by
  obtain ⟨h1, h2, h3, -⟩ := h
  simp only [readable, readAble, List.length_take, List.length_drop]
  omega

theorem WF.length_lt {b : TcpBuffer} (h : b.WF) : b.readable.length < 2 ^ 31 := by
  have hs := h.size
  simp only [readable, List.length_take, List.length_drop]
  omega

theorem bytesAt_readable {b : TcpBuffer} (h : b.WF) :
    bytesAt b.buffer b.readIndex b.readAble = .ok b.readable := by
  obtain ⟨h1, h2, h3, -⟩ := h
  exact bytesAt_eq_ok.2 ⟨⟨h1, by unfold readAble; omega, by unfold readAble; omega⟩, rfl⟩

theorem getBufferString_eq {b : TcpBuffer} (h : b.WF) : b.getBufferString = .ok b.readable :=
  bytesAt_readable h

/-- A well-formed buffer is what was read, what is queued and what is free, in this order. -/
theorem WF.split {b : TcpBuffer} (h : b.WF) : ∃ pre post : Bytes,
    b.buffer = pre ++ (b.readable ++ post) ∧ b.readIndex = pre.length ∧
      b.writeIndex = pre.length + b.readable.length := by
  have hl := length_readable h
  obtain ⟨h1, h2, h3, -⟩ := h
  refine ⟨b.buffer.take b.readIndex.toNat, b.buffer.drop b.writeIndex.toNat, ?_, ?_, ?_⟩
  · have hd : b.buffer.drop b.writeIndex.toNat =
        (b.buffer.drop b.readIndex.toNat).drop b.readAble.toNat := by
      rw [List.drop_drop]
      congr 1
      unfold readAble
      omega
    rw [hd, readable, List.take_append_drop, List.take_append_drop]
  · simp only [List.length_take]
    omega
  · rw [hl]
    simp only [List.length_take, readAble]
    omega

/-- The front of the queue stands at the read index. -/
theorem WF.has {b : TcpBuffer} (h : b.WF) {front rest : Bytes} (hq : b.readable = front ++ rest) :
    Has b.buffer b.readIndex front := by
  obtain ⟨pre, post, hbuf, hr, -⟩ := h.split
  exact ⟨pre, rest ++ post, by rw [hbuf, hq, List.append_assoc], hr⟩

/-- The queue of a buffer given as three pieces. -/
theorem readable_eq {b : TcpBuffer} {p live q : Bytes} (hb : b.buffer = p ++ (live ++ q))
    (hr : b.readIndex = p.length) (hw : b.writeIndex = p.length + live.length) :
    b.readable = live := by
  have h1 : b.readIndex.toNat = p.length := by omega
  have h2 : b.readAble.toNat = live.length := by unfold readAble; omega
  rw [readable, h1, h2, hb, List.drop_left, List.take_left]

theorem ofSize_wf {n : Nat} (h : n < 2 ^ 31) : (ofSize n).WF :=
  ⟨by simp [ofSize], by simp [ofSize], by simp [ofSize], by simpa [ofSize] using h⟩

/-- What an operation that moves bytes leaves: a well-formed buffer whose queue is `live`. -/
structure Holds (b : TcpBuffer) (live : Bytes) : Prop where
  wf : b.WF
  queue : b.readable = live

theorem Holds.readAble {b : TcpBuffer} {live : Bytes} (h : b.Holds live) :
    b.readAble = live.length := by
  rw [← length_readable h.wf, h.queue]

theorem zeroFilled_holds {live : Bytes} {n : Nat} (hl : live.length ≤ n) (hn : n < 2 ^ 31) :
    Holds ⟨zeroFilled live n, 0, live.length⟩ live := by
  refine ⟨⟨by simp, by simp, ?_, ?_⟩, ?_⟩
  · simp only [zeroFilled, List.length_append, List.length_replicate]
    omega
  · simp only [zeroFilled, List.length_append, List.length_replicate]
    omega
  · have hw : ((live.length : Nat) : Int) = ([] : Bytes).length + live.length := by simp
    exact readable_eq (b := ⟨zeroFilled live n, 0, live.length⟩) (p := [])
      (q := List.replicate (n - live.length) 0) rfl rfl hw

/-- Growing keeps the queue. -/
theorem resizeBuffer_spec {b : TcpBuffer} (h : b.WF) {n : Int} (hn : b.readAble ≤ n)
    (hn' : n < 2 ^ 31) : ∃ b', b.resizeBuffer n = .ok b' ∧ b'.Holds b.readable ∧
      b'.readIndex = 0 ∧ b'.buffer.length = n := by
  have hl := length_readable h
  have hr : b.readAble = min n b.readAble := by omega
  have h0 : 0 ≤ n := by omega
  refine ⟨⟨zeroFilled b.readable n.toNat, 0, b.readable.length⟩, ?_,
    zeroFilled_holds (by omega) (by omega), rfl, ?_⟩
  · unfold resizeBuffer
    rw [if_pos ⟨h0, hn'⟩, ← hr, bytesAt_readable h, hl]
    rfl
  · simp only [zeroFilled, List.length_append, List.length_replicate]
    omega

/-- Compacting keeps the queue and the size. -/
theorem adjustBuffer_spec {b : TcpBuffer} (h : b.WF) : ∃ b', b.adjustBuffer = .ok b' ∧
    b'.Holds b.readable ∧ b'.buffer.length = b.buffer.length ∧ b'.writeIndex ≤ b.writeIndex := by
  have hl := length_readable h
  unfold adjustBuffer
  split
  · rw [bytesAt_readable h, ← hl]
    refine ⟨_, rfl, zeroFilled_holds ?_ h.size, ?_, ?_⟩
    · have := h.read; have := h.write; unfold readAble at hl; omega
    · have := h.read; have := h.write; unfold readAble at hl
      simp only [zeroFilled, List.length_append, List.length_replicate]
      omega
    · have := h.read; unfold readAble at hl
      show ((b.readable.length : Nat) : Int) ≤ b.writeIndex
      omega
  · exact ⟨b, rfl, ⟨h, rfl⟩, rfl, le_rfl⟩

/-- The read index has not passed a third of the vector; every operation leaves it so. -/
def Compact (b : TcpBuffer) : Prop := b.readIndex ≤ (b.buffer.length / 3 : Nat)

instance (b : TcpBuffer) : Decidable b.Compact := inferInstanceAs (Decidable (_ ≤ _))

theorem adjustBuffer_compact {b b' : TcpBuffer} (h : b.adjustBuffer = .ok b') : b'.Compact := by
  unfold adjustBuffer at h
  split at h
  · obtain ⟨live, -, h⟩ := bind_eq_ok.1 h
    cases h
    exact Int.natCast_nonneg _
  · rename_i hthird
    cases h
    exact not_lt.1 hthird

theorem Compact.adjustBuffer {b : TcpBuffer} (h : b.Compact) : b.adjustBuffer = .ok b := by
  unfold TcpBuffer.adjustBuffer
  rw [if_neg (not_lt.2 h)]

theorem recycleRead_compact {b b' : TcpBuffer} (hc : b.Compact) {n : Int}
    (h : b.recycleRead n = .ok b') : b'.Compact := by
  unfold recycleRead at h
  dsimp only at h
  split at h
  · cases h
    exact hc
  · exact adjustBuffer_compact h

theorem recycleWrite_compact {b b' : TcpBuffer} (hc : b.Compact) {n : Int}
    (h : b.recycleWrite n = .ok b') : b'.Compact := by
  unfold recycleWrite at h
  dsimp only at h
  split at h
  · cases h
    exact hc
  · exact adjustBuffer_compact h

/-- Compacting does not change how much is readable, whatever the indices. -/
theorem adjustBuffer_readAble {b b' : TcpBuffer} (h : b.adjustBuffer = .ok b') :
    b'.readAble = b.readAble := by
  unfold adjustBuffer at h
  split at h
  · obtain ⟨live, -, h⟩ := bind_eq_ok.1 h
    cases h
    show b.readAble - 0 = _
    omega
  · cases h
    rfl

/-- An index up to the end of the vector is taken. -/
theorem recycleRead_move {b : TcpBuffer} (hs : b.buffer.length < 2 ^ 31) {n : Int}
    (h0 : -2 ^ 31 ≤ b.readIndex + n) (hn : b.readIndex + n ≤ b.getSize) :
    b.recycleRead n = adjustBuffer { b with readIndex := b.readIndex + n } := by
  have hint : InInt32 (b.readIndex + n) := ⟨h0, by unfold getSize at hn; omega⟩
  unfold recycleRead
  dsimp only
  rw [wrap32_of_inInt32 hint, if_neg (not_lt.2 hn)]

/-- Moving the read index by `n` makes `n` bytes fewer readable. -/
theorem readAble_recycleRead {b b' : TcpBuffer} (hs : b.buffer.length < 2 ^ 31) {n : Int}
    (h0 : -2 ^ 31 ≤ b.readIndex + n) (hn : b.readIndex + n ≤ b.getSize) (h : b.recycleRead n = .ok b') :
    b'.readAble = b.readAble - n := by
  rw [recycleRead_move hs h0 hn] at h
  rw [adjustBuffer_readAble h]
  show b.writeIndex - (b.readIndex + n) = b.writeIndex - b.readIndex - n
  omega

theorem recycleWrite_move {b : TcpBuffer} (hs : b.buffer.length < 2 ^ 31) {n : Int}
    (h0 : -2 ^ 31 ≤ b.writeIndex + n) (hn : b.writeIndex + n ≤ b.getSize) :
    b.recycleWrite n = adjustBuffer { b with writeIndex := b.writeIndex + n } := by
  have hint : InInt32 (b.writeIndex + n) := ⟨h0, by unfold getSize at hn; omega⟩
  unfold recycleWrite
  dsimp only
  rw [wrap32_of_inInt32 hint, if_neg (not_lt.2 hn)]

/-- Dropping `n` queued bytes. -/
theorem recycleRead_spec {b : TcpBuffer} (h : b.WF) {n : Int} (h0 : 0 ≤ n) (hn : n ≤ b.readAble) :
    ∃ b', b.recycleRead n = .ok b' ∧ b'.Holds (b.readable.drop n.toNat) ∧
      b'.buffer.length = b.buffer.length ∧ b'.writeIndex ≤ b.writeIndex := by
  obtain ⟨pre, post, hb, hr, hw⟩ := h.split
  have hl := length_readable h
  obtain ⟨h1, h2, h3, h4⟩ := h
  have hle : b.readIndex + n ≤ b.writeIndex := by unfold readAble at hn; omega
  have hnl : n.toNat ≤ b.readable.length := by omega
  -- the buffer with the read index moved on
  have hwf : WF { b with readIndex := b.readIndex + n } := ⟨by show 0 ≤ b.readIndex + n; omega, hle, h3, h4⟩
  have hq : readable { b with readIndex := b.readIndex + n } = b.readable.drop n.toNat := by
    refine readable_eq (p := pre ++ b.readable.take n.toNat) (q := post) ?_ ?_ ?_
    · show b.buffer = _
      rw [List.append_assoc, ← List.append_assoc (b.readable.take _), List.take_append_drop, hb]
    · show b.readIndex + n = _
      simp only [List.length_append, List.length_take]
      omega
    · show b.writeIndex = _
      simp only [List.length_append, List.length_take, List.length_drop]
      omega
  rw [recycleRead_move h4 (by omega) (by unfold getSize; omega), ← hq]
  exact adjustBuffer_spec hwf

/-- Moving the read index backwards, even out of the vector, raises nothing at once. -/
theorem recycleRead_back {b : TcpBuffer} (h : b.WF) {n : Int} (h0 : -2 ^ 31 ≤ n) (hn : n ≤ 0) :
    ∃ b', b.recycleRead n = .ok b' := by
  obtain ⟨h1, h2, h3, h4⟩ := h
  rw [recycleRead_move h4 (by omega) (by unfold getSize; omega)]
  unfold adjustBuffer
  split
  · rename_i hthird
    have hthird : b.readIndex + n > (b.buffer.length / 3 : Nat) := hthird
    obtain ⟨live, hl⟩ := bytesAt_isOk (t := b.buffer) (i := b.readIndex + n)
      (n := b.writeIndex - (b.readIndex + n)) (by omega) (by omega) (by omega)
    refine ⟨_, bind_eq_ok.2 ⟨live, hl, rfl⟩⟩
  · exact ⟨_, rfl⟩

/-- Bytes put behind the write index join the queue when it moves over them. -/
theorem overwrite_spec {b : TcpBuffer} (h : b.WF) {bs : Bytes} (hbs : bs.length ≤ b.writeAble) :
    ∃ t, overwrite b.buffer b.writeIndex bs = .ok t ∧ t.length = b.buffer.length ∧
      Holds ⟨t, b.readIndex, b.writeIndex + bs.length⟩ (b.readable ++ bs) := by
  obtain ⟨pre, post, hb, hr, hw⟩ := h.split
  obtain ⟨h1, h2, h3, h4⟩ := h
  have hin : b.writeIndex + bs.length ≤ b.buffer.length := by unfold writeAble getSize at hbs; omega
  have hwn : b.writeIndex.toNat = (pre ++ b.readable).length := by
    simp only [List.length_append]
    omega
  have htake : b.buffer.take b.writeIndex.toNat = pre ++ b.readable := by
    rw [hwn, hb, ← List.append_assoc, List.take_left]
  have hlen : (b.buffer.take b.writeIndex.toNat ++
      (bs ++ b.buffer.drop (b.writeIndex.toNat + bs.length))).length = b.buffer.length := by
    simp only [List.length_append, List.length_take, List.length_drop]
    omega
  unfold overwrite
  rw [if_pos ⟨by omega, hin⟩]
  generalize b.buffer.drop (b.writeIndex.toNat + bs.length) = rest at hlen
  rw [htake] at hlen ⊢
  refine ⟨_, rfl, hlen, ⟨h1, ?_, ?_, ?_⟩, ?_⟩
  · show b.readIndex ≤ b.writeIndex + bs.length
    omega
  · rw [hlen]; exact hin
  · rw [hlen]; exact h4
  · refine readable_eq (p := pre) (q := rest) ?_ hr ?_
    · simp only [List.append_assoc]
    · show b.writeIndex + bs.length = _
      simp only [List.length_append]
      omega

/-- `n` bytes can be written: they fit behind the write index, or the size the buffer grows to is
an `int`. -/
def Room (b : TcpBuffer) (n : Nat) : Prop := n ≤ b.writeAble ∨ 3 * (b.writeIndex + n) / 2 < 2 ^ 31

instance (b : TcpBuffer) (n : Nat) : Decidable (b.Room n) := inferInstanceAs (Decidable (_ ∨ _))

theorem Room.lt {b : TcpBuffer} (h : b.WF) {n : Nat} (hn : b.Room n) : n < 2 ^ 31 := by
  obtain ⟨h1, h2, h3, h4⟩ := h
  unfold Room writeAble getSize at hn
  omega

/-- Writing what there is room for appends it to the queue. -/
theorem writeToBuffer_room {b : TcpBuffer} (h : b.WF) {buf : Bytes} (hroom : b.Room buf.length) :
    ∃ b', b.writeToBuffer buf = .ok b' ∧ b'.Holds (b.readable ++ buf) ∧
      b'.writeIndex ≤ b.writeIndex + buf.length := by
  have hr0 := h.read
  have ho := h.order
  unfold writeToBuffer
  split
  · rename_i hbig
    have hsize := hroom.resolve_left (by omega)
    have hn : b.readAble ≤ 3 * (b.writeIndex + buf.length) / 2 := by unfold readAble; omega
    obtain ⟨b₁, hb₁, hh, hr, hs⟩ := resizeBuffer_spec h hn hsize
    have hw₁ : b₁.writeIndex = b.readAble := by
      have := hh.readAble
      rw [length_readable h] at this
      unfold readAble at this ⊢
      omega
    have hfit : buf.length ≤ b₁.writeAble := by
      unfold writeAble getSize
      rw [hw₁, hs]
      unfold readAble
      omega
    obtain ⟨t, ht, -, hh'⟩ := overwrite_spec hh.wf hfit
    rw [hb₁]
    refine ⟨⟨t, b₁.readIndex, b₁.writeIndex + buf.length⟩, ?_, ?_, ?_⟩
    · show (overwrite b₁.buffer b₁.writeIndex buf).bind _ = _
      rw [ht]
      rfl
    · rw [← hh.queue]; exact hh'
    · show b₁.writeIndex + buf.length ≤ _
      rw [hw₁]
      unfold readAble
      omega
  · rename_i hfit
    have hfit' : buf.length ≤ b.writeAble := by omega
    obtain ⟨t, ht, -, hh⟩ := overwrite_spec h hfit'
    refine ⟨⟨t, b.readIndex, b.writeIndex + buf.length⟩, ?_, hh, le_rfl⟩
    show (overwrite b.buffer b.writeIndex buf).bind _ = _
    rw [ht]
    rfl

/-- Without room, the vector refuses the size it would have to grow to. -/
theorem writeToBuffer_noRoom {b : TcpBuffer} {buf : Bytes} (hroom : ¬ b.Room buf.length) :
    b.writeToBuffer buf = .error .thrown := by
  obtain ⟨hbig, hsize⟩ := not_or.1 hroom
  unfold writeToBuffer
  rw [if_pos (by omega)]
  unfold resizeBuffer
  rw [if_neg (by omega)]
  rfl

/-- Writing appends to the queue, growing the buffer when it has to. -/
theorem writeToBuffer_spec {b : TcpBuffer} (h : b.WF) {buf : Bytes}
    (hsize : b.writeIndex + buf.length < 2 ^ 30) :
    ∃ b', b.writeToBuffer buf = .ok b' ∧ b'.Holds (b.readable ++ buf) ∧
      b'.writeIndex ≤ b.writeIndex + buf.length :=
  writeToBuffer_room h (.inr (by omega))

/-- The bytes a reader of the socket puts behind the write index, and the index moved over them. -/
theorem recycleWrite_spec {b : TcpBuffer} (h : b.WF) {bs : Bytes} (hbs : bs.length ≤ b.writeAble) :
    ∃ t b', overwrite b.buffer b.writeIndex bs = .ok t ∧
      recycleWrite { b with buffer := t } bs.length = .ok b' ∧
      b'.Holds (b.readable ++ bs) ∧ b'.buffer.length = b.buffer.length ∧
      b'.writeIndex ≤ b.writeIndex + bs.length := by
  obtain ⟨t, ht, hlen, hh⟩ := overwrite_spec h hbs
  obtain ⟨b', hb', hh', hs, hi⟩ := adjustBuffer_spec hh.wf
  refine ⟨t, b', ht, ?_, hh.queue ▸ hh', hs.trans hlen, hi⟩
  have hin : b.writeIndex + (bs.length : Int) ≤ t.length := hh.wf.write
  have hsize : t.length < 2 ^ 31 := hh.wf.size
  have hr := h.read
  have ho := h.order
  rw [recycleWrite_move (b := { b with buffer := t }) hsize (by dsimp only; omega) hin]
  exact hb'

end TcpBuffer

end Flconc
