/-
The connection buffer as a byte queue, over all its operations: writing, filling the vector behind
the write index and moving the index, reading, dropping, resizing and clearing. Whatever the order
of the operations, the buffer does what a list of bytes does that is appended to and taken from the
front; the indices stay in order and inside the vector, and no copy leaves a vector.
-/
import Flconc.Lib.Refine
import Flconc.Net.TcpBuffer

namespace Flconc.TcpBuffer

open Wire

/-! ## Operations -/

inductive Op
  | writeToBuffer (buf : Bytes)
  /-- The bytes are put at `writeIndex()`, as a read from the socket does, and `recycleWrite` is called. -/
  | fill (bs : Bytes)
  | readFromBuffer (size : Int)
  | recycleRead (index : Int)
  | resizeBuffer (size : Int)
  | clearBuffer
  deriving DecidableEq

/-- The buffer after the operation, and what it has put into `re`, if anything. -/
def exec (b : TcpBuffer) : Op → Except Fault (Option Bytes × TcpBuffer)
  | .writeToBuffer buf => do return (none, ← b.writeToBuffer buf)
  | .fill bs => do
    let t ← overwrite b.buffer b.writeIndex bs
    return (none, ← recycleWrite { b with buffer := t } bs.length)
  | .readFromBuffer size => b.readFromBuffer size
  | .recycleRead index => do return (none, ← b.recycleRead index)
  | .resizeBuffer size => do return (none, ← b.resizeBuffer size)
  | .clearBuffer => .ok (none, b.clearBuffer)

/-- What the operation does to the queue. -/
def onQueue (q : Bytes) : Op → Option Bytes × Bytes
  | .writeToBuffer buf => (none, q ++ buf)
  | .fill bs => (none, q ++ bs)
  | .readFromBuffer size => (if q = [] then none else some (q.take size.toNat), q.drop size.toNat)
  | .recycleRead index => (none, q.drop index.toNat)
  | .resizeBuffer _ => (none, q)
  | .clearBuffer => (none, [])

/-- What the callers keep to. -/
def Op.Pre (b : TcpBuffer) : Op → Prop
  | .writeToBuffer _ => True
  | .fill bs => bs.length ≤ b.writeAble
  | .readFromBuffer size => 0 ≤ size
  | .recycleRead index => 0 ≤ index ∧ index ≤ b.readAble
  | .resizeBuffer size => b.readAble ≤ size ∧ size < 2 ^ 31
  | .clearBuffer => True

/-- The size of a write, with what stands before it in the vector. -/
def Op.Sized (b : TcpBuffer) : Op → Prop
  | .writeToBuffer buf => b.writeIndex + buf.length < 2 ^ 30
  | _ => True

instance (b : TcpBuffer) (op : Op) : Decidable (op.Pre b) := by
  cases op <;> unfold Op.Pre <;> infer_instance

instance (b : TcpBuffer) (op : Op) : Decidable (op.Sized b) := by
  cases op <;> unfold Op.Sized <;> infer_instance

/-- How many bytes the operations put into the buffer. -/
def written : List Op → Nat
  | [] => 0
  | .writeToBuffer buf :: ops => buf.length + written ops
  | .fill bs :: ops => bs.length + written ops
  | _ :: ops => written ops

/-! ## Each operation -/

theorem clearBuffer_holds (b : TcpBuffer) : b.clearBuffer.Holds [] :=
  ⟨⟨le_rfl, le_rfl, le_rfl, by simp [clearBuffer]⟩, rfl⟩

/-- Reading takes the front of the queue, as far as it goes. -/
theorem readFromBuffer_spec {b : TcpBuffer} (h : b.WF) {n : Int} (hn : 0 ≤ n) :
    ∃ b', b.readFromBuffer n = .ok (if b.readable = [] then none else some (b.readable.take n.toNat), b') ∧
      b'.Holds (b.readable.drop n.toNat) ∧ b'.writeIndex ≤ b.writeIndex := by
  have hl := length_readable h
  have hnil : b.readable = [] ↔ b.readAble = 0 := by
    rw [← List.length_eq_zero_iff]
    omega
  unfold readFromBuffer
  by_cases h0 : b.readAble = 0
  · rw [if_pos h0, if_pos (hnil.2 h0)]
    refine ⟨b, rfl, ⟨h, ?_⟩, le_rfl⟩
    rw [hnil.2 h0, List.drop_nil]
  · rw [if_neg h0, if_neg (hnil.not.2 h0)]
    -- the smaller of the size asked for and what there is
    obtain ⟨k, hk, hkn⟩ : ∃ k, (if b.readAble > n then n else b.readAble) = k ∧ k = min n b.readAble :=
      ⟨_, rfl, by split <;> omega⟩
    rw [hk]
    have hk0 : 0 ≤ k := by omega
    have hkr : k ≤ b.readAble := by omega
    have htake : b.readable.take k.toNat = b.readable.take n.toNat := List.take_eq_take_iff.2 (by omega)
    have hdrop : b.readable.drop k.toNat = b.readable.drop n.toNat := List.drop_eq_drop_iff.2 (by omega)
    have hre : bytesAt b.buffer b.readIndex k = .ok (b.readable.take k.toNat) := by
      obtain ⟨h1, h2, h3, -⟩ := h
      refine bytesAt_eq_ok.2 ⟨⟨h1, hk0, by unfold readAble at hkr; omega⟩, ?_⟩
      rw [readable, List.take_take, min_eq_left (by omega)]
    obtain ⟨b', hb', hh, -, hw⟩ := recycleRead_spec h hk0 hkr
    have hr := h.read
    have hin : b.readIndex + k ≤ b.getSize := by
      have := h.write
      unfold getSize
      unfold readAble at hkr
      omega
    rw [recycleRead_move h.size (by omega) hin] at hb'
    dsimp only
    rw [hre, ok_bind, hb', ok_bind, htake]
    exact ⟨b', rfl, hdrop ▸ hh, hw⟩

/-- The step lemma: an operation its callers may make does to the buffer what it does to the queue. -/
theorem exec_spec {b : TcpBuffer} {q : Bytes} {op : Op} (h : b.Holds q) (hpre : op.Pre b) (hsize : op.Sized b) :
    ∃ b', b.exec op = .ok ((onQueue q op).1, b') ∧ b'.Holds (onQueue q op).2 ∧
      b'.writeIndex ≤ b.writeIndex + written [op] := by
  obtain ⟨hw, rfl⟩ := h
  have h0 := hw.order
  have h1 := hw.read
  cases op with
  | writeToBuffer buf =>
    obtain ⟨b', hb', hh, hle⟩ := writeToBuffer_spec hw hsize
    refine ⟨b', ?_, hh, hle⟩
    unfold exec
    dsimp only
    rw [hb']
    rfl
  | fill bs =>
    obtain ⟨t, b', ht, hb', hh, -, hle⟩ := recycleWrite_spec hw hpre
    refine ⟨b', ?_, hh, hle⟩
    unfold exec
    dsimp only
    rw [ht, ok_bind, hb']
    rfl
  | readFromBuffer size =>
    obtain ⟨b', hb', hh, hle⟩ := readFromBuffer_spec hw hpre
    exact ⟨b', hb', hh, by simp only [written]; omega⟩
  | recycleRead index =>
    obtain ⟨b', hb', hh, -, hle⟩ := recycleRead_spec hw hpre.1 hpre.2
    refine ⟨b', ?_, hh, by simp only [written]; omega⟩
    unfold exec
    dsimp only
    rw [hb']
    rfl
  | resizeBuffer size =>
    obtain ⟨b', hb', hh, hr, -⟩ := resizeBuffer_spec hw hpre.1 hpre.2
    refine ⟨b', ?_, hh, ?_⟩
    · unfold exec
      dsimp only
      rw [hb']
      rfl
    · have hra := hh.readAble
      rw [length_readable hw] at hra
      unfold readAble at hra
      simp only [written]
      omega
  | clearBuffer =>
    refine ⟨b.clearBuffer, rfl, b.clearBuffer_holds, ?_⟩
    show (0 : Int) ≤ _
    omega

/-! ## Every sequence of operations -/

/-- The write index is never further than the bytes written, so a total below the bound keeps
every single write below it. -/
theorem sized_of_written : ∀ {ops : List Op} {b : TcpBuffer}, b.WF → b.writeIndex + written ops < 2 ^ 30 →
    Refine.Allowed exec (fun b op => op.Pre b) b ops → Refine.Allowed exec (fun b op => op.Sized b) b ops
  | [], _, _, _, _ => trivial
  | op :: ops, b, hw, hsize, h => by
    have hsum : written (op :: ops) = written [op] + written ops := by
      cases op <;> simp [written]
    have hs : op.Sized b := by
      cases op with
      | writeToBuffer buf =>
        show b.writeIndex + buf.length < 2 ^ 30
        have : written [Op.writeToBuffer buf] = buf.length := rfl
        omega
      | _ => trivial
    obtain ⟨b', hb', hh, hle⟩ := exec_spec ⟨hw, rfl⟩ h.1 hs
    refine ⟨hs, fun out b'' hb'' => ?_⟩
    rw [hb'] at hb''
    cases hb''
    exact sized_of_written hh.wf (by omega) (h.2 _ b' hb')

/-- The buffer is a byte queue, from any initial size on and through every sequence of operations its
callers may make: with less than 2^30 bytes written in total, or with every write ending below that
index. That an operation succeeds says that its copies stay inside both vectors. -/
theorem follows_onQueue {size : Nat} (hinit : size < 2 ^ 31) (ops : List Op)
    (hpre : Refine.Allowed exec (fun b op => op.Pre b) (ofSize size) ops)
    (hsize : written ops < 2 ^ 30 ∨ Refine.Allowed exec (fun b op => op.Sized b) (ofSize size) ops) :
    Refine.Follows exec onQueue Holds (ofSize size) [] ops := by
  have hw := ofSize_wf hinit
  have hsized : Refine.Allowed exec (fun b op => op.Sized b) (ofSize size) ops := by
    rcases hsize with h | h
    · refine sized_of_written hw ?_ hpre
      show (0 : Int) + written ops < 2 ^ 30
      omega
    · exact h
  refine Refine.follows_of_step (fun b q op hh hop => ?_) ⟨hw, ?_⟩ (hpre.and hsized)
  · obtain ⟨b', hb', hh', -⟩ := exec_spec hh hop.1 hop.2
    exact ⟨b', hb', hh'⟩
  · have hempty : (ofSize size).buffer = [] ++ ([] ++ List.replicate size 0) := rfl
    exact readable_eq hempty rfl rfl

/-- Five bytes are written into a buffer for four, read in two goes, and the rest is cleared. -/
def fiveBytes : List Op :=
  [.writeToBuffer [1, 2, 3], .fill [4], .writeToBuffer [5], .readFromBuffer 3, .recycleRead 1, .readFromBuffer 9,
    .resizeBuffer 2, .clearBuffer, .readFromBuffer 1]

theorem follows_fiveBytes : Refine.Follows exec onQueue Holds (ofSize 4) [] fiveBytes :=
  follows_onQueue (by decide) fiveBytes (by decide) (.inl (by decide))

end Flconc.TcpBuffer
