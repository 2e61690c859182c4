/-
The reads of `TcpConnection::input` of net/tcp/tcp_connection.cc: a full buffer is doubled, then the
socket is read into what is free behind the write index, until the bytes that have arrived are in.
-/
import Flconc.Net.TcpBuffer

namespace Flconc

open Wire

/-- A buffer with no room left is doubled. -/
def growIfFull (b : TcpBuffer) : Except Fault TcpBuffer :=
  if b.writeAble = 0 then b.resizeBuffer (2 * b.getSize) else .ok b

/-- Up to `n` reads of the bytes that have arrived. -/
def fillFrom : Nat → TcpBuffer → Bytes → Except Fault TcpBuffer
  | 0, b, _ => .ok b
  | n + 1, b, arrived =>
    if arrived = [] then .ok b
    else do
      let b ← growIfFull b
      let readCount := b.writeAble.toNat
      let bs := arrived.take readCount
      let t ← TcpBuffer.overwrite b.buffer b.writeIndex bs
      let b ← TcpBuffer.recycleWrite { b with buffer := t } bs.length
      fillFrom n b (arrived.drop readCount)

/-- The arrived bytes are read into the buffer; every read takes one of them at least. -/
def fill (b : TcpBuffer) (arrived : Bytes) : Except Fault TcpBuffer := fillFrom arrived.length b arrived

/-- A connection's buffer between two of its operations. -/
structure Usable (b : TcpBuffer) : Prop where
  wf : b.WF
  compact : b.Compact
  nonempty : 0 < b.buffer.length

theorem ofSize_usable {n : Nat} (h0 : 0 < n) (h : n < 2 ^ 31) : Usable (.ofSize n) :=
  ⟨TcpBuffer.ofSize_wf h, Int.natCast_nonneg _, by simpa [TcpBuffer.ofSize] using h0⟩

/-- The next `n` bytes find room without a buffer of 2^30 bytes, or more, being doubled. -/
def HasRoom (b : TcpBuffer) (n : Nat) : Prop :=
  n ≤ b.writeAble ∨ b.getSize < 2 ^ 30 ∧ b.readAble + n ≤ 2 ^ 30

instance (b : TcpBuffer) (n : Nat) : Decidable (HasRoom b n) := inferInstanceAs (Decidable (_ ∨ _))

theorem growIfFull_spec {b : TcpBuffer} (hb : Usable b) {n : Nat} (hn : 0 < n) (hroom : HasRoom b n) :
    ∃ b', growIfFull b = .ok b' ∧ Usable b' ∧ b'.readable = b.readable ∧ 0 < b'.writeAble ∧ HasRoom b' n := by
  obtain ⟨hw, hc, hpos⟩ := hb
  have h1 := hw.read
  have h2 := hw.order
  have h3 := hw.write
  unfold growIfFull
  split
  · rename_i hfull
    obtain ⟨hsize, hn'⟩ : b.getSize < 2 ^ 30 ∧ b.readAble + n ≤ 2 ^ 30 := by
      refine hroom.resolve_left ?_
      rw [hfull]; omega
    have hfit : b.readAble ≤ 2 * b.getSize := by
      unfold TcpBuffer.readAble TcpBuffer.getSize
      omega
    obtain ⟨b', hb', hh, hr, hs⟩ := TcpBuffer.resizeBuffer_spec hw hfit (by omega)
    have hlen := TcpBuffer.length_readable hw
    have hra := hh.readAble
    rw [hlen] at hra
    unfold TcpBuffer.getSize at hs hsize
    unfold TcpBuffer.writeAble TcpBuffer.getSize at hfull
    have hwr : b'.writeIndex = b.readAble := by
      unfold TcpBuffer.readAble at hra
      rw [hr, Int.sub_zero] at hra
      exact hra
    refine ⟨b', hb', ⟨hh.wf, ?_, by omega⟩, hh.queue, ?_, ?_⟩
    · unfold TcpBuffer.Compact
      omega
    · unfold TcpBuffer.writeAble TcpBuffer.getSize
      unfold TcpBuffer.readAble at hwr
      omega
    · unfold HasRoom TcpBuffer.writeAble TcpBuffer.getSize
      omega
  · rename_i hfull
    refine ⟨b, rfl, ⟨hw, hc, hpos⟩, rfl, ?_, hroom⟩
    unfold TcpBuffer.writeAble TcpBuffer.getSize at hfull ⊢
    omega

/-- One read leaves room for the rest. -/
theorem HasRoom.read {b b' : TcpBuffer} {n k : Nat} (h : HasRoom b n) (hb' : b'.WF)
    (hk : (k : Int) = min (n : Int) b.writeAble) (hsize : b'.buffer.length = b.buffer.length)
    (hread : b'.readAble = b.readAble + k) : HasRoom b' (n - k) := by
  have hw := hb'.write
  unfold HasRoom TcpBuffer.writeAble TcpBuffer.getSize at *
  omega

/-- What has arrived is appended to the queue. -/
theorem fillFrom_spec : ∀ (n : Nat) {b : TcpBuffer} {arrived : Bytes}, Usable b → arrived.length ≤ n →
    HasRoom b arrived.length →
    ∃ b', fillFrom n b arrived = .ok b' ∧ Usable b' ∧ b'.readable = b.readable ++ arrived
  | 0, b, arrived, hb, hn, _ => by
    have hnil : arrived = [] := List.eq_nil_of_length_eq_zero (by omega)
    exact ⟨b, rfl, hb, by rw [hnil, List.append_nil]⟩
  | n + 1, b, arrived, hb, hn, hroom => by
    unfold fillFrom
    split
    · rename_i hnil
      exact ⟨b, rfl, hb, by rw [hnil, List.append_nil]⟩
    · rename_i hne
      have hpos := List.length_pos_of_ne_nil hne
      obtain ⟨b₁, hb₁, hu₁, hq₁, hfree, hroom₁⟩ := growIfFull_spec hb hpos hroom
      have htake : ((arrived.take b₁.writeAble.toNat).length : Int) =
          min (arrived.length : Int) b₁.writeAble := by
        rw [List.length_take]
        omega
      have hbs : (arrived.take b₁.writeAble.toNat).length ≤ b₁.writeAble := by omega
      obtain ⟨t, b₂, ht, hb₂, hh₂, hs₂, -⟩ := TcpBuffer.recycleWrite_spec hu₁.wf hbs
      have ht' : t.length = b₁.buffer.length := by
        obtain ⟨t', ht', hl, -⟩ := TcpBuffer.overwrite_spec hu₁.wf hbs
        rw [ht] at ht'
        cases ht'
        exact hl
      have hc₂ : b₂.Compact := by
        refine TcpBuffer.recycleWrite_compact ?_ hb₂
        have := hu₁.compact
        unfold TcpBuffer.Compact at this ⊢
        dsimp only
        rw [ht']
        exact this
      have hread : b₂.readAble = b₁.readAble + (arrived.take b₁.writeAble.toNat).length := by
        rw [hh₂.readAble, List.length_append, ← TcpBuffer.length_readable hu₁.wf]
        omega
      have hdrop : (arrived.drop b₁.writeAble.toNat).length =
          arrived.length - (arrived.take b₁.writeAble.toNat).length := by
        rw [List.length_drop, List.length_take]
        omega
      have hroom₂ : HasRoom b₂ (arrived.drop b₁.writeAble.toNat).length := by
        rw [hdrop]
        exact hroom₁.read hh₂.wf htake hs₂ hread
      obtain ⟨b₃, hb₃, hu₃, hq₃⟩ := fillFrom_spec n
        ⟨hh₂.wf, hc₂, by rw [hs₂]; exact hu₁.nonempty⟩ (by omega) hroom₂
      refine ⟨b₃, ?_, hu₃, ?_⟩
      · rw [hb₁, ok_bind]
        dsimp only
        rw [ht, ok_bind, hb₂, ok_bind]
        exact hb₃
      · rw [hq₃, hh₂.queue, hq₁, List.append_assoc, List.take_append_drop]

theorem fill_spec {b : TcpBuffer} (hb : Usable b) {arrived : Bytes} (hroom : HasRoom b arrived.length) :
    ∃ b', fill b arrived = .ok b' ∧ Usable b' ∧ b'.readable = b.readable ++ arrived :=
  fillFrom_spec _ hb le_rfl hroom

end Flconc
