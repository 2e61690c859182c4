/-
What `decode` takes out of the read buffer for a frame the scan accepts. The read index moves on by
the length of the frame from where it stands, not from where the frame starts. So the bytes behind
the frame are what is left exactly when the frame starts at the read index and its length is positive.
-/
import Flconc.FlconcPb.Scan

namespace Flconc.FlconcPb

open Wire

/-- The received bytes behind the end byte of the frame. -/
def behind (b : TcpBuffer) (f : Frame) : Bytes := (b.buffer.take b.writeIndex.toNat).drop (f.stop + 1).toNat

/-- How far into the stream the buffer is read, when so many bytes of it have been put in. -/
def position (received : Int) (b : TcpBuffer) : Int := received - b.readAble

/-- The frame and all before it are read, and will not be again. -/
structure ConsumesFrame (b : TcpBuffer) (f : Frame) (b' : TcpBuffer) : Prop where
  rest : b'.readable = behind b f
  advanced : ∀ received, position received b < position received b'

/-- What is consumed for an accepted frame is its length, and the fields come from the old vector. -/
theorem decode_accepted {b : TcpBuffer} (hb : b.WF) {f : Frame} (hs : scan b = .ok (some f)) :
    ∃ b', b.recycleRead f.pkLen = .ok b' ∧
      ∀ data, decode b data = (extract b.buffer f data).map fun r => (b', r.1) := by
  obtain ⟨ha, hf, hle⟩ := scan_accepts hb hs
  have hlen := hf.length
  have hin := ha.inside
  have hnext := ha.next
  have hw := hb.write
  have hsize := hb.size
  have h0 := hf.stop
  have hpk : f.stop + 1 - f.start = f.pkLen := by omega
  have hrec : ∃ b', b.recycleRead f.pkLen = .ok b' := by
    rcases le_total 0 f.pkLen with h | h
    · obtain ⟨b', hb', -⟩ := TcpBuffer.recycleRead_spec hb h (by unfold TcpBuffer.readAble; omega)
      exact ⟨b', hb'⟩
    · exact TcpBuffer.recycleRead_back hb (by omega) h
  obtain ⟨b', hb'⟩ := hrec
  refine ⟨b', hb', fun data => ?_⟩
  unfold decode
  rw [hs, ok_bind]
  dsimp only
  rw [hpk, hb', ok_bind]
  cases extract b.buffer f data with
  | error e => rfl
  | ok r => rfl

theorem length_behind {b : TcpBuffer} (hb : b.WF) {f : Frame} (hf : f.Bounds b.buffer)
    (hin : f.stop < b.writeIndex) : ((behind b f).length : Int) = b.writeIndex - (f.stop + 1) := by
  have h0 := hf.stop
  have hw := hb.write
  simp only [behind, List.length_drop, List.length_take]
  omega

/-- The readable bytes without the frame at their front are the bytes behind it. -/
theorem drop_readable {b : TcpBuffer} (hb : b.WF) {f : Frame} (hstart : f.start = b.readIndex) (hpos : 0 < f.pkLen)
    (hf : f.Bounds b.buffer) : b.readable.drop f.pkLen.toNat = behind b f := by
  have h0 := hb.read
  have h1 := hb.order
  have hlen := hf.length
  unfold TcpBuffer.readable behind TcpBuffer.readAble
  have hstop : (f.stop + 1).toNat = b.readIndex.toNat + f.pkLen.toNat := by omega
  rw [hstop, List.drop_take, List.drop_take, List.drop_drop]
  congr 1
  omega

/-- An accepted frame is consumed to its end, and never read again, exactly when it starts at the read
index and its length is positive. -/
theorem consumesFrame_iff {b : TcpBuffer} (hb : b.WF) {f : Frame} (hs : scan b = .ok (some f)) :
    ∃ b', b.recycleRead f.pkLen = .ok b' ∧
      (∀ data, decode b data = (extract b.buffer f data).map fun r => (b', r.1)) ∧
      (ConsumesFrame b f b' ↔ f.start = b.readIndex ∧ 0 < f.pkLen) := by
  obtain ⟨b', hb', hdecode⟩ := decode_accepted hb hs
  obtain ⟨ha, hf, hle⟩ := scan_accepts hb hs
  have hlen := hf.length
  have hin := ha.inside
  have hw := hb.write
  have hr := hb.read
  have hsize : b.readIndex + f.pkLen ≤ b.getSize := by unfold TcpBuffer.getSize; omega
  have hnext := ha.next
  have hint := hb.size
  have hstop := hf.stop
  have hleft := TcpBuffer.readAble_recycleRead hb.size (by omega) hsize hb'
  refine ⟨b', hb', hdecode, ?_⟩
  constructor
  · rintro ⟨hrest, hadv⟩
    have hadv := hadv 0
    unfold position at hadv
    have hpos : 0 < f.pkLen := by omega
    refine ⟨?_, hpos⟩
    -- what is left is as long as what is behind the frame
    obtain ⟨b'', hb'', hh, -⟩ := TcpBuffer.recycleRead_spec hb hpos.le (by unfold TcpBuffer.readAble; omega)
    obtain rfl : b' = b'' := Except.ok.inj (hb'.symm.trans hb'')
    have hl := TcpBuffer.length_readable hh.wf
    rw [hrest, length_behind hb hf hin] at hl
    unfold TcpBuffer.readAble at hl hleft
    omega
  · rintro ⟨hstart, hpos⟩
    obtain ⟨b'', hb'', hh, -⟩ := TcpBuffer.recycleRead_spec hb hpos.le (by unfold TcpBuffer.readAble; omega)
    obtain rfl : b' = b'' := Except.ok.inj (hb'.symm.trans hb'')
    refine ⟨hh.queue.trans (drop_readable hb hstart hpos hf), fun received => ?_⟩
    unfold position
    omega

/-- A byte of noise in front of a packet of 29 bytes. -/
def noisy : TcpBuffer := ⟨0x41 :: packet { msgReq := [0x31], serviceFullName := [0x53], pbData := [0x70] }, 0, 30⟩

theorem noisy_wf : noisy.WF := ⟨by decide, by decide, by decide, by decide⟩

/-- Without the noise. -/
def clean : TcpBuffer := ⟨packet { msgReq := [0x31], serviceFullName := [0x53], pbData := [0x70] }, 0, 29⟩

theorem consumesFrame_clean : ∃ b', clean.recycleRead 29 = .ok b' ∧
    (∀ data, decode clean data = (extract clean.buffer ⟨0, 28, 29⟩ data).map fun r => (b', r.1)) ∧
    (ConsumesFrame clean ⟨0, 28, 29⟩ b' ↔ (0 : Int) = 0 ∧ (0 : Int) < 29) :=
  consumesFrame_iff (b := clean) (f := ⟨0, 28, 29⟩) ⟨by decide, by decide, by decide, by decide⟩ (by decide +kernel)

/-- The end byte stays readable. -/
theorem not_consumesFrame_noisy : ¬ ∀ (b b' : TcpBuffer) (f : Frame), b.WF → scan b = .ok (some f) →
    b.recycleRead (f.stop + 1 - f.start) = .ok b' → ConsumesFrame b f b' := by
  intro h
  have hs : scan noisy = .ok (some ⟨1, 29, 29⟩) := by decide +kernel
  have hb : noisy.recycleRead (29 + 1 - 1) = .ok ⟨[PB_END] ++ List.replicate 29 0, 0, 1⟩ := by decide +kernel
  have hrest := (h noisy _ ⟨1, 29, 29⟩ noisy_wf hs hb).rest
  exact absurd hrest (by decide +kernel)

end Flconc.FlconcPb
