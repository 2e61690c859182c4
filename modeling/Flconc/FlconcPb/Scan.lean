/-
What the frame scan accepts: a start byte whose announced length leads to an end byte before the
write index. The arithmetic of the accepted frame does not wrap, and a whole packet at the read
index is what the scan accepts first.
-/
import Flconc.FlconcPb.Codec

namespace Flconc.FlconcPb

open Wire

/-- The tests an accepted frame has passed. -/
structure Accepts (tmp : Bytes) (writeIndex : Int) (f : Frame) : Prop where
  start : byteAt tmp f.start = .ok PB_START
  next : f.start + 1 < writeIndex
  length : int32At tmp (f.start + 1) = .ok f.pkLen
  stop : f.stop = wrap32 (f.start + f.pkLen - 1)
  inside : f.stop < writeIndex
  last : byteAt tmp f.stop = .ok PB_END

/-- One round of the scan, on a start byte with a byte behind it. -/
theorem scanFrom_start {tmp : Bytes} {w i L : Int} {n : Nat} (hs : byteAt tmp i = .ok PB_START)
    (hn : i + 1 < w) (hL : int32At tmp (i + 1) = .ok L) :
    scanFrom tmp w i (n + 1) =
      if wrap32 (i + L - 1) ≥ w then scanFrom tmp w (i + 1) n
      else (byteAt tmp (wrap32 (i + L - 1))).bind fun e =>
        if e = PB_END then .ok (some ⟨i, wrap32 (i + L - 1), L⟩) else scanFrom tmp w (i + 1) n := by
  rw [scanFrom, hs]
  show (if PB_START = PB_START ∧ i + 1 < w then _ else _) = _
  rw [if_pos ⟨rfl, hn⟩, hL]
  rfl

/-- The scan passes index `i`: no start byte, or none whose announced length leads to an end byte. -/
def SkipsAt (tmp : Bytes) (w i : Int) : Prop :=
  ∃ c, byteAt tmp i = .ok c ∧ (c = PB_START → i + 1 < w → ∃ L, int32At tmp (i + 1) = .ok L ∧
    (w ≤ wrap32 (i + L - 1) ∨ ∃ e, byteAt tmp (wrap32 (i + L - 1)) = .ok e ∧ e ≠ PB_END))

theorem scanFrom_skip {tmp : Bytes} {w i : Int} {n : Nat} (h : SkipsAt tmp w i) :
    scanFrom tmp w i (n + 1) = scanFrom tmp w (i + 1) n := by
  obtain ⟨c, hc, h⟩ := h
  by_cases hs : c = PB_START ∧ i + 1 < w
  · obtain ⟨rfl, hn⟩ := hs
    obtain ⟨L, hL, hj | ⟨e, he, hne⟩⟩ := h rfl hn
    · rw [scanFrom_start hc hn hL, if_pos hj]
    · rw [scanFrom_start hc hn hL]
      split
      · rfl
      · rw [he]
        show (if e = PB_END then _ else _) = _
        rw [if_neg hne]
  · rw [scanFrom, hc, ok_bind, if_neg hs]

/-- A round of the scan that goes well passes the index or accepts the frame that starts there. -/
theorem scanFrom_cases {tmp : Bytes} {w i : Int} {n : Nat} {o : Option Frame}
    (h : scanFrom tmp w i (n + 1) = .ok o) :
    (SkipsAt tmp w i ∧ scanFrom tmp w (i + 1) n = .ok o) ∨
      ∃ f, o = some f ∧ f.start = i ∧ Accepts tmp w f := by
  have skip : SkipsAt tmp w i → SkipsAt tmp w i ∧ scanFrom tmp w (i + 1) n = .ok o :=
    fun hs => ⟨hs, scanFrom_skip hs ▸ h⟩
  have h' := h
  rw [scanFrom] at h'
  obtain ⟨c, hc, h'⟩ := bind_eq_ok.1 h'
  by_cases hs : c = PB_START ∧ i + 1 < w
  · obtain ⟨rfl, hn⟩ := hs
    rw [if_pos ⟨rfl, hn⟩] at h'
    obtain ⟨L, hL, h'⟩ := bind_eq_ok.1 h'
    dsimp only at h'
    split at h'
    · rename_i hj
      exact .inl (skip ⟨_, hc, fun _ _ => ⟨L, hL, .inl hj⟩⟩)
    · rename_i hj
      obtain ⟨e, he, h'⟩ := bind_eq_ok.1 h'
      split at h'
      · rename_i hend
        cases h'
        exact .inr ⟨_, rfl, rfl, hc, hn, hL, rfl, lt_of_not_ge hj, hend ▸ he⟩
      · rename_i hend
        exact .inl (skip ⟨_, hc, fun _ _ => ⟨L, hL, .inr ⟨e, he, hend⟩⟩⟩)
  · exact .inl (skip ⟨c, hc, fun h1 h2 => absurd ⟨h1, h2⟩ hs⟩)

theorem scanFrom_none {tmp : Bytes} {w : Int} : ∀ {n : Nat} {i : Int}, scanFrom tmp w i n = .ok none →
    ∀ k, i ≤ k → k < i + n → SkipsAt tmp w k
  | 0, i, _, k, h1, h2 => by omega
  | n + 1, i, h, k, h1, h2 => by
    rcases scanFrom_cases h with ⟨hs, h'⟩ | ⟨f, hf, -⟩
    · by_cases hk : k = i
      · exact hk ▸ hs
      · exact scanFrom_none h' k (by omega) (by omega)
    · cases hf

theorem scanFrom_some {tmp : Bytes} {w : Int} {f : Frame} :
    ∀ {n : Nat} {i : Int}, scanFrom tmp w i n = .ok (some f) → Accepts tmp w f ∧ i ≤ f.start ∧
      f.start < i + n ∧ ∀ k, i ≤ k → k < f.start → SkipsAt tmp w k
  | 0, i, h => by cases h
  | n + 1, i, h => by
    rcases scanFrom_cases h with ⟨hs, h'⟩ | ⟨f', hf, hi, ha⟩
    · obtain ⟨ha, h1, h2, hk⟩ := scanFrom_some h'
      refine ⟨ha, by omega, by omega, fun k hk1 hk2 => ?_⟩
      by_cases hki : k = i
      · exact hki ▸ hs
      · exact hk k (by omega) hk2
    · cases hf
      exact ⟨ha, by omega, by omega, fun k hk1 hk2 => by omega⟩

/-- The scan passes the indices it skips. -/
theorem scanFrom_skips {tmp : Bytes} {w : Int} : ∀ {m n : Nat} {i : Int},
    (∀ k, i ≤ k → k < i + m → SkipsAt tmp w k) → scanFrom tmp w i (m + n) = scanFrom tmp w (i + m) n
  | 0, n, i, _ => by simp
  | m + 1, n, i, h => by
    rw [show m + 1 + n = m + n + 1 by omega, scanFrom_skip (h i (by omega) (by omega)),
      scanFrom_skips fun k h1 h2 => h k (by omega) (by omega)]
    congr 1
    omega

/-- The bounds of an accepted frame, in a vector whose size is an `int`. -/
structure Frame.Bounds (tmp : Bytes) (f : Frame) : Prop where
  start : 0 ≤ f.start
  stop : 0 ≤ f.stop
  inside : f.stop < tmp.length
  length : f.pkLen = f.stop - f.start + 1
  size : tmp.length < 2 ^ 31

theorem Accepts.bounds {tmp : Bytes} {w : Int} {f : Frame} (h : Accepts tmp w f)
    (hsize : tmp.length < 2 ^ 31) : f.Bounds tmp := by
  obtain ⟨hs, hs'⟩ := byteAt_lt h.start
  obtain ⟨he, he'⟩ := byteAt_lt h.last
  obtain ⟨h0, h1, hL, hL'⟩ := int32At_bounds h.length
  refine ⟨hs, he, he', ?_, hsize⟩
  -- the sum is within one turn of the 32-bit range, and its wrapped value is an index
  have hw := h.stop
  by_cases hin : InInt32 (f.start + f.pkLen - 1)
  · rw [wrap32_of_inInt32 hin] at hw
    omega
  · exfalso
    unfold wrap32 at hw
    unfold InInt32 at hin
    have := Int.bmod_def (f.start + f.pkLen - 1) (2 ^ 32)
    rw [this] at hw
    split at hw <;> omega

theorem scan_accepts {b : TcpBuffer} (hb : b.WF) {f : Frame} (h : scan b = .ok (some f)) :
    Accepts b.buffer b.writeIndex f ∧ f.Bounds b.buffer ∧ b.readIndex ≤ f.start := by
  obtain ⟨ha, h1, -⟩ := scanFrom_some h
  exact ⟨ha, ha.bounds hb.size, h1⟩

/-- The length that extraction computes for the payload is what is left up to the check field. -/
theorem Frame.Bounds.pbDataLen {tmp : Bytes} {f : Frame} (hf : f.Bounds tmp)
    {pkLen msgReqLen serviceNameLen i l : Int} (hpk : pkLen = f.pkLen)
    (hpos : i = f.start + 13 + msgReqLen + serviceNameLen) (h0 : 0 ≤ l) (hl : l ≤ 512) (hi : 0 ≤ i)
    (hstop : i + 4 < f.stop) :
    wrap32 (pkLen - serviceNameLen - msgReqLen - l - 2 - 6 * 4) = f.stop - 4 - (i + 8 + l) := by
  have hlen := hf.length
  have hsize := hf.size
  have hstart := hf.start
  have hinside := hf.inside
  rw [wrap32_of_inInt32 (by unfold InInt32; omega)]
  omega

/-! ## A whole frame -/

/-- A frame around the given bytes: a start byte, its length, and an end byte. -/
def framed (body : Bytes) : Bytes := [PB_START] ++ (be32 (body.length + 6) ++ (body ++ [PB_END]))

theorem length_framed (body : Bytes) : (framed body).length = body.length + 6 := by
  simp only [framed, List.length_append, length_be32, List.length_cons, List.length_nil]
  omega

/-- A whole frame at the read index is accepted. -/
theorem scan_framed {b : TcpBuffer} (hb : b.WF) {body rest : Bytes} (hq : b.readable = framed body ++ rest) :
    scan b = .ok (some ⟨b.readIndex, b.readIndex + (body.length + 6) - 1, body.length + 6⟩) := by
  obtain ⟨p, q, hbuf, hr, hw⟩ := hb.split
  have hlen := TcpBuffer.length_readable hb
  have hfr := length_framed body
  have hsize := hb.size
  have hin : Has b.buffer b.readIndex (framed body) := by
    refine ⟨p, rest ++ q, ?_, hr⟩
    rw [hbuf, hq, List.append_assoc]
  have hb1 := hin.bounds
  unfold framed at hin
  rw [has_cons, has_be32, has_append] at hin
  obtain ⟨hs, hL, -, hlast⟩ := hin
  have hqn : b.readable.length = body.length + 6 + rest.length := by
    rw [hq, List.length_append, hfr]
  have hn : b.readAble.toNat = (body.length + 5 + rest.length) + 1 := by omega
  have hj : InInt32 (b.readIndex + (body.length + 6) - 1) := by unfold InInt32; omega
  have hstop : b.readIndex + 1 + 4 + body.length = b.readIndex + (body.length + 6) - 1 := by omega
  rw [hstop] at hlast
  unfold scan
  rw [hn, scanFrom_start hs.byteAt (by omega) (hL.int32At (by unfold InInt32; omega)),
    wrap32_of_inInt32 hj, if_neg (by omega), hlast.byteAt]
  rfl

/-- A packet is a frame around its fields. -/
theorem packet_framed (d : FlconcPbStruct) : ∃ body, packet d = framed body ∧ packetLength d = body.length + 6 := by
  obtain ⟨body, hbody⟩ : ∃ body, packet d = [PB_START] ++ (be32 (packetLength d) ++ (body ++ [PB_END])) := ⟨_, by
    unfold packet
    simp only [← List.append_assoc]
    rfl⟩
  have hlen : packetLength d = body.length + 6 := by
    rw [← length_packet, hbody]
    simp only [List.length_append, length_be32, List.length_cons, List.length_nil]
    omega
  refine ⟨body, ?_, hlen⟩
  rw [hbody, hlen]
  rfl

/-- The frame a packet at index `i` makes. -/
def frameAt (i : Int) (d : FlconcPbStruct) : Frame := ⟨i, i + packetLength d - 1, packetLength d⟩

theorem scan_packet {b : TcpBuffer} (hb : b.WF) {d : FlconcPbStruct} {rest : Bytes}
    (hq : b.readable = packet d ++ rest) : scan b = .ok (some (frameAt b.readIndex d)) := by
  obtain ⟨body, hbody, hlen⟩ := packet_framed d
  rw [hbody] at hq
  rw [scan_framed hb hq]
  unfold frameAt
  rw [hlen]
  rfl

end Flconc.FlconcPb
