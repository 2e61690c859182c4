/-
Field extraction on hostile frames. A copy is safe when its length is not negative, fits the array
it goes to with the terminating NUL, and its source lies inside the frame before the check field.
The source checks the start of most fields against the end of the frame, but the length of none
against its array, so extraction is safe exactly on the frames whose lengths are in range.
-/
import Flconc.FlconcPb.Scan

namespace Flconc.FlconcPb

open Wire

/-! ## Safe copies -/

/-- The bytes of the frame before its check field. -/
def Frame.Encloses (f : Frame) (src len : Int) : Prop :=
  len = 0 ∨ f.start ≤ src ∧ src + len ≤ f.stop - 4

structure Copy.Safe (f : Frame) (c : Copy) : Prop where
  nonneg : 0 ≤ c.len
  fits : ∀ cap, c.cap = some cap → c.len + 1 ≤ cap
  inside : f.Encloses c.src c.len

/-- No undefined access, no exception, and every copy made was safe. -/
def SafeRun (f : Frame) (r : Except Fault (FlconcPbStruct × List Copy)) : Prop :=
  ∃ pb cs, r = .ok (pb, cs) ∧ ∀ c ∈ cs, c.Safe f

theorem safeRun_ok {f : Frame} {pb : FlconcPbStruct} {cs : List Copy} :
    SafeRun f (.ok (pb, cs)) ↔ ∀ c ∈ cs, c.Safe f := by
  constructor
  · rintro ⟨pb', cs', h, hs⟩
    cases h
    exact hs
  · intro h
    exact ⟨pb, cs, rfl, h⟩

theorem not_safeRun_error {f : Frame} {e : Fault} : ¬ SafeRun f (.error e) := by
  rintro ⟨pb, cs, h, -⟩
  cases h

theorem SafeRun.bind {f : Frame} {α : Type} {x : Except Fault α}
    {k : α → Except Fault (FlconcPbStruct × List Copy)} (h : SafeRun f (x >>= k)) :
    ∃ a, x = .ok a ∧ SafeRun f (k a) := by
  cases x with
  | error e => exact absurd h not_safeRun_error
  | ok a => exact ⟨a, rfl, h⟩

theorem safe_append {f : Frame} {cs : List Copy} {c : Copy} :
    (∀ c' ∈ cs ++ [c], c'.Safe f) ↔ (∀ c' ∈ cs, c'.Safe f) ∧ c.Safe f := by
  simp only [List.mem_append, List.mem_singleton]
  constructor
  · intro h
    exact ⟨fun c' hc => h c' (.inl hc), h c (.inr rfl)⟩
  · rintro ⟨h1, h2⟩ c' (hc | rfl)
    · exact h1 c' hc
    · exact h2

/-! ## The condition on the wire fields -/

/-- The payload starts at or behind the end byte, or not behind the check field. -/
def PbDataFits (f : Frame) (i : Int) : Prop := f.stop ≤ i ∨ i ≤ f.stop - 4

/-- From the error code at `i` on. -/
def ErrFits (tmp : Bytes) (f : Frame) (i : Int) : Prop :=
  (∃ x, int32At tmp i = .ok x) ∧ (f.stop ≤ i + 4 ∨ ∃ l, int32At tmp (i + 4) = .ok l ∧
    0 ≤ l ∧ l ≤ 511 ∧ f.Encloses (i + 8) l ∧ PbDataFits f (i + 8 + l))

/-- From the length of the service name at `i` on. -/
def ServiceFits (tmp : Bytes) (f : Frame) (i : Int) : Prop :=
  f.stop ≤ i + 4 ∨ ∃ n, int32At tmp i = .ok n ∧
    (f.pkLen < n ∨ 0 ≤ n ∧ n ≤ 511 ∧ f.Encloses (i + 4) n ∧ ErrFits tmp f (i + 4 + n))

/-- The lengths of the frame are in range, or the source rejects it before it uses them. -/
def FieldsFit (tmp : Bytes) (f : Frame) : Prop :=
  f.stop ≤ f.start + 5 ∨ ∃ m, int32At tmp (f.start + 5) = .ok m ∧
    (m = 0 ∨ 0 ≤ m ∧ m ≤ 49 ∧ f.Encloses (f.start + 9) m ∧ ServiceFits tmp f (f.start + 9 + m))

/-! ## One copy -/

theorem copyText_of_safe {tmp : Bytes} {f : Frame} (hf : f.Bounds tmp) {cap : Nat} {src len : Int}
    (hs : Copy.Safe f ⟨some cap, src, len⟩) (h0 : 0 ≤ src) (h1 : src ≤ tmp.length) :
    ∃ bs, copyText cap tmp src len = .ok bs := by
  obtain ⟨hn, hfit, hin⟩ := hs
  have hfit : len + 1 ≤ cap := hfit cap rfl
  have hn : 0 ≤ len := hn
  have hlast : src + len ≤ tmp.length := by
    have := hf.inside
    rcases hin with h | ⟨-, h⟩
    · have h : len = 0 := h
      omega
    · have h : src + len ≤ f.stop - 4 := h
      omega
  obtain ⟨bs, hbs⟩ := bytesAt_isOk h0 hn hlast
  refine ⟨cString bs, ?_⟩
  unfold copyText
  rw [if_pos ⟨hn, by omega⟩, hbs]
  show (if len < cap ∨ 0 ∈ bs then _ else _) = _
  rw [if_pos (.inl (by omega))]
  rfl

/-- A stage that copies a text and goes on: safe when the copy is and the rest is. -/
theorem safeRun_copyText {tmp : Bytes} {f : Frame} (hf : f.Bounds tmp) {cap : Nat} {src len : Int}
    (h0 : 0 ≤ src) (h1 : src ≤ tmp.length) (cs : List Copy)
    {k : Bytes → Except Fault (FlconcPbStruct × List Copy)} {Q : Prop}
    (hmono : ∀ bs, SafeRun f (k bs) → ∀ c ∈ cs ++ [⟨some cap, src, len⟩], c.Safe f)
    (hk : ∀ bs, Copy.Safe f ⟨some cap, src, len⟩ → (∀ c ∈ cs, c.Safe f) → (SafeRun f (k bs) ↔ Q)) :
    SafeRun f ((copyText cap tmp src len).bind k) ↔
      (∀ c ∈ cs, c.Safe f) ∧ Copy.Safe f ⟨some cap, src, len⟩ ∧ Q := by
  constructor
  · intro h
    obtain ⟨bs, -, h⟩ := SafeRun.bind h
    obtain ⟨hcs, hs⟩ := safe_append.1 (hmono bs h)
    exact ⟨hcs, hs, (hk bs hs hcs).1 h⟩
  · rintro ⟨hcs, hs, hq⟩
    obtain ⟨bs, hbs⟩ := copyText_of_safe hf hs h0 h1
    rw [hbs]
    exact (hk bs hs hcs).2 hq

theorem copy_safe_iff {f : Frame} {cap : Nat} {src len : Int} :
    Copy.Safe f ⟨some cap, src, len⟩ ↔ 0 ≤ len ∧ len + 1 ≤ cap ∧ f.Encloses src len := by
  constructor
  · rintro ⟨h1, h2, h3⟩
    exact ⟨h1, h2 cap rfl, h3⟩
  · rintro ⟨h1, h2, h3⟩
    exact ⟨h1, fun c hc => by cases hc; exact h2, h3⟩

/-! ## The stages, from the last one up -/

theorem decodePbData_mono {tmp : Bytes} {f : Frame} {pb : FlconcPbStruct} {cs : List Copy} {i : Int}
    (h : SafeRun f (decodePbData tmp f pb cs i)) : ∀ c ∈ cs, c.Safe f := by
  unfold decodePbData at h
  dsimp only at h
  split at h
  · exact safeRun_ok.1 h
  · obtain ⟨bs, -, h⟩ := h.bind
    exact (safe_append.1 (safeRun_ok.1 h)).1

/-- The payload's length is what is left up to the check field. -/
theorem decodePbData_safe {tmp : Bytes} {f : Frame} (hf : f.Bounds tmp) {pb : FlconcPbStruct}
    {cs : List Copy} {i : Int} (hi : f.start ≤ i) (hl : 0 ≤ pb.errInfoLen) (hcs : ∀ c ∈ cs, c.Safe f)
    (hlen : wrap32 (pb.pkLen - pb.serviceNameLen - pb.msgReqLen - pb.errInfoLen - 2 - 6 * 4) =
      f.stop - 4 - (i + pb.errInfoLen)) :
    SafeRun f (decodePbData tmp f pb cs i) ↔ PbDataFits f (i + pb.errInfoLen) := by
  unfold decodePbData PbDataFits
  dsimp only
  rw [hlen]
  split
  · rename_i hstop
    exact ⟨fun _ => .inl hstop, fun _ => safeRun_ok.2 hcs⟩
  · rename_i hstop
    have h0 := hf.start
    have h1 := hf.inside
    unfold copyString
    by_cases hn : 0 ≤ f.stop - 4 - (i + pb.errInfoLen)
    · obtain ⟨bs, hbs⟩ := bytesAt_isOk (t := tmp) (i := i + pb.errInfoLen) (by omega) hn (by omega)
      rw [if_pos hn, hbs]
      refine ⟨fun _ => .inr (by omega), fun _ => safeRun_ok.2 (safe_append.2 ⟨hcs, hn, nofun, ?_⟩)⟩
      exact .inr ⟨by show f.start ≤ i + pb.errInfoLen; omega, by
        show i + pb.errInfoLen + (f.stop - 4 - (i + pb.errInfoLen)) ≤ _; omega⟩
    · rw [if_neg hn]
      refine ⟨fun h => absurd h not_safeRun_error, ?_⟩
      rintro (h | h) <;> omega

theorem decodeErr_mono {tmp : Bytes} {f : Frame} {pb : FlconcPbStruct} {cs : List Copy} {i : Int}
    (h : SafeRun f (decodeErr tmp f pb cs i)) : ∀ c ∈ cs, c.Safe f := by
  unfold decodeErr at h
  obtain ⟨x, -, h⟩ := h.bind
  dsimp only at h
  split at h
  · exact safeRun_ok.1 h
  · obtain ⟨l, -, h⟩ := h.bind
    obtain ⟨bs, -, h⟩ := h.bind
    exact (safe_append.1 (decodePbData_mono h)).1

theorem decodeErr_safe {tmp : Bytes} {f : Frame} (hf : f.Bounds tmp) {pb : FlconcPbStruct}
    {cs : List Copy} {i : Int} (hi : f.start ≤ i) (hcs : ∀ c ∈ cs, c.Safe f)
    (hpk : pb.pkLen = f.pkLen) (hpos : i = f.start + 13 + pb.msgReqLen + pb.serviceNameLen) :
    SafeRun f (decodeErr tmp f pb cs i) ↔ ErrFits tmp f i := by
  have h0 := hf.start
  unfold decodeErr ErrFits
  cases hx : int32At tmp i with
  | error e => exact ⟨fun h => absurd h not_safeRun_error, fun h => by obtain ⟨⟨x, hx⟩, -⟩ := h; cases hx⟩
  | ok x =>
    change SafeRun f (if i + 4 ≥ f.stop then .ok (_, cs) else _) ↔ _
    split
    · rename_i hstop
      exact ⟨fun _ => ⟨⟨x, rfl⟩, .inl hstop⟩, fun _ => safeRun_ok.2 hcs⟩
    · rename_i hstop
      cases hl : int32At tmp (i + 4) with
      | error e =>
        refine ⟨fun h => absurd h not_safeRun_error, ?_⟩
        rintro ⟨-, h | ⟨l, hl, -⟩⟩
        · omega
        · cases hl
      | ok l =>
        obtain ⟨-, hb, -⟩ := int32At_bounds hl
        change SafeRun f ((copyText 512 tmp (i + 4 + 4) l).bind _) ↔ _
        refine (safeRun_copyText hf (by omega) (by omega) cs (fun _ => decodePbData_mono)
          (Q := PbDataFits f (i + 4 + 4 + l)) ?_).trans ?_
        rotate_left
        · rw [copy_safe_iff, show i + 4 + 4 = i + 8 by omega]
          constructor
          · rintro ⟨-, ⟨ha, hb, hc⟩, hd⟩
            exact ⟨⟨x, rfl⟩, .inr ⟨l, rfl, ha, by omega, hc, hd⟩⟩
          · rintro ⟨-, h | ⟨l', hl', ha, hb, hc, hd⟩⟩
            · omega
            · cases hl'
              exact ⟨hcs, ⟨ha, by omega, hc⟩, hd⟩
        · intro bs hs hcs'
          obtain ⟨ha, hb, -⟩ := copy_safe_iff.1 hs
          refine decodePbData_safe hf (by omega) ha (safe_append.2 ⟨hcs', hs⟩) ?_
          rw [show i + 4 + 4 = i + 8 by omega]
          have hl512 : l ≤ 512 := by omega
          exact hf.pbDataLen hpk hpos ha hl512 (by omega) (by omega)

theorem decodeService_mono {tmp : Bytes} {f : Frame} {pb : FlconcPbStruct} {cs : List Copy} {i : Int}
    (h : SafeRun f (decodeService tmp f pb cs i)) : ∀ c ∈ cs, c.Safe f := by
  unfold decodeService at h
  dsimp only at h
  split at h
  · exact safeRun_ok.1 h
  split at h
  · exact safeRun_ok.1 h
  obtain ⟨n, -, h⟩ := h.bind
  split at h
  · exact safeRun_ok.1 h
  · obtain ⟨bs, -, h⟩ := h.bind
    exact (safe_append.1 (decodeErr_mono h)).1

theorem decodeService_safe {tmp : Bytes} {f : Frame} (hf : f.Bounds tmp) {pb : FlconcPbStruct}
    {cs : List Copy} {i : Int} (hcs : ∀ c ∈ cs, c.Safe f)
    (hm : 0 ≤ pb.msgReqLen ∧ pb.msgReqLen ≤ 49) (hpk : pb.pkLen = f.pkLen)
    (hpos : i = f.start + 9 + pb.msgReqLen) :
    SafeRun f (decodeService tmp f pb cs i) ↔ ServiceFits tmp f i := by
  have h0 := hf.start
  have h1 := hf.inside
  unfold decodeService ServiceFits
  dsimp only
  split
  · rename_i hstop
    exact ⟨fun _ => .inl (by omega), fun _ => safeRun_ok.2 hcs⟩
  rename_i hstop
  split
  · rename_i hstop'
    exact ⟨fun _ => .inl hstop', fun _ => safeRun_ok.2 hcs⟩
  rename_i hstop'
  obtain ⟨n, hn⟩ := int32At_isOk (t := tmp) (i := i) (by omega) (by omega)
  rw [hn]
  change SafeRun f (if n > f.pkLen then .ok (_, cs) else _) ↔ _
  split
  · rename_i hbig
    exact ⟨fun _ => .inr ⟨n, rfl, .inl hbig⟩, fun _ => safeRun_ok.2 hcs⟩
  · rename_i hbig
    change SafeRun f ((copyText 512 tmp (i + 4) n).bind _) ↔ _
    refine (safeRun_copyText hf (by omega) (by omega) cs (fun _ => decodeErr_mono)
      (Q := ErrFits tmp f (i + 4 + n)) ?_).trans ?_
    rotate_left
    · rw [copy_safe_iff]
      constructor
      · rintro ⟨-, ⟨ha, hb, hc⟩, hd⟩
        exact .inr ⟨n, rfl, .inr ⟨ha, by omega, hc, hd⟩⟩
      · rintro (h | ⟨n', hn', h | ⟨ha, hb, hc, hd⟩⟩)
        · omega
        · cases hn'
          omega
        · cases hn'
          exact ⟨hcs, ⟨ha, by omega, hc⟩, hd⟩
    · intro bs hs hcs'
      obtain ⟨ha, hb, -⟩ := copy_safe_iff.1 hs
      refine decodeErr_safe hf (by omega) (safe_append.2 ⟨hcs', hs⟩) hpk ?_
      show i + 4 + n = f.start + 13 + pb.msgReqLen + n
      omega

theorem extract_safe {tmp : Bytes} {f : Frame} (hf : f.Bounds tmp) (data : FlconcPbStruct) :
    SafeRun f (extract tmp f data) ↔ FieldsFit tmp f := by
  have h0 := hf.start
  have h1 := hf.inside
  have hnil : ∀ c ∈ ([] : List Copy), c.Safe f := nofun
  unfold extract FieldsFit
  dsimp only
  rw [show f.start + 1 + 4 = f.start + 5 by omega, show f.start + 5 + 4 = f.start + 9 by omega]
  split
  · rename_i hstop
    exact ⟨fun _ => .inl hstop, fun _ => safeRun_ok.2 hnil⟩
  · rename_i hstop
    cases hm : int32At tmp (f.start + 5) with
    | error e =>
      refine ⟨fun h => absurd h not_safeRun_error, ?_⟩
      rintro (h | ⟨m, hm, -⟩)
      · omega
      · cases hm
    | ok m =>
      obtain ⟨-, hb, -⟩ := int32At_bounds hm
      change SafeRun f (if m = 0 then .ok (_, []) else _) ↔ _
      split
      · rename_i hz
        exact ⟨fun _ => .inr ⟨m, rfl, .inl hz⟩, fun _ => safeRun_ok.2 hnil⟩
      · rename_i hz
        change SafeRun f ((copyText 50 tmp (f.start + 9) m).bind _) ↔ _
        refine (safeRun_copyText hf (by omega) (by omega) [] (fun _ => decodeService_mono)
          (Q := ServiceFits tmp f (f.start + 9 + m)) ?_).trans ?_
        rotate_left
        · rw [copy_safe_iff]
          constructor
          · rintro ⟨-, ⟨ha, hb, hc⟩, hd⟩
            exact .inr ⟨m, rfl, .inr ⟨ha, by omega, hc, hd⟩⟩
          · rintro (h | ⟨m', hm', h | ⟨ha, hb, hc, hd⟩⟩)
            · omega
            · cases hm'
              exact absurd h hz
            · cases hm'
              exact ⟨hnil, ⟨ha, by omega, hc⟩, hd⟩
        · intro bs hs hcs'
          obtain ⟨ha, hb, -⟩ := copy_safe_iff.1 hs
          have hm49 : m ≤ 49 := by omega
          exact decodeService_safe hf (safe_append.2 ⟨hcs', hs⟩) ⟨ha, hm49⟩ rfl rfl

/-! ## Every accepted frame -/

/-- On a frame the scan accepts, extraction is safe exactly when the lengths on the wire fit. -/
theorem safeRun_iff_fieldsFit {b : TcpBuffer} (hb : b.WF) {f : Frame} (h : scan b = .ok (some f))
    (data : FlconcPbStruct) : SafeRun f (extract b.buffer f data) ↔ FieldsFit b.buffer f := by
  obtain ⟨-, hf, -⟩ := scan_accepts hb h
  exact extract_safe hf data

/-- A frame whose fields fit: one byte of message number, name and payload. -/
def smallPacket : FlconcPbStruct := { msgReq := [0x31], serviceFullName := [0x53], pbData := [0x70] }

theorem safeRun_smallPacket :
    SafeRun ⟨0, 28, 29⟩ (extract (packet smallPacket) ⟨0, 28, 29⟩ {}) ↔
      FieldsFit (packet smallPacket) ⟨0, 28, 29⟩ :=
  safeRun_iff_fieldsFit (b := ⟨packet smallPacket, 0, 29⟩)
    ⟨by decide, by decide, by decide, by decide⟩ (by decide +kernel) {}

/-- A frame of 11 bytes whose message number has length -1. -/
def negativeLength : TcpBuffer :=
  ⟨[PB_START] ++ be32 11 ++ be32 (-1) ++ [0, PB_END], 0, 11⟩

theorem negativeLength_wf : negativeLength.WF := ⟨by decide, by decide, by decide, by decide⟩

theorem scan_negativeLength : scan negativeLength = .ok (some ⟨0, 10, 11⟩) := by decide +kernel

theorem not_safeRun_negativeLength :
    ¬ ∀ (b : TcpBuffer) (f : Frame), b.WF → scan b = .ok (some f) → SafeRun f (extract b.buffer f {}) := by
  intro h
  have hs := h negativeLength ⟨0, 10, 11⟩ negativeLength_wf scan_negativeLength
  -- `memcpy` takes the length as 2^64 - 1
  have he : extract negativeLength.buffer ⟨0, 10, 11⟩ {} = .error .memory := by decide +kernel
  rw [he] at hs
  exact not_safeRun_error hs

end Flconc.FlconcPb
