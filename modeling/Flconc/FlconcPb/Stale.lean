/-
What `decode` gives for buffers that agree on the received bytes. Behind the scan the fields are taken
at indices the announced lengths lead to, out of the whole vector. Where these stay on the received
bytes, the struct and the number of bytes consumed are those of the received bytes alone, whatever
stands before the read index and behind the write index.
-/
import Flconc.FlconcPb.Received

namespace Flconc.FlconcPb

open Wire

/-! ## Extraction in a larger vector -/

/-- The frame when `n` more bytes stand before it. -/
def Frame.shift (n : Int) (f : Frame) : Frame := ⟨n + f.start, n + f.stop, f.pkLen⟩

@[simp] theorem Frame.shift_start (n : Int) (f : Frame) : (f.shift n).start = n + f.start := rfl

@[simp] theorem Frame.shift_stop (n : Int) (f : Frame) : (f.shift n).stop = n + f.stop := rfl

section

variable {p q s : Bytes} {f : Frame} {cs cs' : List Copy} {i j len : Int}

/-- The same struct, whatever was copied. -/
def SameStruct (x y : FlconcPbStruct × List Copy) : Prop := x.1 = y.1

theorem copyText_extends {cap : Nat} (hj : j = p.length + i) :
    Extends Eq (copyText cap (p ++ (q ++ s)) j len) (copyText cap q i len) := by
  refine .ite Iff.rfl (fun _ => ?_) fun _ => .of_eq fun _ => rfl
  refine (bytesAt_extends hj).bind fun a b hab => ?_
  subst hab
  exact .of_eq fun _ => rfl

theorem copyString_extends (hj : j = p.length + i) :
    Extends Eq (copyString (p ++ (q ++ s)) j len) (copyString q i len) :=
  .ite Iff.rfl (fun _ => bytesAt_extends hj) fun _ => .of_eq fun _ => rfl

/-- The comparisons with the end of the frame come out the same. -/
theorem stop_shift (hj : j = p.length + i) : j ≥ (f.shift p.length).stop ↔ i ≥ f.stop := by
  rw [Frame.shift_stop]
  omega

theorem decodePbData_extends (pb : FlconcPbStruct) (hj : j = p.length + i) :
    Extends SameStruct (decodePbData (p ++ (q ++ s)) (f.shift p.length) pb cs j) (decodePbData q f pb cs' i) := by
  refine .ite (stop_shift (by omega)) (fun _ => .ok rfl) fun _ => ?_
  refine (copyString_extends (by omega)).bind fun pbData b hab => ?_
  subst hab
  exact .ok rfl

theorem decodeErr_extends (pb : FlconcPbStruct) (hj : j = p.length + i) :
    Extends SameStruct (decodeErr (p ++ (q ++ s)) (f.shift p.length) pb cs j) (decodeErr q f pb cs' i) := by
  refine (int32At_extends hj).bind fun errCode b hab => ?_
  subst hab
  refine .ite (stop_shift (by omega)) (fun _ => .ok rfl) fun _ => ?_
  refine (int32At_extends (by omega)).bind fun errInfoLen b hab => ?_
  subst hab
  refine (copyText_extends (by omega)).bind fun errInfo b hab => ?_
  subst hab
  exact decodePbData_extends _ (by omega)

theorem decodeService_extends (pb : FlconcPbStruct) (hj : j = p.length + i) :
    Extends SameStruct (decodeService (p ++ (q ++ s)) (f.shift p.length) pb cs j) (decodeService q f pb cs' i) := by
  refine .ite (stop_shift hj) (fun _ => .ok rfl) fun _ => ?_
  refine .ite (stop_shift (by omega)) (fun _ => .ok rfl) fun _ => ?_
  refine (int32At_extends hj).bind fun serviceNameLen b hab => ?_
  subst hab
  refine .ite Iff.rfl (fun _ => .ok rfl) fun _ => ?_
  refine (copyText_extends (by omega)).bind fun name b hab => ?_
  subst hab
  exact decodeErr_extends _ (by omega)

/-- Extraction that is never undefined on the received bytes gives the same in any vector around them. -/
theorem extract_extends (data : FlconcPbStruct) :
    Extends SameStruct (extract (p ++ (q ++ s)) (f.shift p.length) data) (extract q f data) := by
  have hstart := f.shift_start p.length
  refine .ite (stop_shift (by omega)) (fun _ => .ok rfl) fun _ => ?_
  refine (int32At_extends (by omega)).bind fun msgReqLen b hab => ?_
  subst hab
  refine .ite Iff.rfl (fun _ => .ok rfl) fun _ => ?_
  refine (copyText_extends (by omega)).bind fun msgReq b hab => ?_
  subst hab
  exact decodeService_extends _ (by omega)

end

/-! ## Where the fields lie -/

/-- A text to be copied lies in the received bytes, and the array it goes to holds it with a NUL. -/
structure TextReadable (q : Bytes) (cap : Nat) (src len : Int) : Prop where
  nonneg : 0 ≤ len
  fits : len ≤ cap
  inside : src + len ≤ q.length
  ended : len < cap ∨ 0 ∈ (q.drop src.toNat).take len.toNat

/-- From the error code at `i` on. -/
def ErrReadable (q : Bytes) (f : Frame) (i : Int) : Prop :=
  (∃ x, int32At q i = .ok x) ∧ (f.stop ≤ i + 4 ∨ ∃ l, int32At q (i + 4) = .ok l ∧ TextReadable q 512 (i + 8) l)

/-- From the length of the service name at `i` on. -/
def ServiceReadable (q : Bytes) (f : Frame) (i : Int) : Prop :=
  f.stop ≤ i + 4 ∨ ∃ n, int32At q i = .ok n ∧
    (f.pkLen < n ∨ TextReadable q 512 (i + 4) n ∧ ErrReadable q f (i + 4 + n))

/-- The fields of the frame lie in the received bytes, as far as the source comes to use them. -/
def FieldsReadable (q : Bytes) (f : Frame) : Prop :=
  f.stop ≤ f.start + 5 ∨ ∃ m, int32At q (f.start + 5) = .ok m ∧
    (m = 0 ∨ TextReadable q 50 (f.start + 9) m ∧ ServiceReadable q f (f.start + 9 + m))

section

variable {q : Bytes} {f : Frame} {pb : FlconcPbStruct} {cs : List Copy} {i : Int}

theorem copyText_isOk_iff {cap : Nat} {src len : Int} (h0 : 0 ≤ src) :
    (∃ bs, copyText cap q src len = .ok bs) ↔ TextReadable q cap src len := by
  unfold copyText
  constructor
  · rintro ⟨bs, h⟩
    split at h
    · rename_i hlen
      obtain ⟨bs', hbs, h⟩ := bind_eq_ok.1 h
      obtain ⟨⟨-, -, hin⟩, htake⟩ := bytesAt_eq_ok.1 hbs
      split at h
      · rename_i hend
        exact ⟨hlen.1, hlen.2, hin, htake ▸ hend⟩
      · cases h
    · cases h
  · rintro ⟨hn, hfit, hin, hend⟩
    refine ⟨cString ((q.drop src.toNat).take len.toNat), ?_⟩
    rw [if_pos ⟨hn, hfit⟩, bytesAt_eq_ok.2 ⟨⟨h0, hn, hin⟩, rfl⟩, ok_bind, if_pos hend]
    rfl

theorem copyText_ne_thrown {cap : Nat} {src len : Int} : copyText cap q src len ≠ .error .thrown := by
  unfold copyText
  split
  · cases h : bytesAt q src len with
    | error e => exact fun he => bytesAt_ne_thrown (h.trans he)
    | ok bs =>
      rw [ok_bind]
      split <;> nofun
  · nofun

/-- A stage that copies a text and goes on. -/
theorem defined_copyText {cap : Nat} {src len : Int} (h0 : 0 ≤ src)
    {k : Bytes → Except Fault (FlconcPbStruct × List Copy)} {Q : Prop}
    (hk : ∀ bs, TextReadable q cap src len → (Defined (k bs) ↔ Q)) :
    Defined (copyText cap q src len >>= k) ↔ TextReadable q cap src len ∧ Q := by
  rw [defined_bind copyText_ne_thrown, ← copyText_isOk_iff h0]
  constructor
  · rintro ⟨bs, hbs, h⟩
    exact ⟨⟨bs, hbs⟩, (hk bs ((copyText_isOk_iff h0).1 ⟨bs, hbs⟩)).1 h⟩
  · rintro ⟨⟨bs, hbs⟩, h⟩
    exact ⟨bs, hbs, (hk bs ((copyText_isOk_iff h0).1 ⟨bs, hbs⟩)).2 h⟩

/-- The payload ends at the check field, inside the frame. -/
theorem decodePbData_defined (hf : f.Bounds q) (hi : 0 ≤ i) (hl : 0 ≤ pb.errInfoLen)
    (hlen : wrap32 (pb.pkLen - pb.serviceNameLen - pb.msgReqLen - pb.errInfoLen - 2 - 6 * 4) =
      f.stop - 4 - (i + pb.errInfoLen)) : Defined (decodePbData q f pb cs i) := by
  unfold decodePbData
  dsimp only
  rw [hlen]
  split
  · exact defined_ok
  · rename_i hstop
    have h1 := hf.inside
    unfold copyString
    split
    · rename_i hn
      obtain ⟨bs, hbs⟩ := bytesAt_isOk (t := q) (i := i + pb.errInfoLen) (by omega) hn (by omega)
      rw [hbs]
      exact defined_ok
    · exact nofun

theorem decodeErr_defined (hf : f.Bounds q) (hpk : pb.pkLen = f.pkLen)
    (hpos : i = f.start + 13 + pb.msgReqLen + pb.serviceNameLen) :
    Defined (decodeErr q f pb cs i) ↔ ErrReadable q f i := by
  unfold decodeErr ErrReadable
  rw [defined_bind int32At_ne_thrown, ← exists_and_right]
  refine exists_congr fun errCode => and_congr_right fun hcode => ?_
  dsimp only
  split
  · rename_i hstop
    exact iff_of_true defined_ok (.inl hstop)
  · rename_i hstop
    rw [or_iff_right (show ¬ f.stop ≤ i + 4 by omega), defined_bind int32At_ne_thrown]
    refine exists_congr fun l => and_congr_right fun hl => ?_
    have hi := (int32At_bounds hcode).1
    rw [show i + 4 + 4 = i + 8 by omega]
    refine (defined_copyText (by omega) (Q := True) fun errInfo ht => iff_true_intro ?_).trans (and_iff_left trivial)
    obtain ⟨ha, hc, -, -⟩ := ht
    exact decodePbData_defined hf (by omega) ha (hf.pbDataLen hpk hpos ha hc hi (by omega))

theorem decodeService_defined (hf : f.Bounds q) (hm : 0 ≤ pb.msgReqLen) (hpk : pb.pkLen = f.pkLen)
    (hpos : i = f.start + 9 + pb.msgReqLen) : Defined (decodeService q f pb cs i) ↔ ServiceReadable q f i := by
  have h0 := hf.start
  unfold decodeService ServiceReadable
  dsimp only
  split
  · rename_i hstop
    exact iff_of_true defined_ok (.inl (by omega))
  split
  · rename_i hstop
    exact iff_of_true defined_ok (.inl hstop)
  rename_i hstop
  rw [or_iff_right (show ¬ f.stop ≤ i + 4 by omega), defined_bind int32At_ne_thrown]
  refine exists_congr fun n => and_congr_right fun hn => ?_
  split
  · rename_i hbig
    exact iff_of_true defined_ok (.inl hbig)
  · rename_i hbig
    rw [or_iff_right (show ¬ f.pkLen < n from hbig)]
    refine defined_copyText (by omega) fun name ht => ?_
    have hn0 := ht.nonneg
    refine decodeErr_defined hf hpk ?_
    show i + 4 + n = f.start + 13 + pb.msgReqLen + n
    omega

theorem extract_defined (hf : f.Bounds q) (data : FlconcPbStruct) :
    Defined (extract q f data) ↔ FieldsReadable q f := by
  have h0 := hf.start
  unfold extract FieldsReadable
  dsimp only
  rw [show f.start + 1 + 4 = f.start + 5 by omega, show f.start + 5 + 4 = f.start + 9 by omega]
  split
  · rename_i hstop
    exact iff_of_true defined_ok (.inl hstop)
  · rename_i hstop
    rw [or_iff_right (show ¬ f.stop ≤ f.start + 5 by omega), defined_bind int32At_ne_thrown]
    refine exists_congr fun m => and_congr_right fun hm => ?_
    split
    · rename_i hz
      exact iff_of_true defined_ok (.inl hz)
    · rename_i hz
      rw [or_iff_right hz]
      exact defined_copyText (by omega) fun msgReq ht => decodeService_defined hf ht.nonneg rfl rfl

end

/-! ## Two buffers -/

/-- The frame of this length at offset `k`. -/
def Frame.ofOffset (k : Nat) (pkLen : Int) : Frame := ⟨k, k + pkLen - 1, pkLen⟩

/-- What the caller of `decode` sees: how many bytes it takes from the buffer, and the struct. -/
def decodeSeen (b : TcpBuffer) (data : FlconcPbStruct) : Except Fault (Int × FlconcPbStruct) :=
  (decode b data).map fun r => (b.readAble - r.1.readAble, r.2)

/-- The scan reads received bytes only, and what `decode` gives is defined, and the same for all buffers
with these received bytes; but for those with a read index so large that their own sums overflow. -/
structure LooksAtReceived (b : TcpBuffer) (data : FlconcPbStruct) : Prop where
  scan : ReadsReceived b
  defined : Defined (decode b data)
  same : ∀ b₂ : TcpBuffer, b₂.WF → b₂.readable = b.readable → ReadsReceived b₂ → decodeSeen b₂ data = decodeSeen b data

theorem FirstFrame.bounds {q : Bytes} {k : Nat} {L : Int} (h : FirstFrame q k L) (hq : q.length < 2 ^ 31) :
    (Frame.ofOffset k L).Bounds q := by
  have hs := byteAt_lt h.announces.start
  have he := byteAt_lt h.last
  exact ⟨hs.1, he.1, he.2, by show L = k + L - 1 - k + 1; omega, hq⟩

/-- Where the start bytes fit, `decode` consumes the first frame, and its struct is taken out at its offset. -/
theorem decode_received {b : TcpBuffer} (hb : b.WF) (hfit : StartsFit b) (data : FlconcPbStruct) :
    (decode b data = .ok (b, data) ∧ ∀ k L, ¬ FirstFrame b.readable k L) ∨
      ∃ (k : Nat) (L : Int) (b' : TcpBuffer), FirstFrame b.readable k L ∧ b'.readAble = b.readAble - L ∧
        decode b data =
          (extract b.buffer ((Frame.ofOffset k L).shift b.readIndex) data).map fun r => (b', r.1) := by
  rcases scan_received hb hfit with ⟨hs, hno⟩ | ⟨k, L, hfirst, hs⟩
  · refine .inl ⟨?_, hno⟩
    unfold decode
    rw [hs]
    rfl
  · have hframe : (Frame.ofOffset k L).shift b.readIndex = ⟨b.readIndex + k, b.readIndex + k + L - 1, L⟩ := by
      simp only [Frame.shift, Frame.ofOffset, Frame.mk.injEq, true_and, and_true]
      omega
    obtain ⟨b', hb', hdecode⟩ := decode_accepted hb hs
    obtain ⟨ha, hf, -⟩ := scan_accepts hb hs
    have hin : b.readIndex + k + L - 1 < b.writeIndex := ha.inside
    have hnext : b.readIndex + k + 1 < b.writeIndex := ha.next
    have hstop : 0 ≤ b.readIndex + k + L - 1 := hf.stop
    have hr := hb.read
    have hw := hb.write
    have hint := hb.size
    have hsize : b.readIndex + L ≤ b.getSize := by unfold TcpBuffer.getSize; omega
    have hleft := TcpBuffer.readAble_recycleRead hb.size (by omega) hsize hb'
    exact .inr ⟨k, L, b', hfirst, hleft, hframe ▸ hdecode data⟩

/-- What is seen is what the received bytes alone give, when the fields of the first frame lie in them. -/
theorem decodeSeen_eq {b : TcpBuffer} (hb : b.WF) (hfit : StartsFit b)
    (hfields : ∀ k L, FirstFrame b.readable k L → FieldsReadable b.readable (.ofOffset k L)) (data : FlconcPbStruct) :
    Defined (decode b data) ∧
      ((decodeSeen b data = .ok (0, data) ∧ ∀ k L, ¬ FirstFrame b.readable k L) ∨
        ∃ k L, FirstFrame b.readable k L ∧
          decodeSeen b data = (extract b.readable (.ofOffset k L) data).map fun r => (L, r.1)) := by
  unfold decodeSeen
  rcases decode_received hb hfit data with ⟨hd, hno⟩ | ⟨k, L, b', hfirst, hb', hd⟩
  · rw [hd]
    refine ⟨defined_ok, .inl ⟨?_, hno⟩⟩
    show Except.ok (b.readAble - b.readAble, data) = _
    rw [sub_self]
  · obtain ⟨p, s, hbuf, hr, hw⟩ := hb.split
    have hdef := (extract_defined (hfirst.bounds hb.length_lt) data).2 (hfields k L hfirst)
    have hext := extract_extends (p := p) (q := b.readable) (s := s) (f := .ofOffset k L) data
    rw [← hbuf, ← hr] at hext
    rw [hd, defined_map]
    match hq : extract b.readable (.ofOffset k L) data with
    | .error .memory => exact absurd hq hdef
    | .error .thrown =>
      rw [hq] at hext
      have hext : extract _ _ data = .error .thrown := hext
      rw [hext]
      exact ⟨nofun, .inr ⟨k, L, hfirst, by rw [hq]; rfl⟩⟩
    | .ok r =>
      rw [hq] at hext
      obtain ⟨a, ha, hstruct⟩ := hext
      have hstruct : a.1 = r.1 := hstruct
      rw [ha]
      refine ⟨defined_ok, .inr ⟨k, L, hfirst, ?_⟩⟩
      rw [hq]
      show Except.ok (b.readAble - b'.readAble, a.1) = Except.ok (L, r.1)
      rw [hstruct, hb', sub_sub_cancel]

/-- The received bytes with nothing around them. -/
def tight (q : Bytes) : TcpBuffer := ⟨q, 0, q.length⟩

theorem tight_wf {q : Bytes} (hq : q.length < 2 ^ 31) : (tight q).WF :=
  ⟨le_rfl, Int.natCast_nonneg _, le_rfl, hq⟩

theorem tight_readable (q : Bytes) : (tight q).readable = q := by
  simp [TcpBuffer.readable, TcpBuffer.readAble, tight]

theorem StartsFit.tight {b : TcpBuffer} (hb : b.WF) (h : StartsFit b) : StartsFit (tight b.readable) := by
  unfold StartsFit
  rw [tight_readable]
  intro k hk hno hs hk'
  obtain ⟨L, hL, hpos, hlt⟩ := h k hk hno hs hk'
  have h0 := hb.read
  exact ⟨L, hL, hpos, by show (0 : Int) + k + L < 2 ^ 31; omega⟩

/-- Nothing but the received bytes matters exactly when the start bytes fit and the fields of the first
frame lie in the received bytes. -/
theorem looksAtReceived_iff {b : TcpBuffer} (hb : b.WF) (data : FlconcPbStruct) :
    LooksAtReceived b data ↔
      StartsFit b ∧ ∀ k L, FirstFrame b.readable k L → FieldsReadable b.readable (.ofOffset k L) := by
  constructor
  · rintro ⟨hscan, hdef, hsame⟩
    have hfit := (readsReceived_iff hb).1 hscan
    have ht := tight_wf hb.length_lt
    have hr := tight_readable b.readable
    have hfit' := hfit.tight hb
    refine ⟨hfit, fun k L hfirst => ?_⟩
    -- without the stale bytes `decode` is still defined
    have hsame' := hsame _ ht hr ((readsReceived_iff ht).2 hfit')
    have hdef' : Defined (decode (tight b.readable) data) := by
      rw [← defined_map, ← decodeSeen, hsame', decodeSeen, defined_map]
      exact hdef
    rcases decode_received ht hfit' data with ⟨-, hno⟩ | ⟨k', L', b', hfirst', -, hd⟩
    · rw [hr] at hno
      exact absurd hfirst (hno k L)
    · rw [hr] at hfirst'
      obtain ⟨rfl, rfl⟩ := hfirst.unique hfirst'
      rw [hd, defined_map] at hdef'
      have hshift : (Frame.ofOffset k L).shift (tight b.readable).readIndex = .ofOffset k L := by
        simp [Frame.shift, tight]
      rw [hshift] at hdef'
      exact (extract_defined (hfirst.bounds hb.length_lt) data).1 hdef'
  · rintro ⟨hfit, hfields⟩
    obtain ⟨hdef, hseen⟩ := decodeSeen_eq hb hfit hfields data
    refine ⟨(readsReceived_iff hb).2 hfit, hdef, fun b₂ hb₂ hr hscan₂ => ?_⟩
    obtain ⟨-, hseen₂⟩ := decodeSeen_eq hb₂ ((readsReceived_iff hb₂).1 hscan₂) (hr ▸ hfields) data
    rw [hr] at hseen₂
    rcases hseen with ⟨h, hno⟩ | ⟨k, L, hfirst, h⟩ <;> rcases hseen₂ with ⟨h₂, hno₂⟩ | ⟨k₂, L₂, hfirst₂, h₂⟩
    · rw [h, h₂]
    · exact absurd hfirst₂ (hno k₂ L₂)
    · exact absurd hfirst (hno₂ k L)
    · obtain ⟨rfl, rfl⟩ := hfirst.unique hfirst₂
      rw [h, h₂]

/-- A packet between stale bytes. -/
def amongStale : TcpBuffer :=
  ⟨[0x02, 0x03] ++ (packet { msgReq := [0x31], serviceFullName := [0x53], pbData := [0x70] } ++ [0x02]), 2, 31⟩

theorem looksAtReceived_amongStale : LooksAtReceived amongStale {} ↔ StartsFit amongStale ∧
    ∀ k L, FirstFrame amongStale.readable k L → FieldsReadable amongStale.readable (.ofOffset k L) :=
  looksAtReceived_iff (b := amongStale) ⟨by decide, by decide, by decide, by decide⟩ {}

/-- The first two bytes of a packet, in a buffer with free bytes. -/
def twoBytes : TcpBuffer := ⟨[PB_START, 0, 0, 0, 0, 0, 0, 0], 0, 2⟩

/-- The length is read past the write index; it is 0, and leads to the byte before the vector. -/
theorem not_looksAtReceived_twoBytes : ¬ ∀ (b : TcpBuffer) (data : FlconcPbStruct), b.WF → LooksAtReceived b data := by
  intro h
  have hscan := (h twoBytes {} ⟨by decide, by decide, by decide, by decide⟩).scan
  have hread : (1 : Int) + 4 ≤ 2 := (hscan (.readInt 1) (by decide +kernel)).2
  omega

end Flconc.FlconcPb
