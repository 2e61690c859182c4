/-
Which bytes of the buffer `decode` looks at. The scan reads four bytes behind every start byte it comes
to, and the byte the announced length leads to, and checks these positions against the write index
only in part. On the received bytes it stays exactly when every start byte it comes to has its length
among them, and the length leads neither back before the read index nor out of an `int`.

A scan that stays there gives the same for all buffers with the same readable bytes, and so does
`decode` when the fields of the accepted frame stay there, too.
-/
import Flconc.FlconcPb.Consumed

namespace Flconc.FlconcPb

open Wire

/-! ## The scan with what it reads -/

/-- What the scan does besides comparing: it reads a byte, or the four bytes of a length, and adds. -/
inductive ScanStep
  | read (i : Int)
  | readInt (i : Int)
  | sum (x : Int)
  deriving DecidableEq

/-- The positions are received bytes, the sum is an `int`. -/
def ScanStep.Inside (readIndex writeIndex : Int) : ScanStep → Prop
  | .read i => readIndex ≤ i ∧ i < writeIndex
  | .readInt i => readIndex ≤ i ∧ i + 4 ≤ writeIndex
  | .sum x => InInt32 x

/-- A computation with the steps it takes. -/
abbrev Logged (α : Type) := List ScanStep × Except Fault α

def Logged.bind {α β : Type} (x : Logged α) (k : α → Logged β) : Logged β :=
  match x.2 with
  | .error e => (x.1, .error e)
  | .ok a => (x.1 ++ (k a).1, (k a).2)

def readLogged (tmp : Bytes) (i : Int) : Logged UInt8 := ([.read i], byteAt tmp i)

def readIntLogged (tmp : Bytes) (i : Int) : Logged Int := ([.readInt i], int32At tmp i)

/-- `i + pk_len - 1`. -/
def stopLogged (i pkLen : Int) : Logged Int := ([.sum (i + pkLen), .sum (i + pkLen - 1)], .ok (wrap32 (i + pkLen - 1)))

/-- `scanFrom` with its steps. -/
def scanLogged (tmp : Bytes) (writeIndex : Int) : Int → Nat → Logged (Option Frame)
  | _, 0 => ([], .ok none)
  | i, n + 1 =>
    (readLogged tmp i).bind fun c =>
      if c = PB_START ∧ i + 1 < writeIndex then
        (readIntLogged tmp (i + 1)).bind fun pkLen =>
        (stopLogged i pkLen).bind fun j =>
          if j ≥ writeIndex then scanLogged tmp writeIndex (i + 1) n
          else
            (readLogged tmp j).bind fun e =>
              if e = PB_END then ([], .ok (some ⟨i, j, pkLen⟩)) else scanLogged tmp writeIndex (i + 1) n
      else scanLogged tmp writeIndex (i + 1) n

theorem Logged.bind_snd {α β : Type} (x : Logged α) (k : α → Logged β) :
    (x.bind k).2 = x.2 >>= fun a => (k a).2 := by
  unfold Logged.bind
  cases x.2 <;> rfl

/-- The steps are those of the scan. -/
theorem scanLogged_snd (tmp : Bytes) (w : Int) : ∀ (n : Nat) (i : Int),
    (scanLogged tmp w i n).2 = scanFrom tmp w i n
  | 0, _ => rfl
  | n + 1, i => by
    have ih := scanLogged_snd tmp w n (i + 1)
    unfold scanLogged scanFrom
    rw [Logged.bind_snd]
    show (byteAt tmp i >>= _) = _
    congr 1
    funext c
    by_cases hc : c = PB_START ∧ i + 1 < w
    · rw [if_pos hc, if_pos hc, Logged.bind_snd]
      show (int32At tmp (i + 1) >>= _) = _
      congr 1
      funext L
      rw [Logged.bind_snd]
      show (if wrap32 (i + L - 1) ≥ w then scanLogged tmp w (i + 1) n else _).2 = _
      dsimp only
      split
      · exact ih
      · rw [Logged.bind_snd]
        show (byteAt tmp (wrap32 (i + L - 1)) >>= _) = _
        congr 1
        funext e
        split
        · rfl
        · exact ih
    · rw [if_neg hc, if_neg hc, ih]

/-- The steps of the scan of a buffer. -/
def scanSteps (b : TcpBuffer) : List ScanStep :=
  (scanLogged b.buffer b.writeIndex b.readIndex b.readAble.toNat).1

/-- The scan reads received bytes only, and its sums do not overflow. -/
def ReadsReceived (b : TcpBuffer) : Prop := ∀ s ∈ scanSteps b, s.Inside b.readIndex b.writeIndex

/-! ## The condition on the received bytes -/

/-- At offset `k` of the received bytes a length is announced. -/
structure Announces (q : Bytes) (k : Nat) (pkLen : Int) : Prop where
  start : byteAt q k = .ok PB_START
  length : int32At q (k + 1) = .ok pkLen

/-- The start byte at offset `k` has its length among the received bytes, and this leads neither back
before them nor, from the read index on, out of an `int`. -/
def StartFits (readIndex : Int) (q : Bytes) (k : Nat) : Prop :=
  byteAt q k = .ok PB_START → k + 1 < q.length →
    ∃ pkLen, int32At q (k + 1) = .ok pkLen ∧ 1 ≤ k + pkLen ∧ readIndex + k + pkLen < 2 ^ 31

/-- The frame that starts at offset `k` ends with an end byte. -/
def EndsFrame (q : Bytes) (k : Nat) : Prop :=
  ∃ pkLen, Announces q k pkLen ∧ byteAt q (k + pkLen - 1) = .ok PB_END

/-- Every start byte up to the first frame fits. -/
def StartsFit (b : TcpBuffer) : Prop :=
  ∀ k < b.readable.length, (∀ k' < k, ¬ EndsFrame b.readable k') → StartFits b.readIndex b.readable k

theorem Logged.forall_bind {α β : Type} {P : ScanStep → Prop} (x : Logged α) (k : α → Logged β) :
    (∀ s ∈ (x.bind k).1, P s) ↔ (∀ s ∈ x.1, P s) ∧ ∀ a, x.2 = .ok a → ∀ s ∈ (k a).1, P s := by
  unfold Logged.bind
  cases hx : x.2 with
  | error e => simp
  | ok a =>
    simp only [List.mem_append, Except.ok.injEq, forall_eq']
    constructor
    · intro h
      exact ⟨fun s hs => h s (.inl hs), fun s hs => h s (.inr hs)⟩
    · rintro ⟨h1, h2⟩ s (hs | hs)
      · exact h1 s hs
      · exact h2 s hs

/-- The steps of one round, and of the rounds behind it. -/
theorem forall_scanLogged_succ {P : ScanStep → Prop} {tmp : Bytes} {w i : Int} {n : Nat} {c : UInt8}
    (hc : byteAt tmp i = .ok c) :
    (∀ s ∈ (scanLogged tmp w i (n + 1)).1, P s) ↔ P (.read i) ∧
      if c = PB_START ∧ i + 1 < w then
        P (.readInt (i + 1)) ∧ ∀ L, int32At tmp (i + 1) = .ok L → P (.sum (i + L)) ∧ P (.sum (i + L - 1)) ∧
          if wrap32 (i + L - 1) ≥ w then ∀ s ∈ (scanLogged tmp w (i + 1) n).1, P s
          else P (.read (wrap32 (i + L - 1))) ∧ ∀ e, byteAt tmp (wrap32 (i + L - 1)) = .ok e → e ≠ PB_END →
            ∀ s ∈ (scanLogged tmp w (i + 1) n).1, P s
      else ∀ s ∈ (scanLogged tmp w (i + 1) n).1, P s := by
  rw [scanLogged, Logged.forall_bind]
  simp only [readLogged, hc, List.mem_singleton, forall_eq, Except.ok.injEq, forall_eq']
  refine and_congr_right fun _ => ?_
  split
  · rw [Logged.forall_bind]
    simp only [readIntLogged, List.mem_singleton, forall_eq]
    refine and_congr_right fun _ => forall₂_congr fun L _ => ?_
    rw [Logged.forall_bind]
    simp only [stopLogged, List.mem_cons, List.not_mem_nil, or_false, forall_eq_or_imp, forall_eq, Except.ok.injEq,
      forall_eq', and_assoc]
    refine and_congr_right fun _ => and_congr_right fun _ => ?_
    split
    · exact Iff.rfl
    · rw [Logged.forall_bind]
      simp only [List.mem_singleton, forall_eq]
      refine and_congr_right fun _ => forall₂_congr fun e _ => ?_
      by_cases he : e = PB_END <;> simp [he]
  · exact Iff.rfl

/-- The start bytes from offset `k` on fit, up to the first frame from there. -/
def FitFrom (readIndex : Int) (q : Bytes) (k : Nat) : Prop :=
  ∀ m, k ≤ m → m < q.length → (∀ k', k ≤ k' → k' < m → ¬ EndsFrame q k') → StartFits readIndex q m

theorem fitFrom_succ {r : Int} {q : Bytes} {k : Nat} (hk : k < q.length) :
    FitFrom r q k ↔ StartFits r q k ∧ (¬ EndsFrame q k → FitFrom r q (k + 1)) := by
  constructor
  · intro h
    refine ⟨h k le_rfl hk fun k' h1 h2 => by omega, fun hno m h1 h2 h3 => ?_⟩
    refine h m (by omega) h2 fun k' h4 h5 => ?_
    by_cases hkk : k' = k
    · exact hkk ▸ hno
    · exact h3 k' (by omega) h5
  · rintro ⟨h, hrest⟩ m h1 h2 h3
    by_cases hkm : m = k
    · exact hkm ▸ h
    · exact hrest (h3 k le_rfl (by omega)) m (by omega) h2 fun k' h4 h5 => h3 k' (by omega) h5

section

variable {p q s : Bytes} {k : Nat}

theorem int32At_received {L : Int} (hL : int32At q (k + 1) = .ok L) :
    int32At (p ++ (q ++ s)) (p.length + k + 1) = .ok L := by
  obtain ⟨h0, h1, -⟩ := int32At_bounds hL
  rw [Int.add_assoc, int32At_inside h0 h1]
  exact hL

theorem byteAt_received {j : Int} {c : UInt8} (hc : byteAt q j = .ok c) :
    byteAt (p ++ (q ++ s)) (p.length + j) = .ok c := by
  obtain ⟨h0, h1⟩ := byteAt_lt hc
  rw [byteAt_inside h0 h1]
  exact hc

/-- The byte that a length leads to. -/
theorem lastAt_received {L : Int} {e : UInt8} (he : byteAt q (k + L - 1) = .ok e) :
    byteAt (p ++ (q ++ s)) (p.length + k + L - 1) = .ok e := by
  rw [show (p.length : Int) + k + L - 1 = p.length + (k + L - 1) by omega]
  exact byteAt_received he

/-- A start byte with a byte behind it: the round stays inside when it fits. -/
theorem round_inside_iff (hk : byteAt q k = .ok PB_START) (hk' : k + 1 < q.length) {rest : Prop} :
    ((ScanStep.readInt (p.length + k + 1)).Inside p.length (p.length + q.length) ∧
      ∀ L, int32At (p ++ (q ++ s)) (p.length + k + 1) = .ok L →
        (ScanStep.sum (p.length + k + L)).Inside p.length (p.length + q.length) ∧
        (ScanStep.sum (p.length + k + L - 1)).Inside p.length (p.length + q.length) ∧
        if wrap32 (p.length + k + L - 1) ≥ (p.length + q.length : Int) then rest
        else (ScanStep.read (wrap32 (p.length + k + L - 1))).Inside p.length (p.length + q.length) ∧
          ∀ e, byteAt (p ++ (q ++ s)) (wrap32 (p.length + k + L - 1)) = .ok e → e ≠ PB_END → rest) ↔
      StartFits p.length q k ∧ (¬ EndsFrame q k → rest) := by
  constructor
  · rintro ⟨⟨-, hread⟩, hall⟩
    obtain ⟨L, hL⟩ := int32At_isOk (t := q) (i := k + 1) (by omega) (by omega)
    obtain ⟨h1, h2, h3⟩ := hall L (int32At_received hL)
    rw [wrap32_of_inInt32 h2] at h3
    have hpos : 1 ≤ k + L := by
      by_contra hneg
      rw [if_neg (by omega)] at h3
      have hback : (p.length : Int) ≤ p.length + k + L - 1 := h3.1.1
      omega
    refine ⟨fun _ _ => ⟨L, hL, hpos, h1.2⟩, fun hno => ?_⟩
    split at h3
    · exact h3
    · obtain ⟨e, he⟩ := byteAt_isOk (t := q) (i := k + L - 1) (by omega) (by omega)
      exact h3.2 e (lastAt_received he) fun heq => hno ⟨L, ⟨hk, hL⟩, heq ▸ he⟩
  · rintro ⟨hfit, hrest⟩
    obtain ⟨L, hL, hpos, hlt⟩ := hfit hk hk'
    obtain ⟨-, hb, -⟩ := int32At_bounds hL
    have hin : InInt32 (p.length + k + L) := ⟨by omega, hlt⟩
    have hin' : InInt32 (p.length + k + L - 1) := ⟨by omega, by omega⟩
    refine ⟨⟨by omega, by omega⟩, fun L' hL' => ?_⟩
    obtain rfl : L' = L := Except.ok.inj (hL'.symm.trans (int32At_received hL))
    have hno : byteAt q (k + L' - 1) ≠ .ok PB_END → ¬ EndsFrame q k := by
      rintro hne ⟨L, ⟨-, hL₂⟩, hend⟩
      obtain rfl : L = L' := Except.ok.inj (hL₂.symm.trans hL)
      exact hne hend
    refine ⟨hin, hin', ?_⟩
    rw [wrap32_of_inInt32 hin']
    split
    · refine hrest (hno fun hend => ?_)
      have := byteAt_lt hend
      omega
    · refine ⟨⟨by omega, by omega⟩, fun e he hne => hrest (hno fun hend => hne ?_)⟩
      exact Except.ok.inj (he.symm.trans (lastAt_received hend))

/-- The rounds from offset `k` on stay inside when the start bytes from there on fit. -/
theorem scanLogged_inside_iff : ∀ (n k : Nat), k + n = q.length →
    ((∀ st ∈ (scanLogged (p ++ (q ++ s)) (p.length + q.length) (p.length + k) n).1,
      st.Inside p.length (p.length + q.length)) ↔ FitFrom p.length q k)
  | 0, k, hn => by
    refine iff_of_true (by simp [scanLogged]) fun m h1 h2 => ?_
    omega
  | n + 1, k, hn => by
    have ih := scanLogged_inside_iff n (k + 1) (by omega)
    have hnext : (p.length : Int) + (k + 1 : Nat) = p.length + k + 1 := by omega
    rw [hnext] at ih
    obtain ⟨c, hc⟩ := byteAt_isOk (t := q) (i := k) (by omega) (by omega)
    have hread : (ScanStep.read (p.length + k)).Inside p.length (p.length + q.length) := ⟨by omega, by omega⟩
    rw [forall_scanLogged_succ (byteAt_received hc), fitFrom_succ (by omega), ih]
    by_cases hs : c = PB_START ∧ k + 1 < q.length
    · obtain ⟨rfl, hk'⟩ := hs
      rw [if_pos ⟨rfl, by omega⟩, and_iff_right hread]
      exact round_inside_iff hc hk'
    · rw [if_neg fun h => hs ⟨h.1, by omega⟩, and_iff_right hread]
      have hno : ¬ EndsFrame q k := by
        rintro ⟨L, ⟨hstart, hL⟩, -⟩
        have := int32At_bounds hL
        exact hs ⟨Except.ok.inj (hc.symm.trans hstart), by omega⟩
      have hfit : StartFits p.length q k := fun hstart hk' =>
        absurd ⟨Except.ok.inj (hc.symm.trans hstart), hk'⟩ hs
      exact ⟨fun h => ⟨hfit, fun _ => h⟩, fun h => h.2 hno⟩

end

/-- The scan reads received bytes only exactly when the start bytes fit. -/
theorem readsReceived_iff {b : TcpBuffer} (hb : b.WF) : ReadsReceived b ↔ StartsFit b := by
  obtain ⟨p, s, hbuf, hr, hw⟩ := hb.split
  have hl := TcpBuffer.length_readable hb
  have hn : b.readAble.toNat = b.readable.length := by omega
  have h := scanLogged_inside_iff (p := p) (q := b.readable) (s := s) b.readable.length 0 (by omega)
  unfold ReadsReceived scanSteps StartsFit
  rw [hbuf, hr, hw, hn]
  have h0 : (p.length : Int) + (0 : Nat) = p.length := by omega
  rw [h0] at h
  rw [h]
  unfold FitFrom
  simp only [Nat.zero_le, forall_true_left]

/-! ## The first frame -/

/-- At offset `k` of the received bytes starts the first frame. -/
structure FirstFrame (q : Bytes) (k : Nat) (pkLen : Int) : Prop where
  before : ∀ k' < k, ¬ EndsFrame q k'
  announces : Announces q k pkLen
  last : byteAt q (k + pkLen - 1) = .ok PB_END

theorem FirstFrame.unique {q : Bytes} {k k' : Nat} {L L' : Int} (h : FirstFrame q k L) (h' : FirstFrame q k' L') :
    k = k' ∧ L = L' := by
  have hk : k = k' := by
    rcases Nat.lt_trichotomy k k' with hlt | heq | hlt
    · exact absurd ⟨L, h.announces, h.last⟩ (h'.before k hlt)
    · exact heq
    · exact absurd ⟨L', h'.announces, h'.last⟩ (h.before k' hlt)
  subst hk
  exact ⟨rfl, Except.ok.inj (h.announces.length.symm.trans h'.announces.length)⟩

section

variable {p q s : Bytes}

/-- Where the start bytes fit, the scan passes what is no frame and accepts the first one. -/
theorem scanFrom_received : ∀ (n k : Nat), k + n = q.length → FitFrom p.length q k →
    (scanFrom (p ++ (q ++ s)) (p.length + q.length) (p.length + k) n = .ok none ∧
        ∀ m, k ≤ m → m < q.length → ¬ EndsFrame q m) ∨
      ∃ (m : Nat) (L : Int), scanFrom (p ++ (q ++ s)) (p.length + q.length) (p.length + k) n =
          .ok (some ⟨p.length + m, p.length + m + L - 1, L⟩) ∧
        (∀ k', k ≤ k' → k' < m → ¬ EndsFrame q k') ∧ Announces q m L ∧ byteAt q (m + L - 1) = .ok PB_END
  | 0, k, hn, _ => .inl ⟨rfl, fun m h1 h2 => by omega⟩
  | n + 1, k, hn, hfit => by
    have hk : k < q.length := by omega
    obtain ⟨hstart, hrest⟩ := (fitFrom_succ hk).1 hfit
    by_cases hend : EndsFrame q k
    · obtain ⟨L, ⟨hs, hL⟩, hlast⟩ := hend
      obtain ⟨-, h5, -⟩ := int32At_bounds hL
      obtain ⟨L', hL', hpos, hlt⟩ := hstart hs (by omega)
      obtain rfl : L = L' := Except.ok.inj (hL.symm.trans hL')
      have hj : wrap32 (p.length + k + L - 1) = p.length + k + L - 1 := wrap32_of_inInt32 ⟨by omega, by omega⟩
      have hbound := byteAt_lt hlast
      refine .inr ⟨k, L, ?_, fun k' h1 h2 => by omega, ⟨hs, hL⟩, hlast⟩
      rw [scanFrom_start (byteAt_received hs) (by omega) (int32At_received hL), hj, if_neg (by omega),
        lastAt_received hlast]
      rfl
    · have hskip : SkipsAt (p ++ (q ++ s)) (p.length + q.length) (p.length + k) := by
        obtain ⟨c, hc⟩ := byteAt_isOk (t := q) (i := k) (by omega) (by omega)
        refine ⟨c, byteAt_received hc, fun hcs hnext => ?_⟩
        subst hcs
        obtain ⟨L, hL, hpos, hlt⟩ := hstart hc (by omega)
        have hj : wrap32 (p.length + k + L - 1) = p.length + k + L - 1 := wrap32_of_inInt32 ⟨by omega, by omega⟩
        refine ⟨L, int32At_received hL, ?_⟩
        rw [hj]
        rcases lt_or_ge (k + L - 1) (q.length : Int) with hin | hout
        · obtain ⟨e, he⟩ := byteAt_isOk (t := q) (i := k + L - 1) (by omega) hin
          exact .inr ⟨e, lastAt_received he, fun heq => hend ⟨L, ⟨hc, hL⟩, heq ▸ he⟩⟩
        · exact .inl (by omega)
      have hnext : (p.length : Int) + k + 1 = p.length + (k + 1 : Nat) := by omega
      have split : ∀ k', k ≤ k' → ¬ (k + 1 ≤ k') → ¬ EndsFrame q k' := fun k' h1 h2 =>
        show k' = k by omega ▸ hend
      rw [scanFrom_skip hskip, hnext]
      rcases scanFrom_received n (k + 1) (by omega) (hrest hend) with ⟨h, hno⟩ | ⟨m, L, h, hno, hfirst⟩
      · refine .inl ⟨h, fun m h1 h2 => ?_⟩
        by_cases hm : k + 1 ≤ m
        · exact hno m hm h2
        · exact split m h1 hm
      · refine .inr ⟨m, L, h, fun k' h1 h2 => ?_, hfirst⟩
        by_cases hm : k + 1 ≤ k'
        · exact hno k' hm h2
        · exact split k' h1 hm

end

/-- A scan that stays on the received bytes accepts the first frame among them. -/
theorem scan_received {b : TcpBuffer} (hb : b.WF) (hfit : StartsFit b) :
    (scan b = .ok none ∧ ∀ k L, ¬ FirstFrame b.readable k L) ∨
      ∃ (k : Nat) (L : Int), FirstFrame b.readable k L ∧
        scan b = .ok (some ⟨b.readIndex + k, b.readIndex + k + L - 1, L⟩) := by
  obtain ⟨p, s, hbuf, hr, hw⟩ := hb.split
  have hl := TcpBuffer.length_readable hb
  have hn : b.readAble.toNat = b.readable.length := by omega
  have h0 : (p.length : Int) + (0 : Nat) = p.length := by omega
  have hfrom : FitFrom p.length b.readable 0 := fun m _ h2 h3 =>
    hr ▸ hfit m h2 fun k' hk' => h3 k' (Nat.zero_le _) hk'
  have h := scanFrom_received (s := s) b.readable.length 0 (by omega) hfrom
  unfold scan
  rw [hn, hw, hr, hbuf]
  rw [h0] at h
  rcases h with ⟨h, hno⟩ | ⟨k, L, h, hno, hann, hlast⟩
  · refine .inl ⟨h, fun k L hf => hno k (Nat.zero_le _) ?_ ⟨L, hf.announces, hf.last⟩⟩
    have := byteAt_lt hf.announces.start
    omega
  · exact .inr ⟨k, L, ⟨fun k' hk' => hno k' (Nat.zero_le _) hk', hann, hlast⟩, h⟩

end Flconc.FlconcPb
