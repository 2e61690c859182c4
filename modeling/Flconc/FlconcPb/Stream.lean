/-
Stream decoding under fragmentation. A peer's packets arrive as chunks, cut anywhere; each chunk is
read into the buffer and `execute` runs. The scan goes on past a packet that is not complete yet, so
it depends on the bytes behind its start whether the unfinished packet is left alone: what is handed
on is the sent list, in order, in every run in which each unfinished packet is `Quiet`.
-/
import Flconc.FlconcPb.Pipeline
import Flconc.Lib.Run
import Flconc.Net.Execute
import Flconc.Net.Input
import Mathlib.Data.List.Forall2

namespace Flconc.FlconcPb

open Wire

/-! ## The connection -/

/-- A connection's reading side. `received` is history: the bytes that have arrived. -/
structure Conn where
  buf : TcpBuffer
  handed : List Data
  executing : Bool
  fault : Option Fault
  received : Bytes
  deriving DecidableEq

def Conn.start (size : Nat) : Conn := ⟨.ofSize size, [], false, none, []⟩

inductive ConnAct
  /-- The next bytes of the stream arrive and are read, and `execute` is entered. -/
  | chunk (bs : Bytes)
  /-- One round of `execute`. -/
  | round
  deriving DecidableEq

/-- A connection whose peer sends the packets `ps`. -/
def connStep (ps : List Packet) (s : Conn) : ConnAct → Option Conn
  | .chunk bs =>
    if s.executing = false ∧ s.fault = none ∧ s.received ++ bs <+: stream ps then
      match fill s.buf bs with
      | .ok buf => some { s with buf := buf, executing := true, received := s.received ++ bs }
      | .error e => some { s with fault := some e }
    else none
  | .round =>
    if s.executing = true then
      match executeRound .flconcPb ⟨s.buf, s.handed⟩ with
      | .inl r => some { s with buf := r.buf, handed := r.handed }
      | .inr (.ok r) => some { s with buf := r.buf, handed := r.handed, executing := false }
      | .inr (.error e) => some { s with executing := false, fault := some e }
    else none

/-- The packet was handed on as `d`. -/
def HandedAs (p : Packet) (d : Data) : Prop := ∃ r, d = .flconcPb r ∧ Reads p.1 r

/-- Nothing went wrong; what was handed on is the beginning of what was sent; once `execute` has
returned it is everything that has arrived completely; and `execute` does return. -/
structure Faithful (ps : List Packet) (s : Conn) : Prop where
  noFault : s.fault = none
  inOrder : List.Forall₂ HandedAs (ps.take s.handed.length) s.handed
  complete : s.executing = false →
    ∀ k ≤ ps.length, stream (ps.take k) <+: s.received → k ≤ s.handed.length
  ends : Loop.Ends (executeRound .flconcPb) ⟨s.buf, s.handed⟩

/-! ## The condition -/

/-- The readable bytes have the length of their first packet, and as many bytes. -/
def Whole (b : TcpBuffer) : Prop :=
  5 ≤ b.readAble ∧ ∃ L, int32At b.readable 1 = .ok L ∧ L ≤ b.readAble

/-- The scan passes every readable index, or first meets a start byte whose length is zero behind an
end byte: a frame of no bytes, which it rejects. -/
def Quiet (b : TcpBuffer) : Prop :=
  (∀ i, b.readIndex ≤ i → i < b.writeIndex → SkipsAt b.buffer b.writeIndex i) ∨
    ∃ f, Accepts b.buffer b.writeIndex f ∧ f.pkLen = 0 ∧ b.readIndex ≤ f.start ∧
      ∀ i, b.readIndex ≤ i → i < f.start → SkipsAt b.buffer b.writeIndex i

instance (b : TcpBuffer) : Decidable (Whole b) :=
  have : Decidable (∃ L, int32At b.readable 1 = .ok L ∧ L ≤ b.readAble) :=
    match h : int32At b.readable 1 with
    | .ok L => decidable_of_iff (L ≤ b.readAble) (by simp)
    | .error _ => .isFalse fun ⟨_, hL, _⟩ => nomatch hL
  inferInstanceAs (Decidable (_ ∧ _))

/-- Quiet bytes are those in which the scan finds no frame, or one without bytes. -/
theorem quiet_iff_scan {b : TcpBuffer} : Quiet b ↔ ∃ o, scan b = .ok o ∧ ∀ f ∈ o, f.pkLen = 0 := by
  have hn : b.readIndex ≤ b.writeIndex → b.readIndex + (b.readAble.toNat : Nat) = b.writeIndex := by
    unfold TcpBuffer.readAble
    omega
  constructor
  · rintro (hall | ⟨f, ha, hf, hs1, hskip⟩)
    · refine ⟨none, ?_, nofun⟩
      unfold scan
      rw [← Nat.add_zero b.readAble.toNat, scanFrom_skips fun k hk1 hk2 => hall k hk1 (by
        unfold TcpBuffer.readAble at hk2
        omega)]
      rfl
    · refine ⟨some f, ?_, fun g hg => Option.mem_some.1 hg ▸ hf⟩
      obtain ⟨m, hm⟩ : ∃ m : Nat, f.start = b.readIndex + m := ⟨(f.start - b.readIndex).toNat, by omega⟩
      have hnext := ha.next
      obtain ⟨n, hn'⟩ : ∃ n : Nat, b.readAble.toNat = m + (n + 1) := ⟨b.readAble.toNat - m - 1, by omega⟩
      unfold scan
      rw [hn', scanFrom_skips fun k hk1 hk2 => hskip k hk1 (by omega), ← hm,
        scanFrom_start ha.start ha.next ha.length, ← ha.stop, if_neg (not_le.2 ha.inside), ha.last]
      rfl
  · rintro ⟨o, ho, hf⟩
    cases o with
    | none =>
      refine .inl fun i hi1 hi2 => scanFrom_none ho i hi1 ?_
      have := hn (by omega)
      omega
    | some f =>
      obtain ⟨ha, hs1, -, hskip⟩ := scanFrom_some ho
      exact .inr ⟨f, ha, hf f rfl, hs1, hskip⟩

instance (b : TcpBuffer) : Decidable (Quiet b) :=
  have : Decidable (∃ o, scan b = .ok o ∧ ∀ f ∈ o, f.pkLen = 0) :=
    match h : scan b with
    | .ok o => decidable_of_iff (∀ f ∈ o, f.pkLen = 0) (by simp)
    | .error _ => .isFalse fun ⟨_, ho, _⟩ => nomatch ho
  decidable_of_iff' _ quiet_iff_scan

/-- The buffer does not have to outgrow 2^30 bytes, and `decode` is called on a whole packet or quiet
bytes. -/
def KeepsQuiet (s : Conn) : ConnAct → Prop
  | .chunk bs => HasRoom s.buf bs.length
  | .round => 0 < s.buf.readAble → Whole s.buf ∨ Quiet s.buf

instance (s : Conn) : (a : ConnAct) → Decidable (KeepsQuiet s a)
  | .chunk _ => inferInstanceAs (Decidable (HasRoom _ _))
  | .round => inferInstanceAs (Decidable (_ → _ ∨ _))

/-- A frame without bytes consumes nothing and is rejected. -/
theorem decode_empty_frame {b : TcpBuffer} (hb : b.WF) (hc : b.Compact) {f : Frame}
    (hs : scan b = .ok (some f)) (hf : f.pkLen = 0) :
    ∃ d, decode b {} = .ok (b, d) ∧ d.decodeSucc = false := by
  obtain ⟨-, hbd, -⟩ := scan_accepts hb hs
  have hlen := hbd.length
  have hn : f.stop + 1 - f.start = 0 := by omega
  have hr : b.recycleRead (f.stop + 1 - f.start) = .ok b := by
    have h0 := hb.read
    have h1 := hb.order
    have h2 := hb.write
    rw [hn, TcpBuffer.recycleRead_move hb.size (by omega) (by unfold TcpBuffer.getSize; omega), Int.add_zero]
    exact hc.adjustBuffer
  have hx : extract b.buffer f {} = .ok ({ pkLen := f.pkLen }, []) := by
    unfold extract
    dsimp only
    rw [if_pos (by omega)]
  refine ⟨{ pkLen := f.pkLen }, ?_, rfl⟩
  unfold decode
  rw [hs, ok_bind]
  dsimp only
  rw [hr, ok_bind, hx]
  rfl

/-- `decode` fails and leaves the buffer as it is exactly on quiet bytes. -/
theorem decode_quiet_iff {b : TcpBuffer} (hb : b.WF) (hc : b.Compact) :
    (∃ d, decode b {} = .ok (b, d) ∧ d.decodeSucc = false) ↔ Quiet b := by
  rw [quiet_iff_scan]
  constructor
  · rintro ⟨d, hd, -⟩
    unfold decode at hd
    obtain ⟨o, ho, hd⟩ := bind_eq_ok.1 hd
    refine ⟨o, ho, fun f hf => ?_⟩
    obtain rfl := Option.mem_def.1 hf
    obtain ⟨b₁, hb₁, hd⟩ := bind_eq_ok.1 hd
    obtain ⟨⟨r, cs⟩, -, hd⟩ := bind_eq_ok.1 hd
    cases hd
    obtain ⟨ha, hbd, hs1⟩ := scan_accepts hb ho
    have hlen := hbd.length
    have hin := ha.inside
    have hw := hb.write
    -- the buffer has as many readable bytes as before, so nothing was consumed
    have hr := hb.read
    have horder := hb.order
    have hint := hb.size
    have hstop := hbd.stop
    have hnext := ha.next
    have hcur : b.readIndex + (f.stop + 1 - f.start) ≤ b.getSize := by unfold TcpBuffer.getSize; omega
    have hra := TcpBuffer.readAble_recycleRead hb.size (by omega) hcur hb₁
    unfold TcpBuffer.readAble at hra
    omega
  · rintro ⟨o, ho, hf⟩
    cases o with
    | none =>
      refine ⟨{}, ?_, rfl⟩
      unfold decode
      rw [ho]
      rfl
    | some f => exact decode_empty_frame hb hc ho (hf f rfl)

theorem decode_compact {b b' : TcpBuffer} (hc : b.Compact) {data d : FlconcPbStruct}
    (h : decode b data = .ok (b', d)) : b'.Compact := by
  unfold decode at h
  obtain ⟨o, -, h⟩ := bind_eq_ok.1 h
  cases o with
  | none =>
    cases h
    exact hc
  | some f =>
    obtain ⟨b₁, hb₁, h⟩ := bind_eq_ok.1 h
    obtain ⟨⟨r, cs⟩, -, h⟩ := bind_eq_ok.1 h
    cases h
    exact TcpBuffer.recycleRead_compact hc hb₁

/-- Of a stream that starts with a packet, a buffer is whole when it has that packet. -/
theorem whole_iff {b : TcpBuffer} (hb : b.WF) {q : FlconcPbStruct} {rest : Bytes}
    (hlen : packetLength q < 2 ^ 31) (hq : b.readable <+: packet q ++ rest) :
    Whole b ↔ packet q <+: b.readable := by
  have hra := TcpBuffer.length_readable hb
  have hpk := length_packet q
  have h26 : 26 ≤ packetLength q := by unfold packetLength; omega
  have hhead : [PB_START] ++ be32 (packetLength q) <+: packet q := by
    unfold packet
    rw [← List.append_assoc]
    exact List.prefix_append _ _
  -- the length read back from the readable bytes is the packet's
  have hL : 5 ≤ b.readable.length → int32At b.readable 1 = .ok (packetLength q) := by
    intro h5
    have hp : [PB_START] ++ be32 (packetLength q) <+: b.readable :=
      List.prefix_of_prefix_length_le (hhead.trans (List.prefix_append _ _)) hq h5
    obtain ⟨c, hc⟩ := hp
    have hhas : Has b.readable 0 ([PB_START] ++ be32 (packetLength q)) := ⟨[], c, hc.symm, rfl⟩
    rw [has_cons] at hhas
    refine hhas.2.int32At ?_
    unfold InInt32
    omega
  constructor
  · rintro ⟨h5, L, hL', hle⟩
    rw [hL (by omega)] at hL'
    cases hL'
    exact List.prefix_of_prefix_length_le (List.prefix_append _ _) hq (by omega)
  · intro hp
    have := hp.length_le
    exact ⟨by omega, _, hL (by omega), by omega⟩

/-! ## The invariant -/

/-- The unread bytes are what has arrived of the stream behind the packets handed on; between two
runs of `execute` they are not a whole packet. -/
structure Conn.Inv (ps : List Packet) (s : Conn) : Prop where
  noFault : s.fault = none
  usable : Usable s.buf
  inOrder : List.Forall₂ HandedAs (ps.take s.handed.length) s.handed
  received : s.received = stream (ps.take s.handed.length) ++ s.buf.readable
  within : s.received <+: stream ps
  pending : s.executing = false → ∀ q qs, ps.drop s.handed.length = q :: qs →
    ¬ packet q.1 <+: s.buf.readable

theorem Conn.start_inv (ps : List Packet) {n : Nat} (h0 : 0 < n) (hn : n < 2 ^ 31) :
    Conn.Inv ps (.start n) := by
  refine ⟨rfl, ofSize_usable h0 hn, .nil, rfl, List.nil_prefix, ?_⟩
  intro _ q qs _ hp
  have h1 := hp.length_le
  rw [length_packet] at h1
  exact absurd h1 (by show ¬ packetLength q.1 ≤ 0; unfold packetLength; omega)

theorem Conn.Inv.unread {ps : List Packet} {s : Conn} (hi : s.Inv ps) :
    s.buf.readable <+: stream (ps.drop s.handed.length) := by
  have h := hi.within
  rw [hi.received] at h
  have hs : stream ps = stream (ps.take s.handed.length) ++ stream (ps.drop s.handed.length) := by
    rw [← stream_append, List.take_append_drop]
  rw [hs] at h
  exact (List.prefix_append_right_inj _).1 h

theorem Conn.Inv.faithful {ps : List Packet} {s : Conn} (hi : s.Inv ps) : Faithful ps s := by
  refine ⟨hi.noFault, hi.inOrder, fun hidle k hk hp => ?_,
    (executeProgresses_of .flconcPb (s := ⟨s.buf, s.handed⟩) hi.usable.wf nofun).1⟩
  by_contra hlt
  -- the next packet has arrived completely, so it is in the buffer
  have hm : s.handed.length < ps.length := by omega
  have hdrop := List.drop_eq_getElem_cons hm
  refine hi.pending hidle _ _ hdrop ?_
  have htake : stream (ps.take (s.handed.length + 1)) =
      stream (ps.take s.handed.length) ++ packet ps[s.handed.length].1 := by
    rw [List.take_succ_eq_append_getElem hm, stream_append]
    simp [stream]
  have hle : stream (ps.take (s.handed.length + 1)) <+: stream (ps.take k) := by
    obtain ⟨c, hc⟩ := List.take_prefix_take_left (l := ps) (by omega : s.handed.length + 1 ≤ k)
    rw [← hc, stream_append]
    exact List.prefix_append _ _
  have h := hle.trans hp
  rw [htake, hi.received] at h
  exact (List.prefix_append_right_inj _).1 h

theorem Conn.chunk_inv {ps : List Packet} {s s' : Conn} {bs : Bytes} (hi : s.Inv ps)
    (hg : KeepsQuiet s (.chunk bs)) (h : connStep ps s (.chunk bs) = some s') : s'.Inv ps := by
  unfold connStep at h
  dsimp only at h
  split at h
  · rename_i hen
    obtain ⟨b', hb', hu, hq⟩ := fill_spec hi.usable hg
    rw [hb'] at h
    cases h
    refine ⟨hi.noFault, hu, hi.inOrder, ?_, hen.2.2, nofun⟩
    show s.received ++ bs = _ ++ b'.readable
    rw [hq, hi.received, List.append_assoc]
  · cases h

/-! ## One round of `execute` -/

/-- Unread bytes belong to a next packet. -/
theorem Conn.Inv.next {ps : List Packet} {s : Conn} (hi : s.Inv ps) (hr : s.buf.readAble > 0) :
    ∃ q qs, ps.drop s.handed.length = q :: qs ∧ s.buf.readable <+: packet q.1 ++ stream qs := by
  have hu := hi.unread
  cases hd : ps.drop s.handed.length with
  | nil =>
    rw [hd] at hu
    have hlen := hu.length_le
    have hra := TcpBuffer.length_readable hi.usable.wf
    exact absurd hlen (by show ¬ s.buf.readable.length ≤ 0; omega)
  | cons q qs =>
    rw [hd, stream_cons] at hu
    exact ⟨q, qs, rfl, hu⟩

theorem take_succ_of_drop {α : Type} {l rest : List α} {n : Nat} {a : α} (h : l.drop n = a :: rest) :
    l.take (n + 1) = l.take n ++ [a] := by
  have hn : n < l.length := by
    by_contra hge
    rw [List.drop_eq_nil_of_le (by omega)] at h
    cases h
  rw [List.drop_eq_getElem_cons hn] at h
  rw [List.take_succ_eq_append_getElem hn, (List.cons.inj h).1]

/-- A whole packet is handed on. -/
theorem Conn.handOn_inv {ps : List Packet} {s s' : Conn} (hi : s.Inv ps) (hexec : s.executing = true)
    (hr : s.buf.readAble > 0) {q : Packet} {qs : List Packet} (hdrop : ps.drop s.handed.length = q :: qs)
    (hp : packet q.1 <+: s.buf.readable) (h : connStep ps s .round = some s') : s'.Inv ps := by
  obtain ⟨rest, hrest⟩ := hp
  obtain ⟨b', r, hd, hrd, hh, hsz, -⟩ := decode_packet hi.usable.wf q.2 hrest.symm {}
  have hround := executeRound_decode (r := ⟨s.buf, s.handed⟩) hr hd
  rw [if_pos hrd.decodeSucc] at hround
  unfold connStep at h
  dsimp only at h
  rw [if_pos hexec, hround] at h
  cases h
  have htake : ps.take (s.handed ++ [Data.flconcPb r]).length = ps.take s.handed.length ++ [q] := by
    rw [List.length_append]
    exact take_succ_of_drop hdrop
  have hsize : 0 < b'.buffer.length := by
    rw [hsz]; exact hi.usable.nonempty
  refine ⟨hi.noFault, ⟨hh.wf, decode_compact hi.usable.compact hd, hsize⟩, ?_, ?_, hi.within, fun hidle => ?_⟩
  · show List.Forall₂ HandedAs (ps.take (s.handed ++ [Data.flconcPb r]).length) _
    rw [htake]
    exact List.rel_append hi.inOrder (.cons ⟨r, rfl, hrd⟩ .nil)
  · show s.received = stream (ps.take (s.handed ++ [Data.flconcPb r]).length) ++ b'.readable
    rw [htake, stream_append, hi.received, ← hrest, hh.queue, List.append_assoc]
    simp [stream]
  · cases hexec.symm.trans hidle

/-- A round that hands nothing on leaves the buffer, and `execute` returns. -/
theorem Conn.idle_inv {ps : List Packet} {s s' : Conn} (hi : s.Inv ps)
    (hround : executeRound .flconcPb ⟨s.buf, s.handed⟩ = .inr (.ok ⟨s.buf, s.handed⟩))
    (hpending : ∀ q qs, ps.drop s.handed.length = q :: qs → ¬ packet q.1 <+: s.buf.readable)
    (h : connStep ps s .round = some s') : s'.Inv ps := by
  unfold connStep at h
  dsimp only at h
  split at h
  · rw [hround] at h
    cases h
    exact ⟨hi.noFault, hi.usable, hi.inOrder, hi.received, hi.within, fun _ => hpending⟩
  · cases h

theorem Conn.round_inv {ps : List Packet} (hps : ∀ p ∈ ps, packetLength p.1 < 2 ^ 31) {s s' : Conn}
    (hi : s.Inv ps) (hg : KeepsQuiet s .round) (h : connStep ps s .round = some s') : s'.Inv ps := by
  have hw := hi.usable.wf
  have hexec : s.executing = true := by
    unfold connStep at h
    dsimp only at h
    split at h
    · assumption
    · cases h
  by_cases hr : s.buf.readAble > 0
  · obtain ⟨q, qs, hdrop, hu⟩ := hi.next hr
    have hmem : q ∈ ps := List.mem_of_mem_drop (hdrop ▸ List.mem_cons_self)
    by_cases hp : packet q.1 <+: s.buf.readable
    · exact Conn.handOn_inv hi hexec hr hdrop hp h
    · -- not whole, so quiet
      have hnw : ¬ Whole s.buf := fun hwh => hp ((whole_iff hw (hps q hmem) hu).1 hwh)
      obtain ⟨d, hd, hds⟩ := (decode_quiet_iff hw hi.usable.compact).2 ((hg hr).resolve_left hnw)
      have hround := executeRound_decode (r := ⟨s.buf, s.handed⟩) hr hd
      rw [if_neg (by rw [hds]; nofun)] at hround
      refine Conn.idle_inv hi hround (fun q' qs' hd' => ?_) h
      rw [hdrop] at hd'
      cases hd'
      exact hp
  · refine Conn.idle_inv hi (executeRound_idle hr) (fun q qs _ hp => ?_) h
    have h1 := hp.length_le
    have hra := TcpBuffer.length_readable hw
    rw [length_packet] at h1
    unfold packetLength at h1
    omega

/-! ## Every way of cutting -/

/-- However the stream is cut, a run whose unfinished packets are quiet hands on the sent packets. -/
theorem faithful_of_quiet {ps : List Packet} (hps : ∀ p ∈ ps, packetLength p.1 < 2 ^ 31) {size : Nat}
    (h0 : 0 < size) (hsize : size < 2 ^ 31) (as : List ConnAct)
    (h : Lts.Along (connStep ps) KeepsQuiet (.start size) as) :
    Lts.Always (connStep ps) (Faithful ps) (.start size) as := by
  refine Lts.Always.imp (fun _ hi => Conn.Inv.faithful hi)
    (Lts.always_of_along (fun s a s' hi hg hs => ?_) (Conn.start_inv ps h0 hsize) h)
  cases a with
  | chunk bs => exact Conn.chunk_inv hi hg hs
  | round => exact Conn.round_inv hps hi hg hs

/-- Two packets, the first cut behind ten bytes and the second behind its length field. -/
def pingChunks : List ConnAct :=
  let bytes := stream [ping, ping]
  [.chunk (bytes.take 10), .round, .chunk ((bytes.drop 10).take 26), .round, .round, .chunk (bytes.drop 36), .round,
    .round]

theorem faithful_ping :
    Lts.Always (connStep [ping, ping]) (Faithful [ping, ping]) (.start 31) pingChunks ∧
      (Lts.run (connStep [ping, ping]) (.start 31) pingChunks).map (fun s => (s.handed.length, s.executing)) =
        some (2, false) :=
  ⟨faithful_of_quiet (by decide) (by decide) (by decide) _ (by decide +kernel), by decide +kernel⟩

/-- A packet whose payload starts with a whole packet, cut before its last byte. -/
def inner : FlconcPbStruct := { msgReq := [0x69], serviceFullName := [0x53] }
def outer : Packet :=
  ⟨{ msgReq := [0x6F], serviceFullName := [0x53], pbData := packet inner ++ [0] },
    ⟨by decide, by decide, by decide, by decide, by decide, by decide, by decide⟩⟩

theorem not_faithful_outer : ¬ Lts.Always (connStep [outer]) (Faithful [outer]) (.start 128)
    [.chunk ((packet outer.1).take 56), .round] := by
  intro h
  obtain ⟨s, hs, hd⟩ : ∃ s, Lts.run (connStep [outer]) (.start 128)
      [.chunk ((packet outer.1).take 56), .round] = some s ∧
      s.handed = [.flconcPb { pkLen := 28, msgReqLen := 1, msgReq := [0x69], serviceNameLen := 1,
                              serviceFullName := [0x53], decodeSucc := true }] := by
    have hrun : (Lts.run (connStep [outer]) (.start 128)
        [.chunk ((packet outer.1).take 56), .round]).map Conn.handed =
        some [.flconcPb { pkLen := 28, msgReqLen := 1, msgReq := [0x69], serviceNameLen := 1,
                          serviceFullName := [0x53], decodeSucc := true }] := by decide +kernel
    exact Option.map_eq_some_iff.1 hrun
  -- the packet inside was handed on in place of the one around it
  have hf := (h.last hs).inOrder
  rw [hd] at hf
  obtain ⟨⟨r, hr, hrd⟩, -⟩ := List.forall₂_cons.1 hf
  cases hr
  exact absurd hrd.msgReq (by decide)

end Flconc.FlconcPb
