/-
Pipelining: packets encoded into one buffer and decoded from it in any interleaving. The buffer
holds the packets encoded and not yet decoded, in order, so the i-th decode yields the i-th struct.
-/
import Flconc.FlconcPb.Packet

namespace Flconc.FlconcPb

open Wire

/-! ## Sessions -/

/-- A call on the buffer. -/
inductive Op
  | encode (d : Packet)
  | decode

/-- What a `decode` call yielded, and how many readable bytes it took away. -/
structure Decoded where
  data : FlconcPbStruct
  consumed : Int

/-- The buffer, the structs as `encode` left them and the results of the `decode` calls. -/
structure Session where
  buf : TcpBuffer
  encoded : List FlconcPbStruct
  decoded : List Decoded

def Session.start (size : Nat) : Session := ⟨.ofSize size, [], []⟩

/-- `decode` is called, with a fresh struct, when there is something to read. -/
def Session.step (gen : Bytes) (s : Session) : Op → Except Fault Session
  | .encode d => do
    let (buf, e) ← FlconcPb.encode gen s.buf d.1
    return { s with buf := buf, encoded := s.encoded ++ [e] }
  | .decode =>
    if s.buf.readAble > 0 then do
      let (buf, r) ← FlconcPb.decode s.buf {}
      return { s with buf := buf, decoded := s.decoded ++ [⟨r, s.buf.readAble - buf.readAble⟩] }
    else .ok s

def Session.run (gen : Bytes) : Session → List Op → Except Fault Session
  | s, [] => .ok s
  | s, op :: ops => do
    let s ← s.step gen op
    s.run gen ops

/-- The structs handed to `encode`, in order. -/
def sent : List Op → List Packet
  | [] => []
  | .encode d :: ops => d :: sent ops
  | .decode :: ops => sent ops

/-- How many of the `decode` calls find a packet, when `n` are in the buffer at the start. -/
def served : List Op → Nat → Nat
  | [], _ => 0
  | .encode _ :: ops, n => served ops (n + 1)
  | .decode :: ops, 0 => served ops 0
  | .decode :: ops, n + 1 => served ops n + 1

def totalLength (ds : List Packet) : Nat := (ds.map fun d => packetLength d.1).sum

/-- The bytes of the packets, back to back. -/
def stream (ds : List Packet) : Bytes := ds.flatMap fun d => packet d.1

theorem totalLength_append (ds es : List Packet) :
    totalLength (ds ++ es) = totalLength ds + totalLength es := by
  simp [totalLength]

theorem stream_append (ds es : List Packet) : stream (ds ++ es) = stream ds ++ stream es := by
  simp [stream]

theorem stream_cons (d : Packet) (ds : List Packet) : stream (d :: ds) = packet d.1 ++ stream ds := rfl

/-! ## The invariant -/

/-- The i-th decode yielded the i-th struct and consumed its `pk_len` bytes. -/
structure Decoded.Matches (d : Packet) (e : FlconcPbStruct) (r : Decoded) : Prop where
  reads : Reads d.1 r.data
  consumed : r.consumed = e.pkLen

/-- After `ds` were encoded: the first of them decoded, the others in the buffer. -/
structure Session.Inv (ds : List Packet) (s : Session) : Prop where
  encoded : s.encoded = ds.map fun d => FlconcPb.encoded d.1
  done : s.decoded.length ≤ ds.length
  queue : s.buf.Holds (stream (ds.drop s.decoded.length))
  matched : ∀ (i : Nat) (r : Decoded), s.decoded[i]? = some r →
    ∃ d, ds[i]? = some d ∧ r.Matches d (FlconcPb.encoded d.1)
  written : s.buf.writeIndex ≤ totalLength ds

theorem Session.start_inv {n : Nat} (hn : n < 2 ^ 31) : Session.Inv [] (.start n) :=
  ⟨rfl, le_rfl, ⟨TcpBuffer.ofSize_wf hn, rfl⟩, fun _ r hr => (Option.some_ne_none r hr.symm).elim, le_rfl⟩

theorem Session.encode_inv (gen : Bytes) {ds : List Packet} {s : Session} (hi : s.Inv ds) (d : Packet)
    (hsize : totalLength (ds ++ [d]) < 2 ^ 30) :
    ∃ s', s.step gen (.encode d) = .ok s' ∧ s'.Inv (ds ++ [d]) ∧ s'.decoded = s.decoded := by
  have hw := hi.written
  have htot : totalLength (ds ++ [d]) = totalLength ds + packetLength d.1 := by
    simp [totalLength]
  obtain ⟨b', hb', hh, hwi⟩ := encode_spec gen hi.queue.wf d.2.service_ne d.2.msgReq_ne (by omega)
  refine ⟨{ s with buf := b', encoded := s.encoded ++ [FlconcPb.encoded d.1] }, ?_, ⟨?_, ?_, ?_, ?_, ?_⟩, rfl⟩
  · unfold Session.step
    dsimp only
    rw [hb']
    rfl
  · show s.encoded ++ _ = _
    rw [hi.encoded, List.map_append]
    rfl
  · show s.decoded.length ≤ _
    have := hi.done
    rw [List.length_append]
    omega
  · rw [List.drop_append_of_le_length hi.done, stream_append]
    rw [hi.queue.queue] at hh
    simpa [stream] using hh
  · intro i r hr
    obtain ⟨e, he, hm⟩ := hi.matched i r hr
    refine ⟨e, ?_, hm⟩
    rw [List.getElem?_append_left (List.getElem?_eq_some_iff.1 he).1]
    exact he
  · show b'.writeIndex ≤ _
    omega

/-- Something is readable just when a packet is pending. -/
theorem Session.Inv.readAble_pos_iff {ds : List Packet} {s : Session} (hi : s.Inv ds) :
    s.buf.readAble > 0 ↔ s.decoded.length < ds.length := by
  rw [hi.queue.readAble]
  constructor
  · intro hne
    by_contra hge
    rw [List.drop_eq_nil_of_le (by omega)] at hne
    exact absurd hne (by decide)
  · intro hlt
    rw [List.drop_eq_getElem_cons hlt, stream_cons, List.length_append, length_packet]
    unfold packetLength
    omega

/-- With a packet pending `decode` takes one. -/
theorem Session.decode_inv (gen : Bytes) {ds : List Packet} {s : Session} (hi : s.Inv ds) :
    ∃ s', s.step gen .decode = .ok s' ∧ s'.Inv ds ∧
      s'.decoded.length = if s.decoded.length < ds.length then s.decoded.length + 1 else s.decoded.length := by
  have hpos := hi.readAble_pos_iff
  unfold Session.step
  dsimp only
  split
  · rename_i hne
    have hlt := hpos.1 hne
    rw [if_pos hlt]
    obtain ⟨d, hd⟩ : ∃ d, ds[s.decoded.length]? = some d := ⟨_, List.getElem?_eq_getElem hlt⟩
    have hdrop : ds.drop s.decoded.length = d :: ds.drop (s.decoded.length + 1) := by
      rw [List.drop_eq_getElem_cons hlt, ← Option.some.inj ((List.getElem?_eq_getElem hlt).symm.trans hd)]
    have hq := hi.queue.queue
    rw [hdrop, stream_cons] at hq
    obtain ⟨b', r, hb', hrd, hh, -, hwi⟩ := decode_packet hi.queue.wf d.2 hq {}
    have hc : s.buf.readAble - b'.readAble = packetLength d.1 := by
      rw [hh.readAble, ← TcpBuffer.length_readable hi.queue.wf, hq, List.length_append, length_packet]
      omega
    have hlen : (s.decoded ++ [(⟨r, s.buf.readAble - b'.readAble⟩ : Decoded)]).length =
        s.decoded.length + 1 := List.length_append
    rw [hb']
    refine ⟨{ s with buf := b', decoded := s.decoded ++ [⟨r, s.buf.readAble - b'.readAble⟩] },
      rfl, ⟨hi.encoded, ?_, ?_, ?_, ?_⟩, hlen⟩
    · show (s.decoded ++ _).length ≤ _
      rw [hlen]
      exact hlt
    · show b'.Holds (stream (ds.drop (s.decoded ++ _).length))
      rw [hlen]
      exact hh
    · intro i r' hr'
      change (s.decoded ++ _)[i]? = _ at hr'
      rcases Nat.lt_trichotomy i s.decoded.length with hlt' | rfl | hgt
      · rw [List.getElem?_append_left hlt'] at hr'
        exact hi.matched i r' hr'
      · rw [List.getElem?_concat_length] at hr'
        cases hr'
        exact ⟨d, hd, hrd, hc⟩
      · rw [List.getElem?_eq_none (by rw [hlen]; omega)] at hr'
        cases hr'
    · exact hwi.trans hi.written
  · rename_i hne
    exact ⟨s, rfl, hi, (if_neg fun hlt => hne (hpos.2 hlt)).symm⟩

theorem Session.run_inv (gen : Bytes) : ∀ (ops : List Op) {ds : List Packet} {s : Session}, s.Inv ds →
    totalLength (ds ++ sent ops) < 2 ^ 30 → ∃ s', s.run gen ops = .ok s' ∧ s'.Inv (ds ++ sent ops) ∧
      s'.decoded.length = s.decoded.length + served ops (ds.length - s.decoded.length)
  | [], ds, s, hi, _ => ⟨s, rfl, by simpa [sent] using hi, rfl⟩
  | .encode d :: ops, ds, s, hi, hsize => by
    have happ : ds ++ sent (.encode d :: ops) = ds ++ [d] ++ sent ops := by
      rw [List.append_assoc]
      rfl
    rw [happ] at hsize ⊢
    have hd : totalLength (ds ++ [d]) < 2 ^ 30 := by
      rw [totalLength_append] at hsize
      omega
    obtain ⟨s₁, h₁, hi₁, hsame⟩ := Session.encode_inv gen hi d hd
    obtain ⟨s₂, h₂, hi₂, hcount⟩ := Session.run_inv gen ops hi₁ hsize
    refine ⟨s₂, bind_eq_ok.2 ⟨s₁, h₁, h₂⟩, hi₂, ?_⟩
    have hpending : (ds ++ [d]).length - s.decoded.length = ds.length - s.decoded.length + 1 := by
      have := hi.done
      rw [List.length_append, List.length_singleton]
      omega
    rw [hcount, hsame, hpending]
    rfl
  | .decode :: ops, ds, s, hi, hsize => by
    obtain ⟨s₁, h₁, hi₁, hmade⟩ := Session.decode_inv gen hi
    obtain ⟨s₂, h₂, hi₂, hcount⟩ := Session.run_inv gen ops hi₁ hsize
    refine ⟨s₂, bind_eq_ok.2 ⟨s₁, h₁, h₂⟩, hi₂, ?_⟩
    rw [hcount, hmade]
    cases hpending : ds.length - s.decoded.length with
    | zero =>
      rw [if_neg (by omega), hpending]
      rfl
    | succ n =>
      have hn : ds.length - (s.decoded.length + 1) = n := by omega
      rw [if_pos (by omega), hn]
      show s.decoded.length + 1 + served ops n = s.decoded.length + (served ops n + 1)
      omega

/-! ## No loss -/

/-- Every `decode` that found a packet yielded one: the i-th yielded the i-th struct and took its
`pk_len` bytes. What was encoded and not yet decoded is in the buffer, in order, and nothing else is;
after as many decodes as encodes the buffer is empty. -/
structure Session.Lossless (ops : List Op) (s : Session) : Prop where
  encoded : s.encoded.length = (sent ops).length
  made : s.decoded.length = served ops 0
  decoded : ∀ (i : Nat) (r : Decoded), s.decoded[i]? = some r →
    ∃ d e, (sent ops)[i]? = some d ∧ s.encoded[i]? = some e ∧ r.Matches d e
  queue : s.buf.Holds (stream ((sent ops).drop s.decoded.length))
  drained : s.decoded.length = s.encoded.length → s.buf.readAble = 0

theorem Session.Inv.lossless {ops : List Op} {s : Session} (hi : s.Inv (sent ops))
    (hmade : s.decoded.length = served ops 0) : s.Lossless ops := by
  refine ⟨by rw [hi.encoded, List.length_map], hmade, ?_, hi.queue, ?_⟩
  · intro i r hr
    obtain ⟨d, hd, hm⟩ := hi.matched i r hr
    exact ⟨d, _, hd, by rw [hi.encoded, List.getElem?_map, hd]; rfl, hm⟩
  · intro hall
    rw [hi.encoded, List.length_map] at hall
    rw [hi.queue.readAble, hall, List.drop_length]
    rfl

/-- Every interleaving of encodes and decodes on a buffer of any initial size is lossless. -/
theorem pipeline_lossless (gen : Bytes) {size : Nat} (hsize : size < 2 ^ 31) (ops : List Op)
    (htotal : totalLength (sent ops) < 2 ^ 30) :
    ∃ s, Session.run gen (.start size) ops = .ok s ∧ s.Lossless ops := by
  obtain ⟨s, hs, hi, hcount⟩ := Session.run_inv gen ops (Session.start_inv hsize) htotal
  exact ⟨s, hs, hi.lossless (hcount.trans (Nat.zero_add _))⟩

/-- A struct whose payload looks like a frame. -/
def ping : Packet :=
  ⟨{ msgReq := [0x31], serviceFullName := [0x53], pbData := [0x02, 0x00, 0x03] },
    ⟨by decide, by decide, by decide, by decide, by decide, by decide, by decide⟩⟩

/-- Three encodes and two decodes, one of them of two packets back to back: two structs come out and the
third is in the buffer. -/
def pings : List Op := [.encode ping, .decode, .encode ping, .encode ping, .decode]

theorem pipeline_lossless_ping : ∃ s, Session.run [] (.start 0) pings = .ok s ∧ s.Lossless pings ∧
    s.decoded.length = 2 ∧ s.buf.Holds (stream [ping]) := by
  obtain ⟨s, hs, hl⟩ := pipeline_lossless [] (show 0 < 2 ^ 31 by decide) pings (by decide)
  have hqueue := hl.queue
  rw [hl.made] at hqueue
  exact ⟨s, hs, hl, hl.made, hqueue⟩

end Flconc.FlconcPb
