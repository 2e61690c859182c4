/-
One call of `execute` on frames of which some are malformed inside. `decode` consumes every frame
that ends where its length says, and reports the malformed ones with `decode_succ` false, as it does
when the bytes of a frame are not all there; `execute` returns in both cases. So the frames that
decode are all handed on exactly when none of them stands behind one that does not.
-/
import Flconc.FlconcPb.Consumed
import Flconc.FlconcPb.Packet
import Flconc.Net.Execute

namespace Flconc.FlconcPb

open Wire

/-- `decode` into a new struct, once for each of `n` frames. -/
def decodeEach : Nat → TcpBuffer → Except Fault (List FlconcPbStruct)
  | 0, _ => .ok []
  | n + 1, b => do
    let (b, d) ← decode b {}
    let ds ← decodeEach n b
    return d :: ds

/-- One call of `execute` hands on the frames that decode, in order, and leaves none in the buffer. -/
def HandsOnGood (b : TcpBuffer) (bodies : List Bytes) (ds : List FlconcPbStruct) : Prop :=
  ∃ r, Loop.Gives (executeRound .flconcPb) ⟨b, []⟩ (.ok r) ∧
    r.handed = (ds.filter fun d => d.decodeSucc).map .flconcPb ∧
    ∃ n, r.buf.readable = (bodies.drop n).flatMap framed ∧ ∀ d ∈ ds.drop n, d.decodeSucc = false

/-- No frame that decodes stands behind one that does not. -/
def GoodFirst (ds : List FlconcPbStruct) : Prop :=
  ds.Pairwise fun d e => e.decodeSucc = true → d.decodeSucc = true

/-- A frame at the front of the queue is consumed, whatever is in it and behind it. -/
theorem decode_framed {b b' : TcpBuffer} (hb : b.WF) {body rest : Bytes} (hq : b.readable = framed body ++ rest)
    {data d : FlconcPbStruct} (hd : decode b data = .ok (b', d)) : b'.Holds rest := by
  have hlen := TcpBuffer.length_readable hb
  have hfr := length_framed body
  rw [hq, List.length_append] at hlen
  obtain ⟨b₁, hb₁, hdecode⟩ := decode_accepted hb (scan_framed hb hq)
  obtain ⟨b₂, hb₂, hh, -⟩ := TcpBuffer.recycleRead_spec hb (n := body.length + 6) (by omega) (by omega)
  obtain rfl : b₁ = b₂ := Except.ok.inj (hb₁.symm.trans hb₂)
  have hbuf : b' = b₁ := by
    rw [hdecode] at hd
    cases hx : extract b.buffer ⟨b.readIndex, b.readIndex + (body.length + 6) - 1, body.length + 6⟩ data with
    | error e =>
      rw [hx] at hd
      cases hd
    | ok r =>
      rw [hx] at hd
      cases hd
      rfl
  have hn : ((body.length : Int) + 6).toNat = (framed body).length := by omega
  rw [hq, hn, List.drop_left] at hh
  exact hbuf ▸ hh

/-- The loop takes the frames up to the first that does not decode, and this one from the buffer. -/
theorem execute_framed : ∀ (bodies : List Bytes) {b : TcpBuffer} {ds : List FlconcPbStruct} (handed : List Data),
    b.WF → b.readable = bodies.flatMap framed → decodeEach bodies.length b = .ok ds →
    ∃ r, (∀ x, Loop.Gives (executeRound .flconcPb) ⟨b, handed⟩ x ↔ x = .ok r) ∧
      r.handed = handed ++ (ds.takeWhile fun d => d.decodeSucc).map .flconcPb ∧
      r.buf.readable = (bodies.drop ((ds.takeWhile fun d => d.decodeSucc).length + 1)).flatMap framed
  | [], b, ds, handed, hb, hq, hd => by
    cases hd
    have hlen := TcpBuffer.length_readable hb
    rw [hq] at hlen
    have hidle : ¬ b.readAble > 0 := by
      simp only [List.flatMap_nil, List.length_nil] at hlen
      omega
    refine ⟨⟨b, handed⟩, fun x => Loop.gives_exit (executeRound_idle hidle), ?_, hq⟩
    simp
  | body :: bodies, b, ds, handed, hb, hq, hd => by
    rw [List.flatMap_cons] at hq
    have hlen := TcpBuffer.length_readable hb
    have hfr := length_framed body
    rw [hq, List.length_append] at hlen
    have hr : b.readAble > 0 := by omega
    obtain ⟨⟨b₁, d⟩, hdec, hd⟩ := bind_eq_ok.1 hd
    obtain ⟨ds', hds, hd⟩ := bind_eq_ok.1 hd
    cases hd
    have hh := decode_framed hb hq hdec
    have hround := executeRound_decode (r := ⟨b, handed⟩) hr hdec
    cases hsucc : d.decodeSucc with
    | true =>
      rw [if_pos hsucc] at hround
      obtain ⟨r, hgives, hhanded, hleft⟩ := execute_framed bodies (handed ++ [.flconcPb d]) hh.wf hh.queue hds
      refine ⟨r, fun x => (Loop.gives_next hround).trans (hgives x), ?_, ?_⟩
      · rw [hhanded, List.takeWhile_cons_of_pos hsucc, List.map_cons, List.append_assoc]
        rfl
      · rw [hleft, List.takeWhile_cons_of_pos hsucc]
        rfl
    | false =>
      have hbad : ¬ d.decodeSucc = true := by rw [hsucc]; nofun
      rw [if_neg hbad] at hround
      refine ⟨⟨b₁, handed⟩, fun x => Loop.gives_exit hround, ?_, ?_⟩
      · rw [List.takeWhile_cons_of_neg hbad, List.map_nil, List.append_nil]
      · rw [List.takeWhile_cons_of_neg hbad]
        exact hh.queue

/-- The frames that decode are all handed on exactly when none of them stands behind a malformed one. -/
theorem handsOnGood_iff {b : TcpBuffer} (hb : b.WF) {bodies : List Bytes} (hq : b.readable = bodies.flatMap framed)
    {ds : List FlconcPbStruct} (hd : decodeEach bodies.length b = .ok ds) : HandsOnGood b bodies ds ↔ GoodFirst ds := by
  obtain ⟨r, hgives, hhanded, hleft⟩ := execute_framed bodies [] hb hq hd
  unfold GoodFirst
  rw [← Loop.takeWhile_eq_filter_iff]
  constructor
  · rintro ⟨r', hr', hhanded', -⟩
    obtain rfl : r' = r := Except.ok.inj ((hgives _).1 hr')
    rw [hhanded, List.nil_append] at hhanded'
    exact List.map_injective_iff.2 (fun _ _ h => Data.flconcPb.inj h) hhanded'
  · intro heq
    refine ⟨r, (hgives _).2 rfl, ?_, _, hleft, fun d => Loop.not_of_mem_drop heq (Nat.le_succ _)⟩
    rw [hhanded, heq, List.nil_append]

/-- What is between the length and the end byte of a small packet. -/
def goodBody : Bytes := be32 1 ++ [0x31] ++ be32 1 ++ [0x53] ++ be32 0 ++ be32 0 ++ [0x70] ++ be32 1

/-- The length of the message number is 0. -/
def badBody : Bytes := be32 0

def goodStruct : FlconcPbStruct :=
  { pkLen := 29, msgReqLen := 1, msgReq := [0x31], serviceNameLen := 1, serviceFullName := [0x53], pbData := [0x70],
    decodeSucc := true }

/-- A good frame, and a bad one behind it. -/
def badLast : TcpBuffer := ⟨framed goodBody ++ framed badBody, 0, 39⟩

theorem handsOnGood_badLast :
    HandsOnGood badLast [goodBody, badBody] [goodStruct, { pkLen := 10 }] ↔ GoodFirst [goodStruct, { pkLen := 10 }] :=
  handsOnGood_iff ⟨by decide, by decide, by decide, by decide⟩ (by decide +kernel) (by decide +kernel)

/-- A bad frame, and a good one behind it. -/
def badFirst : TcpBuffer := ⟨framed badBody ++ framed goodBody, 0, 39⟩

/-- `execute` returns after the bad frame, and the good one stays where it is. -/
theorem not_handsOnGood_badFirst : ¬ ∀ (b : TcpBuffer) (bodies : List Bytes) (ds : List FlconcPbStruct), b.WF →
    b.readable = bodies.flatMap framed → decodeEach bodies.length b = .ok ds → HandsOnGood b bodies ds := by
  intro h
  obtain ⟨r, hr, hhanded, -⟩ := h badFirst [badBody, goodBody] [{ pkLen := 10 }, goodStruct]
    ⟨by decide, by decide, by decide, by decide⟩ (by decide +kernel) (by decide +kernel)
  have hd : decode badFirst {} = .ok (⟨framed badBody ++ framed goodBody, 10, 39⟩, { pkLen := 10 }) := by decide +kernel
  have hround := executeRound_decode (r := ⟨badFirst, []⟩) (by decide) hd
  rw [if_neg (by decide)] at hround
  obtain rfl := Except.ok.inj ((Loop.gives_exit hround).1 hr)
  exact absurd hhanded (by decide)

end Flconc.FlconcPb
