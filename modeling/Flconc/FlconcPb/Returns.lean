/-
Calls return. Over both ends of a FlconcPb connection, every step but a new call and a write that takes nothing
brings the bytes further on their way, so such steps cannot go on for ever; and while a call has not returned
one of them is possible, unless an end that has everything goes on reading.

A call that returns leaves its controller as the service itself, called in its place, would have it.
-/
import Flconc.FlconcPb.Exchange
import Flconc.FlconcPb.RpcChannel

namespace Flconc.FlconcPb

open Wire Text Framing

namespace Exchange

/-! ## What every step takes further -/

/-- Not a new call, and not a write that takes nothing of what there is. -/
def Productive (s : Exchange) : ExchangeAct → Prop
  | .call _ => False
  | .write rt => s.out.readAble ≠ 0 → rt ≠ 0
  | .reply rt => s.server.out.readAble ≠ 0 → rt ≠ 0
  | _ => True

/-- A call has not returned. -/
def Calling (s : Exchange) : Prop := s.sending ≠ none ∨ s.client.call ≠ none

def serverRank : ServePhase → Nat
  | .execute => 2
  | .output => 1
  | .input | .reading | .closed | .faulted => 0

def receiveRank : ReceivePhase → Nat
  | .exec => 2
  | .look => 1
  | .read => 0

def clientRank (s : Exchange) : Nat :=
  match s.sending, s.client.call with
  | some _, _ => 2
  | none, some (_, phase) => receiveRank phase
  | none, none => 0

/-- How far the bytes are from their ends. -/
def distance (s : Exchange) : Nat :=
  4 * s.out.readable.length + 3 * s.up.length + 4 * s.server.out.readable.length + 3 * s.down.length +
    (s.calls.length - s.client.decoded.length) + serverRank s.server.phase + s.clientRank

/-- A dispatch makes new bytes, but there are only so many requests. -/
def ahead (s : Exchange) : Nat × Nat := (s.calls.length - s.server.handed.length, s.distance)

def Less : Nat × Nat → Nat × Nat → Prop := Prod.Lex (· < ·) (· < ·)

theorem less_wf : WellFounded Less := WellFounded.prod_lex Nat.lt_wfRel.wf Nat.lt_wfRel.wf

theorem outputWrite_takes {o o' : Output} (hwf : o.buf.WF) {rt : Int} (h0 : 0 ≤ rt) (hle : rt ≤ o.buf.readAble)
    (h : outputWrite o rt false = .ok o') :
    (o'.sent.length : Int) = o.sent.length + rt ∧ (o'.buf.readable.length : Int) + rt = o.buf.readable.length := by
  have hlen := TcpBuffer.length_readable hwf
  obtain ⟨o₁, ho₁, hwf₁, hsent, -, -⟩ := outputWrite_spec hwf h0 hle false
  rw [h] at ho₁
  cases ho₁
  unfold outputWrite at h
  obtain ⟨bs, hbs, h⟩ := bind_eq_ok.1 h
  obtain ⟨buf, hbuf, h⟩ := bind_eq_ok.1 h
  cases h
  obtain ⟨buf', hbuf', hh, -⟩ := TcpBuffer.recycleRead_spec hwf h0 hle
  rw [hbuf] at hbuf'
  cases hbuf'
  have htotal := congrArg List.length hsent
  have hleft := congrArg List.length hh.queue
  rw [List.length_drop] at hleft
  simp only [List.length_append] at htotal ⊢
  omega

/-- Fewer requests to dispatch, or the same requests and the bytes nearer. -/
theorem less_of {s s' : Exchange} (hcalls : s'.calls = s.calls)
    (h : s.server.handed.length < s'.server.handed.length ∧ s'.server.handed.length ≤ s.calls.length ∨
      s'.server.handed.length = s.server.handed.length ∧ s'.distance < s.distance) : Less s'.ahead s.ahead := by
  unfold Less ahead
  rw [Prod.lex_iff, hcalls]
  rcases h with ⟨hlt, hle⟩ | ⟨heq, hlt⟩
  · exact .inl (by dsimp only; omega)
  · exact .inr ⟨by rw [heq], hlt⟩

variable {s s' : Exchange}

theorem distance_wait {msgNo : Bytes} (hs : s.sending = some msgNo) : (s.wait msgNo).distance < s.distance := by
  have hbefore : s.clientRank = 2 := by
    unfold clientRank
    rw [hs]
  have hafter : (s.wait msgNo).clientRank = 1 := rfl
  unfold distance
  rw [hbefore, hafter]
  show 4 * s.out.readable.length + _ + _ + _ + (s.calls.length - s.client.decoded.length) + _ + _ < _
  simp only [wait]
  omega

/-- A round of `output` on an open connection returns, or takes what it writes. -/
theorem outputRound_takes {o o' : Output} (hwf : o.buf.WF) {rt : Int} (hrt : rt ≠ -1) (hp : o.buf.readAble ≠ 0 → rt ≠ 0)
    (h : outputRound o .Connected rt false = some o') :
    o' = { o with phase := .returned } ∨
      o.sent.length < o'.sent.length ∧
        o'.sent.length + o'.buf.readable.length = o.sent.length + o.buf.readable.length := by
  rcases outputRound_cases h with ⟨-, rfl⟩ | ⟨-, hsome, hres, hwrite⟩
  · exact .inl rfl
  · obtain ⟨h0, hle⟩ := hres.resolve_left hrt
    have hne := hp hsome
    obtain ⟨o₁, ho₁, -⟩ := outputWrite_spec hwf h0 hle false
    rw [ho₁] at hwrite
    obtain rfl : o₁ = o' := by
      rcases hwrite with heq | ⟨⟨e, heq⟩, -⟩
      · exact Except.ok.inj heq
      · cases heq
    obtain ⟨hsent, hleft⟩ := outputWrite_takes hwf h0 hle ho₁
    exact .inr ⟨by omega, by omega⟩

theorem less_write (hi : s.Inv) {rt : Int} (hk : rt ≠ -1) (hp : s.out.readAble ≠ 0 → rt ≠ 0)
    (h : s.write rt = some s') : Less s'.ahead s.ahead := by
  unfold Exchange.write at h
  split at h
  · cases h
  · rename_i msgNo hs
    obtain ⟨o, ho, h⟩ := Option.map_eq_some_iff.1 h
    obtain ⟨-, -, hsound, -⟩ := outputRound_spec (s := { buf := s.out, phase := .head }) hi.out hk ho
    have hnear : o.phase = .returned ∧ distance { s with out := o.buf, up := s.up ++ o.sent } = s.distance ∨
        distance { s with out := o.buf, up := s.up ++ o.sent } < s.distance := by
      have hrank : clientRank { s with out := o.buf, up := s.up ++ o.sent } = s.clientRank := rfl
      unfold distance
      rw [hrank]
      rcases outputRound_takes (o := { buf := s.out, phase := .head }) hi.out hk hp ho with rfl | ⟨hmore, hsum⟩
      · exact .inl ⟨rfl, by rw [List.append_nil]⟩
      · refine .inr ?_
        dsimp only [List.length_nil] at hmore hsum ⊢
        rw [List.length_append]
        omega
    cases hph : o.phase with
    | faulted => exact absurd hph hsound
    | returned =>
      rw [hph] at h
      cases h
      have hwait := distance_wait (s := { s with out := o.buf, up := s.up ++ o.sent }) hs
      refine less_of rfl (.inr ⟨rfl, ?_⟩)
      rcases hnear with ⟨-, heq⟩ | hlt
      · exact heq ▸ hwait
      · exact hwait.trans hlt
    | entered | head =>
      rw [hph] at h hnear
      cases h
      exact less_of rfl (.inr ⟨rfl, hnear.resolve_left fun h => nomatch h.1⟩)

theorem clientRank_calling {msgNo : Bytes} {phase : ReceivePhase} (hs : s.sending = none)
    (hc : s.client.call = some (msgNo, phase)) : s.clientRank = receiveRank phase := by
  unfold clientRank
  rw [hs, hc]

theorem clientRank_idle (hs : s.sending = none) (hc : s.client.call = none) : s.clientRank = 0 := by
  unfold clientRank
  rw [hs, hc]

theorem less_look (hi : s.Inv) (h : s.look = some s') : Less s'.ahead s.ahead := by
  unfold Exchange.look at h
  split at h
  · rename_i msgNo hc
    obtain ⟨hs, -⟩ := (turn_calling hc).1 hi.turn
    have hbefore := clientRank_calling hs hc
    obtain ⟨client, hstep, h⟩ := Option.map_eq_some_iff.1 h
    subst h
    have hafter : client.decoded = s.client.decoded ∧ (client.call = none ∨ client.call = some (msgNo, .read)) := by
      unfold lookStep at hstep
      rw [hc] at hstep
      dsimp only at hstep
      split at hstep
      · rename_i p client' hg
        cases hstep
        obtain ⟨box, hbox, rfl⟩ := getResPackageData_eq_some.1 hg
        obtain ⟨-, rfl⟩ := Mailbox.Box.take_eq_some.1 hbox
        exact ⟨rfl, .inl rfl⟩
      · cases hstep
        exact ⟨rfl, .inr rfl⟩
    refine less_of rfl (.inr ⟨rfl, ?_⟩)
    have hrank : ∀ results, clientRank { s with client := client, results := results } = 0 := fun results => by
      rcases hafter.2 with hcall | hcall
      · exact clientRank_idle (s := { s with client := client, results := results }) hs hcall
      · exact clientRank_calling (s := { s with client := client, results := results }) hs hcall
    unfold distance
    rw [hrank, hbefore]
    dsimp only [receiveRank]
    rw [hafter.1]
    omega
  · cases h

/-- A read brings something. -/
theorem inputRead_pos {b b' : TcpBuffer} {bs : Bytes} {n : Nat} {filled : Bool}
    (h : inputRead b (bs.take n) = .ok (some (b', filled))) (hn : n ≤ bs.length) : (bs.drop n).length < bs.length := by
  unfold inputRead at h
  obtain ⟨b₁, -, h⟩ := bind_eq_ok.1 h
  split at h
  · rename_i hbs
    have hpos := List.length_pos_of_ne_nil hbs.1
    rw [List.length_take] at hpos
    rw [List.length_drop]
    omega
  · cases h

theorem clientRank_le (s : Exchange) : s.clientRank ≤ 2 := by
  unfold clientRank
  split
  · exact Nat.le_refl 2
  · rename_i phase _ _
    cases phase <;> decide
  · exact Nat.zero_le 2

/-- Three for every byte outweigh the two for `execute`. -/
theorem distance_read {msgNo : Bytes} (hs : s.sending = none) (hc : s.client.call = some (msgNo, .read))
    {client : ReplyConn} (hd : client.decoded = s.client.decoded) {down : Bytes} (hdown : down.length < s.down.length)
    (filled : Bool) (received : Bytes) :
    distance { s with client := client, filled := filled, down := down, received := received } < s.distance := by
  have hafter := clientRank_le { s with client := client, filled := filled, down := down, received := received }
  unfold distance
  rw [clientRank_calling hs hc]
  dsimp only [receiveRank]
  rw [hd]
  omega

theorem less_read (hi : s.Inv) {n : Nat} (hk : HasRoom s.client.buf 1) (h : s.read n = some s') :
    Less s'.ahead s.ahead := by
  unfold Exchange.read at h
  split at h
  · rename_i msgNo hc
    obtain ⟨hs, -⟩ := (turn_calling hc).1 hi.turn
    split at h
    · rename_i hn
      rcases inputRead_spec hi.inbox.usable hk (s.down.take n) with hnone | ⟨buf, filled, hread, hu, hq⟩
      · rw [hnone] at h
        cases h
      · have hfewer := inputRead_pos hread hn
        obtain ⟨-, hstep, -⟩ := hi.inbox.read (hi.received_prefix n) hc hu hq
        rw [hread] at h
        cases filled with
        | true =>
          cases h
          exact less_of rfl (.inr ⟨rfl, distance_read hs hc (by rfl) hfewer true _⟩)
        | false =>
          dsimp only at h
          rw [if_neg (by decide), hstep] at h
          cases h
          exact less_of rfl (.inr ⟨rfl, distance_read hs hc (by rfl) hfewer false _⟩)
    · cases h
  · cases h

theorem less_decode (hi : s.Inv) (hk : s.Keeps .decode) (h : s.decode = some s') : Less s'.ahead s.ahead := by
  unfold Exchange.decode at h
  split at h
  · rename_i msgNo hc
    obtain ⟨hs, hpend, -, -⟩ := (turn_calling hc).1 hi.turn
    obtain ⟨client, hstep, hbox, hafter⟩ := hi.inbox.decode hi.fits hpend.bound hc hk
    rw [hstep] at h
    cases h
    have hle := hbox.split.le
    have hcalls := s.length_replies
    refine less_of rfl (.inr ⟨rfl, ?_⟩)
    unfold distance
    rw [clientRank_calling hs hc]
    rcases hafter with ⟨hcall, hdecoded⟩ | ⟨hcall, hdecoded⟩
    · rw [clientRank_calling (s := { s with client := client }) hs hcall]
      dsimp only
      omega
    · rw [clientRank_calling (s := { s with client := client }) hs hcall]
      dsimp only [receiveRank]
      rw [hdecoded]
      omega
  · cases h

theorem less_arrive (hi : s.Inv) {n : Nat} (hk : HasRoom s.server.buf 1) (h : s.arrive n = some s') :
    Less s'.ahead s.ahead := by
  unfold Exchange.arrive at h
  split at h
  · rename_i hn
    obtain ⟨server, hstep, h⟩ := Option.map_eq_some_iff.1 h
    subst h
    obtain ⟨-, hread⟩ := serveStep_read hstep
    obtain ⟨hhanded, hout, -⟩ := serveRead_frame hread
    have hfewer : (s.up.drop n).length < s.up.length := by
      rcases inputRead_spec hi.server.usable hk (s.up.take n) with hnone | ⟨buf, filled, hinput, -⟩
      · unfold serveRead at hread
        rw [hnone] at hread
        cases hread
      · exact inputRead_pos hinput hn
    refine less_of rfl (.inr ⟨hhanded ▸ rfl, ?_⟩)
    -- three for every byte, and two for `execute`
    have hrank : ∀ phase, serverRank phase ≤ 2 := fun phase => by cases phase <;> decide
    have hafter := hrank server.phase
    have hclient : ∀ server up, clientRank { s with server := server, up := up } = s.clientRank := fun _ _ => rfl
    unfold distance
    rw [hclient]
    dsimp only
    rw [hout]
    omega
  · cases h

theorem less_round (hi : s.Inv) {x : Serviced} (hk : s.Keeps (.round x)) (h : s.round x = some s') :
    Less s'.ahead s.ahead := by
  obtain ⟨server, hstep, h⟩ := Option.map_eq_some_iff.1 h
  subst h
  have hserver := hi.server.step speaks_flconcPb answers_flconcPb (a := .round x) hk.1 hstep
  have hle := hserver.split.le
  have hsound := hserver.sound
  obtain ⟨hphase, rfl⟩ := serveStep_round hstep
  rcases serveRound_cases x with ⟨data, hhanded⟩ | ⟨hhanded, hout, hback⟩
  · refine less_of rfl (.inl ⟨?_, hle⟩)
    dsimp only
    rw [hhanded, List.length_append]
    exact Nat.lt_succ_self _
  · refine less_of rfl (.inr ⟨by dsimp only; rw [hhanded], ?_⟩)
    have hclient : ∀ server, clientRank { s with server := server } = s.clientRank := fun _ => rfl
    unfold distance
    rw [hclient, hphase]
    dsimp only
    rw [hout, hback.resolve_right hsound]
    dsimp only [serverRank]
    omega

theorem less_reply (hi : s.Inv) {rt : Int} (hk : rt ≠ -1) (hp : s.server.out.readAble ≠ 0 → rt ≠ 0)
    (h : s.reply rt = some s') : Less s'.ahead s.ahead := by
  obtain ⟨server, hstep, h⟩ := Option.map_eq_some_iff.1 h
  subst h
  obtain ⟨hphase, hwrite⟩ := serveStep_write hstep
  have hclient : ∀ server down, clientRank { s with server := server, down := down } = s.clientRank := fun _ _ => rfl
  refine less_of rfl (.inr ⟨by rw [(serveWrite_frame hwrite).1], ?_⟩)
  unfold distance
  rw [hclient, hphase]
  dsimp only
  unfold serveWrite at hwrite
  rw [hi.opened.1] at hwrite
  obtain ⟨o, ho, rfl⟩ := Option.map_eq_some_iff.1 hwrite
  dsimp only
  rw [List.drop_left, List.length_append]
  rcases outputRound_takes (o := { buf := s.server.out, phase := .head }) hi.server.out hk hp ho with
    rfl | ⟨hmore, hsum⟩
  · dsimp only [serverRank, behindRound, List.length_nil]
    omega
  · have hrank : serverRank (behindRound o.phase) ≤ 1 := by
      cases o.phase <;> decide
    have hbefore : serverRank .output = 1 := rfl
    dsimp only [List.length_nil] at hmore hsum
    omega

/-- The measure lemma. -/
theorem less_step (hi : s.Inv) {a : ExchangeAct} (hk : s.Keeps a) (hp : s.Productive a)
    (h : exchangeStep s a = some s') : Less s'.ahead s.ahead := by
  cases a with
  | call p => exact hp.elim
  | write rt => exact less_write hi hk hp h
  | look => exact less_look hi h
  | read n => exact less_read hi hk h
  | decode => exact less_decode hi hk h
  | arrive n => exact less_arrive hi hk h
  | round x => exact less_round hi hk h
  | reply rt => exact less_reply hi hk hp h

/-! ## There is always one -/

/-- A round of `output` that writes all there is can be made. -/
theorem outputRound_enabled {b : TcpBuffer} (hb : b.WF) (state : TcpConnectionState) :
    outputRound { buf := b, phase := .head } state b.readAble false ≠ none := by
  have hlen := TcpBuffer.length_readable hb
  unfold outputRound
  rw [if_pos rfl]
  split
  · nofun
  · rw [if_pos (.inr ⟨by omega, le_rfl⟩)]
    split <;> nofun

theorem write_enabled (hi : s.Inv) {msgNo : Bytes} (hs : s.sending = some msgNo) : s.write s.out.readAble ≠ none := by
  unfold Exchange.write
  rw [hs]
  exact fun h => outputRound_enabled hi.out .Connected (Option.map_eq_none_iff.1 h)

theorem look_enabled {msgNo : Bytes} (hc : s.client.call = some (msgNo, .look)) : s.look ≠ none := by
  unfold Exchange.look lookStep
  rw [hc]
  dsimp only
  split <;> nofun

theorem decode_enabled {msgNo : Bytes} (hc : s.client.call = some (msgNo, .exec)) : s.decode ≠ none := by
  unfold Exchange.decode
  rw [hc]
  dsimp only
  split <;> nofun

theorem read_enabled (hi : s.Inv) {msgNo : Bytes} (hc : s.client.call = some (msgNo, .read)) (hdown : s.down ≠ []) :
    s.read 1 ≠ none := by
  have henabled := inputRead_enabled hi.inbox.usable hdown
  unfold Exchange.read
  rw [hc]
  dsimp only
  rw [if_pos (show 1 ≤ s.down.length from List.length_pos_of_ne_nil hdown)]
  split
  · rename_i hnone
    exact absurd hnone henabled
  · unfold inputStep
    rw [hc]
    split <;> nofun
  · nofun

theorem arrive_enabled (hi : s.Inv) (hphase : s.server.phase = .input ∨ s.server.phase = .reading) (hup : s.up ≠ []) :
    s.arrive 1 ≠ none := by
  have henabled := inputRead_enabled hi.server.usable hup
  unfold Exchange.arrive serveStep
  rw [if_pos (show 1 ≤ s.up.length from List.length_pos_of_ne_nil hup)]
  dsimp only
  rw [if_pos hphase]
  unfold serveRead
  split
  · rename_i hnone
    exact absurd hnone henabled
  · nofun
  · nofun

theorem round_enabled (hphase : s.server.phase = .execute) (x : Serviced) : s.round x ≠ none := by
  unfold Exchange.round serveStep
  dsimp only
  rw [if_pos hphase]
  nofun

theorem reply_enabled (hi : s.Inv) (hphase : s.server.phase = .output) : s.reply s.server.out.readAble ≠ none := by
  unfold Exchange.reply serveStep serveWrite
  dsimp only
  rw [if_pos hphase]
  exact fun h => outputRound_enabled hi.server.out s.server.state
    (Option.map_eq_none_iff.1 (Option.map_eq_none_iff.1 h))

/-- While a call has not returned, a productive step is possible, or an end is stuck. -/
theorem exists_productive (hi : s.Inv) (hc : s.Calling) :
    (∃ a, s.Productive a ∧ exchangeStep s a ≠ none) ∨ s.Stuck := by
  cases hs : s.sending with
  | some msgNo => exact .inl ⟨.write s.out.readAble, fun h => h, write_enabled hi hs⟩
  | none =>
    obtain ⟨⟨msgNo, phase⟩, hcall⟩ := Option.ne_none_iff_exists'.1 (hc.resolve_left (not_not.2 hs))
    cases phase with
    | look => exact .inl ⟨.look, trivial, look_enabled hcall⟩
    | exec => exact .inl ⟨.decode, trivial, decode_enabled hcall⟩
    | read =>
      -- the call does not wait for nothing
      by_cases hdown : s.down = []
      · by_cases hup : s.up = []
        · rcases hi.moves msgNo hcall with h | h | h | h | h
          · exact absurd hdown h
          · exact absurd hup h
          · exact .inl ⟨.round ⟨fun _ => none, [], []⟩, trivial, round_enabled h _⟩
          · exact .inl ⟨.reply s.server.out.readAble, fun h => h, reply_enabled hi h⟩
          · exact .inr h
        · refine .inl ?_
          cases hphase : s.server.phase with
          | input => exact ⟨.arrive 1, trivial, arrive_enabled hi (.inl hphase) hup⟩
          | reading => exact ⟨.arrive 1, trivial, arrive_enabled hi (.inr hphase) hup⟩
          | execute => exact ⟨.round ⟨fun _ => none, [], []⟩, trivial, round_enabled hphase _⟩
          | output => exact ⟨.reply s.server.out.readAble, fun h => h, reply_enabled hi hphase⟩
          | closed => exact absurd hphase hi.opened.2
          | faulted => exact absurd hphase hi.server.sound
      · exact .inl ⟨.read 1, trivial, read_enabled hi hcall hdown⟩

/-! ## Calls return -/

/-- Productive steps come to an end, and until every call has returned there is one, unless an end is stuck. -/
def Returns (s : Exchange) : Prop :=
  Lts.Ends exchangeStep (fun s a => s.Keeps a ∧ s.Productive a) s ∧
    (s.Calling → (∃ a, s.Productive a ∧ exchangeStep s a ≠ none) ∨ s.Stuck)

theorem Inv.returns (hi : s.Inv) : s.Returns :=
  ⟨Lts.ends_of_measure less_wf (fun _ _ _ hi hk h => hi.step hk.1 h) ahead
    (fun _ _ _ hi hk h => less_step hi hk.1 hk.2 h) hi, exists_productive hi⟩

/-- From every state of every run, calls return as long as writes go on taking something. -/
theorem returns_of_keeps {size : Nat} (h0 : 0 < size) (hsize : size < 2 ^ 31) {acts : List ExchangeAct}
    (hk : Lts.Along exchangeStep Keeps (.new size) acts) : Lts.Always exchangeStep Returns (.new size) acts :=
  (Lts.always_of_along (fun _ _ _ hi hk h => hi.step hk h) (Inv.new h0 hsize) hk).imp fun _ hi => hi.returns

theorem returns_small : Lts.Always exchangeStep Returns (.new 128) smallCalls ∧
    (Lts.run exchangeStep (.new 128) smallCalls).map (fun s => s.results.length) = some 2 :=
  ⟨returns_of_keeps (by decide) (by decide) keeps_smallCalls, by decide +kernel⟩

end Exchange

/-! ## A call of the service from afar -/

/-- What a caller sees of an outcome, with the parser of its response. -/
def RpcController.finish (c : RpcController) (parse : Bytes → Bool) (o : Outcome) : RpcController :=
  if ¬ parse o.pbData then c.setError ERROR_FAILED_DESERIALIZE (ascii "failed to deserialize data from server")
  else if o.errCode ≠ 0 then c.setError o.errCode o.errInfo
  else c

/-- The request of the call is this packet, there is room for it in the new buffer, and the connection gave
back this reply. -/
structure RpcCall.Sends (call : RpcCall) (c : RpcController) (p : Packet) (d : FlconcPbStruct) : Prop where
  request : ∃ pbData, call.serialized = some pbData ∧
    callMethodPacket call.method c.msgReq call.runTimeMsgNo call.genMsgNumber pbData = p.1
  room : (TcpBuffer.ofSize 128).Room (packet p.1).length
  received : call.rt = 0
  reply : call.resData = d

/-- The caller's controller takes the number of its first request. -/
def RpcController.number (c : RpcController) (msgReq : Bytes) : RpcController :=
  if c.msgReq = [] then c.setMsgReq msgReq else c

/-- With the reply to its request, a call leaves the controller as its outcome says. -/
theorem RpcController.callMethod_eq {c : RpcController} {call : RpcCall} {p : Packet} {d : FlconcPbStruct} {o : Outcome}
    (hsends : call.Sends c p d) (hd : Reads (replyFor p.1.msgReq p.1 o) d) :
    c.callMethod call = .ok ((c.number p.1.msgReq).finish call.parse o) := by
  obtain ⟨⟨pbData, hser, hp⟩, hroom, hrt, rfl⟩ := hsends
  obtain ⟨out, e, henc, -⟩ := Exchange.encode_room call.genMsgNumber' (TcpBuffer.ofSize_wf (by decide)) p hroom
  have hsucc : e.encodeSucc = true := (encodeSucc_iff henc).2 p.2.service_ne
  have hpb : call.resData.pbData = o.pbData := hd.pbData
  have hcode : call.resData.errCode = o.errCode := hd.errCode
  have hinfo : call.resData.errInfo = o.errInfo := hd.errInfo
  unfold callMethod finish number
  rw [hser]
  dsimp only
  rw [hp, henc, ok_bind]
  dsimp only
  rw [if_neg (not_not.2 hsucc), if_neg (not_not.2 hrt), hpb, hcode, hinfo]
  split
  · rfl
  · split <;> rfl

namespace Exchange

/-- A call over the connection that has returned leaves the controller as the outcome of its request says, with
the services as they were when it was dispatched. -/
def CallsAsLocal (s : Exchange) : Prop :=
  ∀ (n : Nat) (p : Packet) (d : FlconcPbStruct), s.calls[n]? = some p → s.results[n]? = some d →
    ∃ x, s.server.handed[n]? = some x ∧
    ∀ (c : RpcController) (call : RpcCall), call.Sends c p d →
      c.callMethod call = .ok ((c.number p.1.msgReq).finish call.parse (outcome x.1.services p.1.msgReq p.1))

theorem OwnReplies.callsAsLocal {s : Exchange} (h : s.OwnReplies) : s.CallsAsLocal := by
  intro n p d hp hd
  obtain ⟨hn, hget⟩ := List.getElem?_eq_some_iff.1 hd
  have hown := h.own.length_eq
  have hlt : n < (s.replies.take s.results.length).length := by omega
  have hread := h.own.get hlt hn
  rw [List.get_eq_getElem, List.get_eq_getElem, hget, List.getElem_take] at hread
  have hlt' : n < s.replies.length := by
    rw [List.length_take] at hlt
    omega
  have hr : s.replies[n]? = some s.replies[n] := List.getElem?_eq_getElem hlt'
  -- the reply was made from what was dispatched
  unfold replies at hr
  rw [List.getElem?_zipWith, hp] at hr
  cases hx : s.server.handed[n]? with
  | none =>
    rw [hx] at hr
    cases hr
  | some x =>
    rw [hx] at hr
    have hreply : x.1.reply p = s.replies[n] := Option.some.inj hr
    rw [← hreply] at hread
    exact ⟨x, rfl, fun c call hsends => RpcController.callMethod_eq hsends hread⟩

/-- Calls over a connection do what calls of the services themselves would do. -/
theorem callsAsLocal_of_keeps {size : Nat} (h0 : 0 < size) (hsize : size < 2 ^ 31) {acts : List ExchangeAct}
    (hk : Lts.Along exchangeStep Keeps (.new size) acts) : Lts.Always exchangeStep CallsAsLocal (.new size) acts :=
  (Lts.always_of_along (fun _ _ _ hi hk h => hi.step hk h) (Inv.new h0 hsize) hk).imp fun _ hi =>
    hi.ownReplies.callsAsLocal

/-- The call of the method `m` of the service `S` under the number 1, with what it got back. -/
def smallCall (resData : FlconcPbStruct) : RpcCall where
  method := ⟨ascii "m", ascii "S.m"⟩
  serialized := some []
  runTimeMsgNo := []
  genMsgNumber := []
  genMsgNumber' := []
  rt := 0
  errInfo := []
  resData := resData
  parse := fun _ => true

/-- Two calls have returned, and the first is the call of that method. -/
theorem callsAsLocal_small : Lts.Always exchangeStep CallsAsLocal (.new 128) smallCalls ∧
    ∃ s d, Lts.run exchangeStep (.new 128) smallCalls = some s ∧ s.results.length = 2 ∧
      s.calls[0]? = some smallCallPacket ∧ s.results[0]? = some d ∧
      (smallCall d).Sends { msgReq := ascii "1" } smallCallPacket d := by
  refine ⟨callsAsLocal_of_keeps (by decide) (by decide) keeps_smallCalls, ?_⟩
  have hrun : (Lts.run exchangeStep (.new 128) smallCalls).map (fun s => (s.results.length, s.calls[0]?)) =
      some (2, some smallCallPacket) := by decide +kernel
  obtain ⟨s, hs, heq⟩ := Option.map_eq_some_iff.1 hrun
  obtain ⟨hlen, hcall⟩ := Prod.mk.inj heq
  exact ⟨s, s.results[0], hs, hlen, hcall, List.getElem?_eq_getElem _, ⟨[], rfl, rfl⟩, .inl (by decide +kernel), rfl,
    rfl⟩

end Exchange

end Flconc.FlconcPb
