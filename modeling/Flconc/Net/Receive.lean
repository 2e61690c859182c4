/-
One call of `TcpConnection::input` of net/tcp/tcp_connection.cc on a socket at which some bytes stand
and nothing else happens: whether the call returns with them, or goes to sleep in `read_hook`.

The loop reads again when a read has filled all the room it was given. When the last bytes fill it
exactly, the next read finds nothing and suspends the coroutine, with everything already in the buffer.
-/
import Flconc.Net.Input
import Flconc.Net.Output
import Flconc.Lib.Loop
import Mathlib.Tactic.Ring

namespace Flconc

open Wire

/-! ## One call -/

/-- `input` between two of its reads: the read buffer, and the bytes that stand at the socket. -/
structure Receiving where
  buf : TcpBuffer
  socket : Bytes

/-- How a call goes on: it returns, `read_hook` suspends it, or something is raised. -/
inductive InputEnd
  | returned (buf : TcpBuffer)
  | suspended (buf : TcpBuffer)
  | raised (e : Fault)

/-- What `read_hook` has put behind the write index joins the queue. -/
def takeIn (b : TcpBuffer) (bs : Bytes) : Except Fault TcpBuffer := do
  let t ← TcpBuffer.overwrite b.buffer b.writeIndex bs
  TcpBuffer.recycleWrite { b with buffer := t } bs.length

/-- One round of the loop. -/
def inputRound (s : Receiving) : Receiving ⊕ InputEnd :=
  match growIfFull s.buf with
  | .error e => .inr (.raised e)
  | .ok b =>
    let readCount := b.writeAble.toNat
    let bs := s.socket.take readCount
    if bs = [] then .inr (.suspended b)
    else
      match takeIn b bs with
      | .error e => .inr (.raised e)
      | .ok b' => if bs.length = readCount then .inl ⟨b', s.socket.drop readCount⟩ else .inr (.returned b')

/-- One read of the loop that brings these bytes: the read buffer, and whether they have filled its room. A
read brings some, and no more than there is room for. -/
def inputRead (b : TcpBuffer) (bs : Bytes) : Except Fault (Option (TcpBuffer × Bool)) := do
  let b ← growIfFull b
  if bs ≠ [] ∧ bs.length ≤ b.writeAble then do
    let b' ← takeIn b bs
    return some (b', bs.length = b.writeAble)
  else return none

/-- At most `n` rounds of a call. -/
def input (n : Nat) (overTime : Bool) (state : TcpConnectionState) (s : Receiving) : Option InputEnd :=
  if overTime ∨ state = .Closed ∨ state = .NotConnected then some (.returned s.buf)
  else Loop.run inputRound n s

/-- The call returns with all the bytes in the read buffer, in order. -/
def Delivers (b : TcpBuffer) (arrived : Bytes) : Prop :=
  ∃ n b', input n false .Connected ⟨b, arrived⟩ = some (.returned b') ∧ b'.Holds (b.readable ++ arrived)

theorem delivers_gives {b : TcpBuffer} {arrived : Bytes} : Delivers b arrived ↔
    ∃ b', Loop.Gives inputRound ⟨b, arrived⟩ (.returned b') ∧ b'.Holds (b.readable ++ arrived) := by
  constructor
  · rintro ⟨n, b', h, hh⟩
    exact ⟨b', ⟨n, h⟩, hh⟩
  · rintro ⟨b', ⟨n, h⟩, hh⟩
    exact ⟨n, b', h, hh⟩

/-! ## Rounds -/

/-- With nothing at the socket the call does not return. -/
theorem not_delivers_nil (b : TcpBuffer) : ¬ Delivers b [] := by
  rw [delivers_gives]
  rintro ⟨b', h, -⟩
  cases hg : growIfFull b with
  | error e =>
    have hb : inputRound ⟨b, []⟩ = .inr (.raised e) := by unfold inputRound; rw [hg]
    cases (Loop.gives_exit hb).1 h
  | ok b₁ =>
    have hb : inputRound ⟨b, []⟩ = .inr (.suspended b₁) := by
      unfold inputRound
      rw [hg]
      dsimp only
      rw [List.take_nil, if_pos rfl]
    cases (Loop.gives_exit hb).1 h

/-- A full buffer is doubled first, into one that has compacted itself; none of 2^30 bytes is. -/
theorem delivers_full {b : TcpBuffer} (hb : b.WF) (hfull : b.writeAble = 0) (hpos : 0 < b.getSize)
    (arrived : Bytes) :
    (¬ 2 * b.getSize < 2 ^ 31 → ¬ Delivers b arrived) ∧
      (2 * b.getSize < 2 ^ 31 → ∃ b₁ : TcpBuffer, b₁.WF ∧ b₁.readIndex = 0 ∧ b₁.getSize = 2 * b.getSize ∧
        b₁.readAble = b.readAble ∧ 0 < b₁.writeAble ∧ (Delivers b arrived ↔ Delivers b₁ arrived)) := by
  have h1 := hb.read
  have h2 := hb.order
  have h3 := hb.write
  constructor
  · intro hbig
    rw [delivers_gives]
    rintro ⟨b', h, -⟩
    have hg : growIfFull b = .error .thrown := by
      unfold growIfFull TcpBuffer.resizeBuffer
      rw [if_pos hfull, if_neg (fun h => hbig h.2)]
    have hr : inputRound ⟨b, arrived⟩ = .inr (.raised .thrown) := by unfold inputRound; rw [hg]
    cases (Loop.gives_exit hr).1 h
  · intro hsmall
    unfold TcpBuffer.writeAble at hfull
    have hfit : b.readAble ≤ 2 * b.getSize := by unfold TcpBuffer.readAble; omega
    obtain ⟨b₁, hb₁, hh, hr, hs⟩ := TcpBuffer.resizeBuffer_spec hb hfit hsmall
    have hq : b₁.readAble = b.readAble := by rw [hh.readAble, TcpBuffer.length_readable hb]
    have hw : 0 < b₁.writeAble := by
      unfold TcpBuffer.readAble at hq
      unfold TcpBuffer.writeAble TcpBuffer.getSize at *
      omega
    refine ⟨b₁, hh.wf, hr, hs, hq, hw, ?_⟩
    -- both calls make the same first round
    have hg : growIfFull b = .ok b₁ := by
      unfold growIfFull
      rw [if_pos (show b.writeAble = 0 from hfull), hb₁]
    have hg₁ : growIfFull b₁ = .ok b₁ := by
      unfold growIfFull
      rw [if_neg (by omega)]
    have hsame : inputRound ⟨b, arrived⟩ = inputRound ⟨b₁, arrived⟩ := by
      unfold inputRound
      rw [hg, hg₁]
    rw [delivers_gives, delivers_gives, hh.queue]
    refine exists_congr fun b' => and_congr_left fun _ => ?_
    cases hr : inputRound ⟨b₁, arrived⟩ with
    | inl s => rw [Loop.gives_next (hsame.trans hr), Loop.gives_next hr]
    | inr r => rw [Loop.gives_exit (hsame.trans hr), Loop.gives_exit hr]

/-- A vector of no bytes stays one, and a read of none returns none. -/
theorem not_delivers_empty {b : TcpBuffer} (hb : b.WF) (h0 : b.getSize = 0) (arrived : Bytes) :
    ¬ Delivers b arrived := by
  have h1 := hb.read
  have h2 := hb.order
  have h3 := hb.write
  rw [delivers_gives]
  rintro ⟨b', h, -⟩
  have hw : b.writeAble = 0 := by
    unfold TcpBuffer.writeAble
    unfold TcpBuffer.getSize at *
    omega
  obtain ⟨b₁, hb₁, hh, -, hs⟩ := TcpBuffer.resizeBuffer_spec hb (n := 2 * b.getSize)
    (by unfold TcpBuffer.readAble TcpBuffer.getSize at *; omega) (by omega)
  have hw₁ : b₁.writeAble.toNat = 0 := by
    have := hh.wf.read
    have := hh.wf.order
    unfold TcpBuffer.writeAble TcpBuffer.getSize at *
    omega
  have hr : inputRound ⟨b, arrived⟩ = .inr (.suspended b₁) := by
    unfold inputRound growIfFull
    dsimp only
    rw [if_pos hw, hb₁]
    dsimp only
    rw [hw₁, List.take_zero, if_pos rfl]
  cases (Loop.gives_exit hr).1 h

/-- What a read that is given room puts in. -/
theorem takeIn_spec {b : TcpBuffer} (hb : b.WF) {bs : Bytes} (hbs : bs.length ≤ b.writeAble) :
    ∃ b', takeIn b bs = .ok b' ∧ b'.Holds (b.readable ++ bs) ∧ b'.getSize = b.getSize ∧ b'.Compact ∧
      b'.readIndex = if b.Compact then b.readIndex else 0 := by
  obtain ⟨t, b', ht, hb', hh, hs, -⟩ := TcpBuffer.recycleWrite_spec hb hbs
  obtain ⟨t', ht', hl, hh'⟩ := TcpBuffer.overwrite_spec hb hbs
  rw [ht] at ht'
  cases ht'
  have hin : b.writeIndex + (bs.length : Int) ≤ TcpBuffer.getSize { b with buffer := t } := hh'.wf.write
  have hsize : t.length < 2 ^ 31 := hh'.wf.size
  have hr := hb.read
  have ho := hb.order
  have hadj : TcpBuffer.adjustBuffer ⟨t, b.readIndex, b.writeIndex + bs.length⟩ = .ok b' := by
    rw [← hb', TcpBuffer.recycleWrite_move (b := { b with buffer := t }) hsize (by dsimp only; omega) hin]
  have hcompact : TcpBuffer.Compact ⟨t, b.readIndex, b.writeIndex + bs.length⟩ ↔ b.Compact := by
    unfold TcpBuffer.Compact
    dsimp only
    rw [hl]
  refine ⟨b', ?_, hh, congrArg Nat.cast hs, TcpBuffer.adjustBuffer_compact hadj, ?_⟩
  · unfold takeIn
    rw [ht, ok_bind, hb']
  · split
    · rename_i hc
      rw [(hcompact.2 hc).adjustBuffer] at hadj
      cases hadj
      rfl
    · rename_i hc
      have hthird := not_le.1 (hcompact.not.2 hc)
      unfold TcpBuffer.adjustBuffer at hadj
      rw [if_pos hthird] at hadj
      obtain ⟨live, -, hadj⟩ := bind_eq_ok.1 hadj
      cases hadj
      rfl

/-! ## One read -/

/-- A round of the loop is a read of all that there is room for. -/
theorem inputRound_read {b b' : TcpBuffer} {bs : Bytes} {filled : Bool}
    (h : inputRead b bs = .ok (some (b', filled))) (rest : Bytes) (hrest : filled = false → rest = []) :
    inputRound ⟨b, bs ++ rest⟩ = if filled then .inl ⟨b', rest⟩ else .inr (.returned b') := by
  unfold inputRead at h
  obtain ⟨b₁, hb₁, h⟩ := bind_eq_ok.1 h
  split at h
  · rename_i hbs
    obtain ⟨b₂, hb₂, h⟩ := bind_eq_ok.1 h
    cases h
    unfold inputRound
    rw [hb₁]
    dsimp only
    by_cases hfull : (bs.length : Int) = b₁.writeAble
    · have hroom : b₁.writeAble.toNat = bs.length := by omega
      rw [hroom, List.take_left, List.drop_left, if_neg hbs.1, hb₂]
      dsimp only
      rw [if_pos rfl, if_pos (decide_eq_true hfull)]
    · rw [hrest (decide_eq_false hfull), List.append_nil, List.take_of_length_le (by omega), if_neg hbs.1, hb₂]
      dsimp only
      rw [if_neg (by omega), if_neg (by simpa using hfull)]
  · cases h

/-- A read into a buffer that may grow appends what it brings. -/
theorem inputRead_spec {b : TcpBuffer} (hb : Usable b) (hroom : HasRoom b 1) (bs : Bytes) :
    inputRead b bs = .ok none ∨
      ∃ b' filled, inputRead b bs = .ok (some (b', filled)) ∧ Usable b' ∧ b'.readable = b.readable ++ bs := by
  obtain ⟨b₁, hb₁, hu, hq, -, -⟩ := growIfFull_spec hb Nat.one_pos hroom
  unfold inputRead
  rw [hb₁, ok_bind]
  split
  · rename_i hbs
    obtain ⟨b₂, hb₂, hh, hsize, hcompact, -⟩ := takeIn_spec hu.wf hbs.2
    have hnonempty := hu.nonempty
    rw [hb₂, ok_bind]
    refine .inr ⟨b₂, _, rfl, ⟨hh.wf, hcompact, ?_⟩, by rw [hh.queue, hq]⟩
    unfold TcpBuffer.getSize at hsize
    omega
  · exact .inl rfl

/-- While bytes stand at the socket, a read is possible, or the buffer cannot grow. -/
theorem inputRead_enabled {b : TcpBuffer} (hb : Usable b) {bs : Bytes} (hbs : bs ≠ []) :
    inputRead b (bs.take 1) ≠ .ok none := by
  have hone : (bs.take 1).length = 1 := by
    have := List.length_pos_of_ne_nil hbs
    rw [List.length_take]
    omega
  have hne : bs.take 1 ≠ [] := List.ne_nil_of_length_pos (by omega)
  unfold inputRead
  by_cases hroom : HasRoom b 1
  · obtain ⟨b₁, hb₁, hu, -, hpos, -⟩ := growIfFull_spec hb Nat.one_pos hroom
    have hle : ((bs.take 1).length : Int) ≤ b₁.writeAble := by omega
    obtain ⟨b₂, hb₂, -⟩ := takeIn_spec hu.wf hle
    rw [hb₁, ok_bind, if_pos ⟨hne, hle⟩, hb₂]
    nofun
  · -- the buffer is full, and too large to be doubled
    have h1 := hb.wf.read
    have h2 := hb.wf.order
    have h3 := hb.wf.write
    unfold HasRoom TcpBuffer.writeAble TcpBuffer.readAble TcpBuffer.getSize at hroom
    have hg : growIfFull b = .error .thrown := by
      unfold growIfFull TcpBuffer.resizeBuffer TcpBuffer.writeAble TcpBuffer.getSize
      rw [if_pos (by omega), if_neg (by omega)]
    rw [hg]
    nofun

/-! ## Short reads, and reads that fill the room -/

/-- A read that does not fill the room ends the call. -/
theorem delivers_short {b : TcpBuffer} (hb : b.WF) {arrived : Bytes} (hne : arrived ≠ [])
    (hlt : arrived.length < b.writeAble) : Delivers b arrived := by
  have htake : arrived.take b.writeAble.toNat = arrived := List.take_of_length_le (by omega)
  obtain ⟨b', hb', hh, -⟩ := takeIn_spec hb (show (arrived.length : Int) ≤ b.writeAble by omega)
  have hg : growIfFull b = .ok b := by
    unfold growIfFull
    rw [if_neg (by omega)]
  have hr : inputRound ⟨b, arrived⟩ = .inr (.returned b') := by
    unfold inputRound
    rw [hg]
    dsimp only
    rw [htake, if_neg hne, hb']
    dsimp only
    rw [if_neg (by omega)]
  exact delivers_gives.2 ⟨b', (Loop.gives_exit hr).2 rfl, hh⟩

/-- A read that fills it goes on to the next one. -/
theorem delivers_fills {b : TcpBuffer} (hb : b.WF) {arrived : Bytes} (hpos : 0 < b.writeAble)
    (hle : b.writeAble ≤ arrived.length) : ∃ b₁ : TcpBuffer, b₁.WF ∧ b₁.Compact ∧ b₁.getSize = b.getSize ∧
      b₁.readAble = b.readAble + b.writeAble ∧ b₁.readIndex = (if b.Compact then b.readIndex else 0) ∧
      (Delivers b arrived ↔ Delivers b₁ (arrived.drop b.writeAble.toNat)) := by
  have hlen : (arrived.take b.writeAble.toNat).length = b.writeAble.toNat := by
    rw [List.length_take]
    omega
  have hne : arrived.take b.writeAble.toNat ≠ [] := List.ne_nil_of_length_pos (by omega)
  have hfits : ((arrived.take b.writeAble.toNat).length : Int) ≤ b.writeAble := by omega
  obtain ⟨b₁, hb₁, hh, hs, hc, hr⟩ := takeIn_spec hb hfits
  refine ⟨b₁, hh.wf, hc, hs, ?_, hr, ?_⟩
  · rw [hh.readAble, List.length_append, ← TcpBuffer.length_readable hb]
    omega
  · have hg : growIfFull b = .ok b := by
      unfold growIfFull
      rw [if_neg (by omega)]
    have hround : inputRound ⟨b, arrived⟩ = .inl ⟨b₁, arrived.drop b.writeAble.toNat⟩ := by
      unfold inputRound
      rw [hg]
      dsimp only
      rw [if_neg hne, hb₁]
      dsimp only
      rw [if_pos hlen]
    rw [delivers_gives, delivers_gives, hh.queue, List.append_assoc, List.take_append_drop]
    exact exists_congr fun b' => and_congr_left fun _ => Loop.gives_next hround

/-! ## Which numbers of bytes return -/

/-- Doubled, once or more often, a buffer of `n` bytes becomes larger than `m` without a vector of
2^31 bytes, and no doubling makes it exactly `m`. -/
def Outgrows (n m : Int) : Prop :=
  (∃ j, 1 ≤ j ∧ n * 2 ^ j < 2 ^ 31 ∧ m < n * 2 ^ j) ∧ ∀ i, 1 ≤ i → m ≠ n * 2 ^ i

/-- One doubling. -/
theorem outgrows_double {n m : Int} (hn : 0 < n) :
    Outgrows n m ↔ 2 * n < 2 ^ 31 ∧ (m < 2 * n ∨ 2 * n < m ∧ Outgrows (2 * n) m) := by
  have hpow : ∀ i : Nat, n * 2 ^ (i + 1) = 2 * n * 2 ^ i := fun i => by ring
  have hmono : ∀ i : Nat, 2 * n ≤ 2 * n * 2 ^ i := fun i =>
    le_mul_of_one_le_right (by omega) (one_le_pow₀ (by decide))
  constructor
  · rintro ⟨⟨j, hj, hsize, hlt⟩, hne⟩
    obtain ⟨i, rfl⟩ : ∃ i, j = i + 1 := ⟨j - 1, by omega⟩
    rw [hpow] at hsize hlt
    refine ⟨lt_of_le_of_lt (hmono i) hsize, ?_⟩
    have hne2 : m ≠ 2 * n := by
      have := hne 1 le_rfl
      rw [pow_one] at this
      omega
    rcases lt_or_gt_of_ne hne2 with h | h
    · exact .inl h
    · refine .inr ⟨h, ⟨i, ?_, hsize, hlt⟩, fun i' _ => ?_⟩
      · by_contra hi
        obtain rfl : i = 0 := by omega
        rw [pow_zero, mul_one] at hlt
        omega
      · rw [← hpow]
        exact hne (i' + 1) (by omega)
  · rintro ⟨hsize, h⟩
    rcases h with hlt | ⟨hgt, ⟨j, hj, hsize', hlt⟩, hne⟩
    · refine ⟨⟨1, le_rfl, ?_, ?_⟩, fun i hi => ?_⟩
      · rw [pow_one]; omega
      · rw [pow_one]; omega
      · obtain ⟨i, rfl⟩ : ∃ i', i = i' + 1 := ⟨i - 1, by omega⟩
        rw [hpow]
        have := hmono i
        omega
    · refine ⟨⟨j + 1, by omega, ?_, ?_⟩, fun i hi => ?_⟩
      · rw [hpow]; exact hsize'
      · rw [hpow]; exact hlt
      · obtain ⟨i, rfl⟩ : ∃ i', i = i' + 1 := ⟨i - 1, by omega⟩
        rw [hpow]
        by_cases h0 : i = 0
        · subst h0
          rw [pow_zero, mul_one]
          omega
        · exact hne i (by omega)

theorem not_outgrows_nonpos {n m : Int} (hn : n ≤ 0) (hm : 0 ≤ m) : ¬ Outgrows n m := by
  rintro ⟨⟨j, -, -, hlt⟩, -⟩
  have : n * 2 ^ j ≤ 0 := mul_nonpos_of_nonpos_of_nonneg hn (by positivity)
  omega

/-- What is left over when a buffer with less room than has arrived is full. -/
theorem delivers_rest {b₁ : TcpBuffer} {arrived : Bytes} {room : Int} {P : Prop} (hroom : 0 < room)
    (hlt : ¬ arrived.length < room)
    (hrest : ∀ rest : Bytes, rest ≠ [] → (rest.length : Int) = arrived.length - room → (Delivers b₁ rest ↔ P)) :
    Delivers b₁ (arrived.drop room.toNat) ↔ room < arrived.length ∧ P := by
  have hlen : ((arrived.drop room.toNat).length : Int) = arrived.length - room := by
    rw [List.length_drop]
    omega
  by_cases hnil : arrived.drop room.toNat = []
  · rw [hnil] at hlen ⊢
    refine iff_of_false (not_delivers_nil b₁) fun h => ?_
    simp only [List.length_nil, Nat.cast_zero] at hlen
    omega
  · have hpos := List.length_pos_of_ne_nil hnil
    rw [hrest _ hnil hlen, and_iff_right (show room < arrived.length by omega)]

/-- A buffer that has compacted itself and has room: the bytes are fewer than that, or some are left
over when it is full. -/
theorem delivers_room {b : TcpBuffer} (hb : b.WF) (hc : b.Compact) (hpos : 0 < b.writeAble)
    {arrived : Bytes} (hne : arrived ≠ [])
    (hfull : ∀ {b₁ : TcpBuffer} {rest : Bytes}, b₁.WF → b₁.writeAble = 0 → rest.length < arrived.length →
      rest ≠ [] → (Delivers b₁ rest ↔ Outgrows b₁.getSize (b₁.readAble + rest.length))) :
    Delivers b arrived ↔ arrived.length < b.writeAble ∨
      b.writeAble < arrived.length ∧ Outgrows b.getSize (b.readAble + arrived.length) := by
  by_cases hlt : arrived.length < b.writeAble
  · exact iff_of_true (delivers_short hb hne hlt) (.inl hlt)
  · obtain ⟨b₁, hb₁, -, hs, hq, hr, hd⟩ := delivers_fills hb hpos (not_lt.1 hlt)
    rw [if_pos hc] at hr
    have hw₁ : b₁.writeAble = 0 := by
      unfold TcpBuffer.readAble at hq
      unfold TcpBuffer.writeAble at *
      omega
    rw [hd, or_iff_right hlt]
    refine delivers_rest hpos hlt fun rest hrest hlen => ?_
    rw [hfull hb₁ hw₁ (by omega) hrest, hs, hq, hlen,
      show b.readAble + b.writeAble + (arrived.length - b.writeAble) = b.readAble + arrived.length by omega]

/-- A full buffer: it has to outgrow what is queued with what has arrived. -/
theorem delivers_full_iff (k : Nat) : ∀ {b : TcpBuffer} {arrived : Bytes}, b.WF → b.writeAble = 0 →
    arrived.length = k → arrived ≠ [] →
    (Delivers b arrived ↔ Outgrows b.getSize (b.readAble + arrived.length)) := by
  induction k using Nat.strong_induction_on with
  | _ k ih =>
    intro b arrived hb hfull hk hne
    have hq0 : 0 ≤ b.readAble := by
      rw [← TcpBuffer.length_readable hb]
      omega
    by_cases hpos : 0 < b.getSize
    · obtain ⟨hbig, hsmall⟩ := delivers_full hb hfull hpos arrived
      rw [outgrows_double hpos]
      by_cases hsize : 2 * b.getSize < 2 ^ 31
      · obtain ⟨b₁, hb₁, hr, hs, hq, hw, hd⟩ := hsmall hsize
        have hc : b₁.Compact := by
          unfold TcpBuffer.Compact
          omega
        have hroom : b₁.writeAble = 2 * b.getSize - b.readAble := by
          unfold TcpBuffer.readAble at *
          unfold TcpBuffer.writeAble at *
          omega
        rw [hd, delivers_room hb₁ hc hw hne fun h1 h2 h3 h4 => ih _ (hk ▸ h3) h1 h2 rfl h4, hroom, hs, hq,
          and_iff_right hsize]
        refine or_congr ?_ (and_congr_left fun _ => ?_) <;> omega
      · exact iff_of_false (hbig hsize) fun h => hsize h.1
    · have h0 : b.getSize = 0 := le_antisymm (not_lt.1 hpos) (Int.natCast_nonneg _)
      exact iff_of_false (not_delivers_empty hb h0 arrived) (not_outgrows_nonpos h0.le (by omega))

/-- The bytes that return: fewer than the room there is; or more, when the buffer outgrows them, at
once or (if the read compacts it and makes room) after what it holds has been exceeded. -/
def ReturnsAll (b : TcpBuffer) (k : Nat) : Prop :=
  k < b.writeAble ∨ b.writeAble < k ∧
    if b.Compact ∨ b.writeAble = 0 then Outgrows b.getSize (b.readAble + k)
    else b.readAble + k < b.getSize ∨
      b.getSize < b.readAble + k ∧ Outgrows b.getSize (b.readAble + k)

/-- A buffer that has not compacted itself and has room: the read that fills it does, and makes room. -/
theorem delivers_loose {b : TcpBuffer} (hb : b.WF) (hc : ¬ b.Compact) (hpos : 0 < b.writeAble)
    {arrived : Bytes} (hne : arrived ≠ []) : Delivers b arrived ↔ arrived.length < b.writeAble ∨
      b.writeAble < arrived.length ∧ (b.readAble + arrived.length < b.getSize ∨
        b.getSize < b.readAble + arrived.length ∧ Outgrows b.getSize (b.readAble + arrived.length)) := by
  by_cases hlt : arrived.length < b.writeAble
  · exact iff_of_true (delivers_short hb hne hlt) (.inl hlt)
  · obtain ⟨b₁, hb₁, hc₁, hs, hq, hr, hd⟩ := delivers_fills hb hpos (not_lt.1 hlt)
    rw [if_neg hc] at hr
    have hthird := not_le.1 hc
    have hw₁ : b₁.writeAble = b.getSize - b.readAble - b.writeAble := by
      unfold TcpBuffer.readAble at *
      unfold TcpBuffer.writeAble at *
      omega
    have hroom : b₁.writeAble = b.readIndex := by
      unfold TcpBuffer.readAble at hw₁
      unfold TcpBuffer.writeAble at *
      omega
    rw [hd, or_iff_right hlt]
    refine delivers_rest hpos hlt fun rest hrest hlen => ?_
    rw [delivers_room hb₁ hc₁ (by omega) hrest fun h1 h2 _ h4 => delivers_full_iff _ h1 h2 rfl h4, hw₁, hs, hq, hlen,
      show b.readAble + b.writeAble + (arrived.length - b.writeAble) = b.readAble + arrived.length by omega]
    refine or_congr ?_ (and_congr_left fun _ => ?_) <;> omega

/-- One call on a quiet socket returns with everything that stands there exactly then. -/
theorem delivers_iff {b : TcpBuffer} (hb : b.WF) {arrived : Bytes} (hne : arrived ≠ []) :
    Delivers b arrived ↔ ReturnsAll b arrived.length := by
  have hpos : 0 < arrived.length := List.length_pos_of_ne_nil hne
  have hw : 0 ≤ b.writeAble := Int.sub_nonneg.2 hb.write
  unfold ReturnsAll
  by_cases hw0 : b.writeAble = 0
  · rw [delivers_full_iff _ hb hw0 rfl hne, if_pos (.inr hw0), or_iff_right (by omega), and_iff_right (by omega)]
  · by_cases hc : b.Compact
    · rw [if_pos (.inl hc)]
      exact delivers_room hb hc (by omega) hne fun h1 h2 _ h4 => delivers_full_iff _ h1 h2 rfl h4
    · rw [if_neg (not_or.2 ⟨hc, hw0⟩)]
      exact delivers_loose hb hc (by omega) hne

theorem delivers_three : Delivers (.ofSize 128) [1, 2, 3] ↔ ReturnsAll (.ofSize 128) ([1, 2, 3] : Bytes).length :=
  delivers_iff (TcpBuffer.ofSize_wf (by decide)) (by decide)

/-- A connection's first 128 bytes: they are all read, and the call waits for more. -/
theorem not_delivers_filled : ¬ Delivers (.ofSize 128) (List.replicate 128 0x61) := by
  have hb : (TcpBuffer.ofSize 128).WF := TcpBuffer.ofSize_wf (by decide)
  have hw : (TcpBuffer.ofSize 128).writeAble = 128 := by
    simp [TcpBuffer.writeAble, TcpBuffer.getSize, TcpBuffer.ofSize]
  have hle : (TcpBuffer.ofSize 128).writeAble ≤ (List.replicate 128 (0x61 : UInt8)).length := by
    rw [hw, List.length_replicate]
    rfl
  obtain ⟨b₁, -, -, -, -, -, hd⟩ := delivers_fills hb (by omega) hle
  rw [hd, hw]
  exact not_delivers_nil b₁

end Flconc
