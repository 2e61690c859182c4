/-
`MsgReqUtil::genMsgNumber` of comm/msg_req.cc: the message numbers of one thread, counted up as decimal
strings of the configured length from a random seed. A read of /dev/urandom delivers the bytes of a
seed, or fewer.
-/
import Flconc.Lib.Decimal
import Mathlib.Data.List.Chain

namespace Flconc.MsgReq

open Wire Decimal

/-! ## The model -/

/-- The `thread_local` strings. -/
structure Thread where
  msgReqNu : Bytes := []
  maxMsgReqNu : Bytes := []
  /-- How many seeds were taken. -/
  epoch : Nat := 0
  deriving DecidableEq

/-- The digits made of the bytes that were read. -/
def seedDigits (res : Bytes) : Bytes := res.map fun c => c % 10 + 0x30

/-- The loop over the nines from the position `i - 1` down. The character is read before the bound is
tested, so at `-1` it is read outside the string. -/
def skipNines (nu : Bytes) : Nat → Except Fault Int
  | 0 => do
    let _ ← byteAt nu (-1)
    return -1
  | i + 1 => do
    if (← byteAt nu i) = 0x39 then skipNines nu i else return i

/-- The loop that sets the `k` characters from `j` on to zero. -/
def clear (nu : Bytes) (j : Nat) : Nat → Bytes
  | 0 => nu
  | k + 1 => clear (nu.set j 0x30) (j + 1) k

/-- One call, with the bytes a read would deliver. -/
def genMsgNumber (msgReqLen : Nat) (res : Bytes) (t : Thread) : Except Fault (Bytes × Thread) :=
  if t.msgReqNu = [] ∨ t.msgReqNu = t.maxMsgReqNu then
    if res.length ≠ msgReqLen then .ok ([], t)
    else
      .ok (seedDigits res, ⟨seedDigits res, List.replicate msgReqLen 0x39, t.epoch + 1⟩)
  else do
    let i ← skipNines t.msgReqNu t.msgReqNu.length
    if 0 ≤ i then
      let c ← byteAt t.msgReqNu i
      let nu := clear (t.msgReqNu.set i.toNat (c + 1)) (i.toNat + 1)
        (t.msgReqNu.length - (i.toNat + 1))
      return (nu, { t with msgReqNu := nu })
    else
      return (t.msgReqNu, t)

/-- A number that was returned, with the seed it comes from. -/
structure Issued where
  epoch : Nat
  number : Bytes
  deriving DecidableEq

/-- The calls of a thread, each with the bytes a read would deliver to it. -/
def calls (msgReqLen : Nat) : List Bytes → Thread → Except Fault (List Issued)
  | [], _ => .ok []
  | res :: reads, t => do
    let (number, t') ← genMsgNumber msgReqLen res t
    let issued ← calls msgReqLen reads t'
    return ⟨t'.epoch, number⟩ :: issued

/-! ## One more -/

theorem clear_eq (c : UInt8) : ∀ (k : Nat) (a : Bytes),
    clear (a ++ List.replicate k c) a.length k = a ++ List.replicate k 0x30
  | 0, _ => rfl
  | k + 1, a => by
    have hset : (a ++ List.replicate (k + 1) c).set a.length 0x30 = a ++ [0x30] ++ List.replicate k c := by
      rw [List.set_append_right _ _ (Nat.le_refl _), Nat.sub_self, List.replicate_succ]
      simp
    have hl : a.length + 1 = (a ++ [0x30]).length := by simp
    unfold clear
    rw [hset, hl, clear_eq c k (a ++ [0x30]), List.replicate_succ]
    simp

theorem skipNines_succ {nu : Bytes} {i : Nat} {c : UInt8} (h : nu[i]? = some c) :
    skipNines nu (i + 1) = if c = 0x39 then skipNines nu i else .ok i := by
  have hc : byteAt nu i = .ok c := byteAt_eq_ok.2 ⟨Int.natCast_nonneg i, h⟩
  show (byteAt nu i >>= _) = _
  rw [hc]
  rfl

/-- The loop stops at the last digit that is no nine. -/
theorem skipNines_eq {a : Bytes} {c : UInt8} (hc : c ≠ 0x39) {k : Nat} : ∀ j ≤ k,
    skipNines (a ++ c :: List.replicate k 0x39) (a.length + 1 + j) = .ok a.length
  | 0, _ => by
    have hget : (a ++ c :: List.replicate k 0x39)[a.length]? = some c := by
      rw [List.getElem?_append_right (Nat.le_refl _), Nat.sub_self]
      rfl
    rw [skipNines_succ hget, if_neg hc]
  | j + 1, hj => by
    have hget : (a ++ c :: List.replicate k 0x39)[a.length + 1 + j]? = some 0x39 := by
      rw [List.getElem?_append_right (by omega), show a.length + 1 + j - a.length = j + 1 by omega,
        List.getElem?_cons_succ, List.getElem?_replicate_of_lt (by omega)]
    rw [← Nat.add_assoc, skipNines_succ hget, if_pos rfl]
    exact skipNines_eq hc j (by omega)

/-- A row of digits other than all nines has a last digit that is no nine. -/
theorem exists_last : ∀ {nu : Bytes}, nu ≠ List.replicate nu.length 0x39 →
    ∃ a c k, nu = a ++ c :: List.replicate k 0x39 ∧ c ≠ 0x39 := by
  intro nu
  induction nu using List.reverseRecOn with
  | nil => exact fun h => absurd rfl h
  | append_singleton nu d ih =>
    intro h
    by_cases hd : d = 0x39
    · subst hd
      have hne : nu ≠ List.replicate nu.length 0x39 := by
        intro he
        refine h ?_
        rw [List.length_append, List.length_singleton, List.replicate_succ', ← he]
      obtain ⟨a, c, k, hnu, hc⟩ := ih hne
      refine ⟨a, c, k + 1, ?_, hc⟩
      rw [hnu, List.replicate_succ', List.append_assoc]
      rfl
    · exact ⟨nu, d, 0, rfl, hd⟩

theorem succ_digit {c : UInt8} (h : IsDigit c) (hc : c ≠ 0x39) :
    IsDigit (c + 1) ∧ (c + 1).toNat - 0x30 = c.toNat - 0x30 + 1 := by
  obtain ⟨h1, h2⟩ := h
  rw [UInt8.le_iff_toNat_le] at h1 h2
  have h1 : 0x30 ≤ c.toNat := h1
  have h2 : c.toNat ≤ 0x39 := h2
  have hne : c.toNat ≠ 0x39 := fun he => hc (UInt8.toNat.inj he)
  have hadd : (c + 1).toNat = c.toNat + 1 := by
    rw [UInt8.toNat_add, UInt8.toNat_one]
    omega
  unfold IsDigit
  rw [UInt8.le_iff_toNat_le, UInt8.le_iff_toNat_le, hadd]
  exact ⟨⟨by show 0x30 ≤ _; omega, by show _ ≤ 0x39; omega⟩, by omega⟩

/-! ## One call -/

/-- A number of `n` digits. -/
def Numeral (n : Nat) (nu : Bytes) : Prop := nu.length = n ∧ ∀ c ∈ nu, IsDigit c

def nines (n : Nat) : Bytes := List.replicate n 0x39

/-- A thread that has returned a number. -/
def Held (n : Nat) (t : Thread) : Prop := Numeral n t.msgReqNu ∧ t.maxMsgReqNu = nines n

theorem seedDigits_numeral (res : Bytes) : Numeral res.length (seedDigits res) := by
  refine ⟨List.length_map _, fun c hc => ?_⟩
  obtain ⟨d, -, rfl⟩ := List.mem_map.1 hc
  have hd : (d % 10 + 0x30).toNat = d.toNat % 10 + 0x30 := by
    have := Nat.mod_lt d.toNat (show 0 < 10 by decide)
    rw [UInt8.toNat_add, UInt8.toNat_mod]
    show (d.toNat % 10 + 0x30) % 2 ^ 8 = _
    omega
  have := Nat.mod_lt d.toNat (show 0 < 10 by decide)
  unfold IsDigit
  rw [UInt8.le_iff_toNat_le, UInt8.le_iff_toNat_le, hd]
  exact ⟨by show 0x30 ≤ _; omega, by show _ ≤ 0x39; omega⟩

theorem genMsgNumber_seed {n : Nat} {res : Bytes} {t : Thread} (hres : res.length = n)
    (h : t.msgReqNu = [] ∨ t.msgReqNu = t.maxMsgReqNu) :
    genMsgNumber n res t = .ok (seedDigits res, ⟨seedDigits res, nines n, t.epoch + 1⟩) := by
  unfold genMsgNumber
  rw [if_pos h, if_neg (not_not_intro hres)]
  rfl

/-- The digit counted up, with the zeros behind it. -/
theorem genMsgNumber_digit {n : Nat} (res : Bytes) {t : Thread} {a : Bytes} {c : UInt8} {k : Nat}
    (hnu : t.msgReqNu = a ++ c :: List.replicate k 0x39) (hc : c ≠ 0x39)
    (hmax : t.msgReqNu ≠ t.maxMsgReqNu) :
    genMsgNumber n res t = .ok (a ++ [c + 1] ++ List.replicate k 0x30,
      { t with msgReqNu := a ++ [c + 1] ++ List.replicate k 0x30 }) := by
  have hne : t.msgReqNu ≠ [] := by rw [hnu]; simp
  have hl : t.msgReqNu.length = a.length + 1 + k := by
    rw [hnu, List.length_append, List.length_cons, List.length_replicate]
    omega
  have hbyte : byteAt t.msgReqNu a.length = .ok c := by
    refine byteAt_eq_ok.2 ⟨Int.natCast_nonneg _, ?_⟩
    rw [hnu, Int.toNat_natCast, List.getElem?_append_right (Nat.le_refl _), Nat.sub_self]
    rfl
  have hset : t.msgReqNu.set a.length (c + 1) = a ++ [c + 1] ++ List.replicate k 0x39 := by
    rw [hnu, List.set_append_right _ _ (Nat.le_refl _), Nat.sub_self, List.append_assoc]
    rfl
  have hclear : clear (t.msgReqNu.set a.length (c + 1)) (a.length + 1) k =
      a ++ [c + 1] ++ List.replicate k 0x30 := by
    have hlast : a.length + 1 = (a ++ [c + 1]).length := by simp
    rw [hset, hlast, clear_eq]
  have hskip : skipNines t.msgReqNu t.msgReqNu.length = .ok a.length := by
    rw [hl, hnu]
    exact skipNines_eq hc k (Nat.le_refl k)
  unfold genMsgNumber
  rw [if_neg (not_or.2 ⟨hne, hmax⟩), hskip, ok_bind, if_pos (Int.natCast_nonneg _), hbyte, ok_bind,
    Int.toNat_natCast, hl, Nat.add_sub_cancel_left, hclear]
  rfl

/-- A number below all nines is followed by its successor. -/
theorem genMsgNumber_count {n : Nat} (res : Bytes) {t : Thread} (hnu : Numeral n t.msgReqNu)
    (hmax : t.maxMsgReqNu = nines n) (h : t.msgReqNu ≠ nines n) :
    ∃ nu, genMsgNumber n res t = .ok (nu, { t with msgReqNu := nu }) ∧ Numeral n nu ∧
      value nu = value t.msgReqNu + 1 := by
  obtain ⟨hl, hdigits⟩ := hnu
  obtain ⟨a, c, k, heq, hc⟩ := exists_last (show t.msgReqNu ≠ _ by rw [hl]; exact h)
  rw [heq] at hdigits hl
  obtain ⟨ha, hck⟩ := List.forall_mem_append.1 hdigits
  obtain ⟨hc', hval⟩ := succ_digit (List.forall_mem_cons.1 hck).1 hc
  refine ⟨_, genMsgNumber_digit res heq hc (hmax ▸ h), ⟨?_, ?_⟩, ?_⟩
  · rw [← hl]
    simp
  · refine List.forall_mem_append.2 ⟨List.forall_mem_append.2 ⟨ha, ?_⟩, ?_⟩
    · exact fun d hd => List.mem_singleton.1 hd ▸ hc'
    · intro d hd
      rw [List.eq_of_mem_replicate hd]
      decide
  · have hsplit : a ++ c :: List.replicate k 0x39 = a ++ [c] ++ List.replicate k 0x39 := by simp
    rw [heq, hsplit, value_nines, value_zeros, value_concat, value_concat, hval]
    ring

/-! ## The calls of a thread -/

/-- A number and the next one: all nines are followed by a new seed, any other by its successor. -/
def Next (n : Nat) (x y : Issued) : Prop :=
  if x.number = nines n then y.epoch = x.epoch + 1
  else y.epoch = x.epoch ∧ value y.number = value x.number + 1

/-- The numbers of an epoch grow. -/
def Before (x y : Issued) : Prop :=
  x.epoch < y.epoch ∨ x.epoch = y.epoch ∧ value x.number < value y.number

instance : IsTrans Issued Before where
  trans x y z hxy hyz := by
    unfold Before at *
    omega

theorem Next.before {n : Nat} {x y : Issued} (h : Next n x y) : Before x y := by
  unfold Next at h
  split at h
  · exact .inl (by omega)
  · exact .inr ⟨h.1.symm, by omega⟩

theorem genMsgNumber_spec {n : Nat} {res : Bytes} (hres : res.length = n) {t : Thread} (h : Held n t) :
    ∃ nu t', genMsgNumber n res t = .ok (nu, t') ∧ t'.msgReqNu = nu ∧ Held n t' ∧
      Next n ⟨t.epoch, t.msgReqNu⟩ ⟨t'.epoch, nu⟩ := by
  obtain ⟨hnu, hmax⟩ := h
  by_cases hn : t.msgReqNu = nines n
  · refine ⟨_, _, genMsgNumber_seed hres (.inr (hn.trans hmax.symm)), rfl, ⟨?_, rfl⟩, ?_⟩
    · exact hres ▸ seedDigits_numeral res
    · unfold Next
      rw [if_pos hn]
  · obtain ⟨nu, hgen, hnu', hval⟩ := genMsgNumber_count res hnu hmax hn
    refine ⟨nu, _, hgen, rfl, ⟨hnu', hmax⟩, ?_⟩
    unfold Next
    rw [if_neg hn]
    exact ⟨rfl, hval⟩

/-- All calls behind the first. -/
theorem calls_held {n : Nat} : ∀ {reads : List Bytes} {t : Thread}, (∀ res ∈ reads, res.length = n) →
    Held n t → ∃ issued, calls n reads t = .ok issued ∧ issued.length = reads.length ∧
      (∀ x ∈ issued, Numeral n x.number) ∧ (⟨t.epoch, t.msgReqNu⟩ :: issued).IsChain (Next n)
  | [], _, _, _ => ⟨[], rfl, rfl, nofun, .singleton _⟩
  | res :: reads, t, hreads, h => by
    obtain ⟨hres, hreads⟩ := List.forall_mem_cons.1 hreads
    obtain ⟨nu, t', hgen, hnu, h', hnext⟩ := genMsgNumber_spec hres h
    obtain ⟨issued, hcalls, hlength, hall, hchain⟩ := calls_held hreads h'
    subst hnu
    refine ⟨⟨t'.epoch, t'.msgReqNu⟩ :: issued, ?_, congrArg (· + 1) hlength, ?_, .cons_cons hnext hchain⟩
    · unfold calls
      rw [hgen, ok_bind]
      dsimp only
      rw [hcalls]
      rfl
    · exact List.forall_mem_cons.2 ⟨h'.1, hall⟩

/-- The first call takes a seed. -/
theorem calls_fresh {n : Nat} {reads : List Bytes} (hreads : ∀ res ∈ reads, res.length = n) :
    ∃ issued, calls n reads {} = .ok issued ∧ issued.length = reads.length ∧
      (∀ x ∈ issued, Numeral n x.number) ∧ issued.IsChain (Next n) := by
  cases reads with
  | nil => exact ⟨[], rfl, rfl, nofun, .nil⟩
  | cons res reads =>
    obtain ⟨hres, hreads⟩ := List.forall_mem_cons.1 hreads
    have hnu : Numeral n (seedDigits res) := hres ▸ seedDigits_numeral res
    obtain ⟨issued, hcalls, hlength, hall, hchain⟩ :=
      calls_held (t := ⟨seedDigits res, nines n, 1⟩) hreads ⟨hnu, rfl⟩
    refine ⟨⟨1, seedDigits res⟩ :: issued, ?_, congrArg (· + 1) hlength, ?_, hchain⟩
    · unfold calls
      rw [genMsgNumber_seed hres (.inl rfl), ok_bind]
      dsimp only
      rw [hcalls]
      rfl
    · exact List.forall_mem_cons.2 ⟨hnu, hall⟩

/-- However often a thread asks: no character outside a string is read, each number has its digits and
is the successor of the one before, a new seed comes behind all nines only, and no number of an epoch
comes twice. -/
theorem calls_count (n : Nat) {reads : List Bytes} (hreads : ∀ res ∈ reads, res.length = n) :
    ∃ issued, calls n reads {} = .ok issued ∧ issued.length = reads.length ∧
      (∀ x ∈ issued, Numeral n x.number) ∧ issued.IsChain (Next n) ∧
      issued.Pairwise fun x y => x.epoch = y.epoch → x.number ≠ y.number := by
  obtain ⟨issued, hcalls, hlength, hall, hchain⟩ := calls_fresh hreads
  refine ⟨issued, hcalls, hlength, hall, hchain, ?_⟩
  have hbefore : issued.Pairwise Before := (hchain.imp fun _ _ => Next.before).pairwise
  refine hbefore.imp fun {x y} h hepoch hnumber => ?_
  unfold Before at h
  rw [hnumber] at h
  omega

/-- From 98 to 99, and behind it a new seed. -/
theorem calls_count_seed :
    ∃ issued, calls 2 [[9, 8], [0, 0], [4, 5]] {} = .ok issued ∧ issued.length = 3 ∧
      (∀ x ∈ issued, Numeral 2 x.number) ∧ issued.IsChain (Next 2) ∧
      issued.Pairwise fun x y => x.epoch = y.epoch → x.number ≠ y.number :=
  calls_count 2 (by decide)

end Flconc.MsgReq
