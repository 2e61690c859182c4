/-
The guards of `recycleRead` and `recycleWrite`: for which arguments a call leaves the two indices of the
connection buffer in order and inside the vector.
-/
import Flconc.Lib.Refine
import Flconc.Net.TcpBuffer

namespace Flconc.TcpBuffer

open Wire

/-! ## Calls -/

inductive Recycle
  | read (index : Int32)
  | write (index : Int32)
  deriving DecidableEq

def recycle (b : TcpBuffer) : Recycle → Except Fault (Unit × TcpBuffer)
  | .read index => do return ((), ← b.recycleRead index.toInt)
  | .write index => do return ((), ← b.recycleWrite index.toInt)

/-- The call moves an index and leaves a well-formed buffer, or leaves the buffer as it is. -/
def Guarded (b : TcpBuffer) (call : Recycle) : Prop :=
  ∃ b', b.recycle call = .ok ((), b') ∧ (b'.WF ∨ b' = b)

/-- Every call of the list returns, and the buffer is well-formed before the first and after each one. -/
def StaysWF (b : TcpBuffer) (calls : List Recycle) : Prop :=
  Refine.Follows recycle (fun _ _ => ((), ())) (fun b _ => b.WF) b () calls

/-- The index moved to is on the right side of the other one, or behind the end of the vector and still
an `int`. -/
def Recycle.Fits (b : TcpBuffer) : Recycle → Prop
  | .read index => 0 ≤ b.readIndex + index.toInt ∧ b.readIndex + index.toInt ≤ b.writeIndex ∨
      b.getSize < b.readIndex + index.toInt ∧ b.readIndex + index.toInt < 2 ^ 31
  | .write index => b.readIndex ≤ b.writeIndex + index.toInt ∧ b.writeIndex + index.toInt ≤ b.getSize ∨
      b.getSize < b.writeIndex + index.toInt ∧ b.writeIndex + index.toInt < 2 ^ 31

instance (b : TcpBuffer) : (call : Recycle) → Decidable (call.Fits b)
  | .read _ => inferInstanceAs (Decidable (_ ∨ _))
  | .write _ => inferInstanceAs (Decidable (_ ∨ _))

/-! ## One call -/

/-- Compacting does not mend indices that are out of order or before the vector. -/
theorem adjustBuffer_not_wf {b b' : TcpBuffer} (h : b.readIndex < 0 ∨ b.writeIndex < b.readIndex)
    (hb' : b.adjustBuffer = .ok b') : ¬ b'.WF := by
  intro hwf
  unfold adjustBuffer at hb'
  split at hb'
  · rename_i hthird
    obtain ⟨live, hlive, -⟩ := bind_eq_ok.1 hb'
    have := (bytesAt_eq_ok.1 hlive).1
    unfold readAble at this
    omega
  · cases hb'
    have := hwf.read
    have := hwf.order
    omega

theorem adjustBuffer_wf_iff {b : TcpBuffer} (hs : b.buffer.length < 2 ^ 31) (hw : b.writeIndex ≤ b.buffer.length) :
    (∃ b', b.adjustBuffer = .ok b' ∧ b'.WF) ↔ 0 ≤ b.readIndex ∧ b.readIndex ≤ b.writeIndex := by
  constructor
  · rintro ⟨b', hb', hwf⟩
    by_contra hout
    exact adjustBuffer_not_wf (by omega) hb' hwf
  · rintro ⟨h0, h1⟩
    obtain ⟨b', hb', hh, -⟩ := adjustBuffer_spec ⟨h0, h1, hw, hs⟩
    exact ⟨b', hb', hh.wf⟩

theorem recycleRead_wf_iff {b : TcpBuffer} (h : b.WF) (index : Int32) :
    (∃ b', b.recycleRead index.toInt = .ok b' ∧ b'.WF) ↔ Recycle.Fits b (.read index) := by
  have hlow := index.le_toInt
  have hhigh := index.toInt_lt
  obtain ⟨h1, h2, h3, h4⟩ := h
  unfold Recycle.Fits getSize
  rcases lt_or_ge (b.readIndex + index.toInt) (2 ^ 31) with hint | hover
  · have hwrap : wrap32 (b.readIndex + index.toInt) = b.readIndex + index.toInt :=
      wrap32_of_inInt32 ⟨by omega, hint⟩
    unfold recycleRead getSize
    dsimp only
    rw [hwrap]
    split
    · exact iff_of_true ⟨b, rfl, h1, h2, h3, h4⟩ (.inr ⟨by omega, hint⟩)
    · rw [adjustBuffer_wf_iff (b := { b with readIndex := b.readIndex + index.toInt }) h4 h3]
      dsimp only
      omega
  · -- the sum overflows to an index before the vector
    have hwrap := wrap32_overflow hover (by omega)
    unfold recycleRead getSize
    dsimp only
    rw [hwrap, if_neg (by omega),
      adjustBuffer_wf_iff (b := { b with readIndex := b.readIndex + index.toInt - 2 ^ 32 }) h4 h3]
    dsimp only
    omega

theorem recycleWrite_wf_iff {b : TcpBuffer} (h : b.WF) (index : Int32) :
    (∃ b', b.recycleWrite index.toInt = .ok b' ∧ b'.WF) ↔ Recycle.Fits b (.write index) := by
  have hlow := index.le_toInt
  have hhigh := index.toInt_lt
  obtain ⟨h1, h2, h3, h4⟩ := h
  unfold Recycle.Fits getSize
  rcases lt_or_ge (b.writeIndex + index.toInt) (2 ^ 31) with hint | hover
  · have hwrap : wrap32 (b.writeIndex + index.toInt) = b.writeIndex + index.toInt :=
      wrap32_of_inInt32 ⟨by omega, hint⟩
    unfold recycleWrite getSize
    dsimp only
    rw [hwrap]
    split
    · exact iff_of_true ⟨b, rfl, h1, h2, h3, h4⟩ (.inr ⟨by omega, hint⟩)
    · rename_i hend
      rw [adjustBuffer_wf_iff (b := { b with writeIndex := b.writeIndex + index.toInt }) h4 (not_lt.1 hend)]
      dsimp only
      omega
  · have hwrap := wrap32_overflow hover (by omega)
    unfold recycleWrite getSize
    dsimp only
    rw [hwrap, if_neg (by omega), adjustBuffer_wf_iff
      (b := { b with writeIndex := b.writeIndex + index.toInt - 2 ^ 32 }) h4 (by dsimp only; omega)]
    dsimp only
    omega

theorem pair_eq_ok {x : Except Fault TcpBuffer} {b' : TcpBuffer} :
    (x >>= fun b => pure ((), b)) = Except.ok ((), b') ↔ x = .ok b' := by
  rw [bind_eq_ok]
  constructor
  · rintro ⟨b, hx, hb⟩
    cases hb
    exact hx
  · exact fun hx => ⟨b', hx, rfl⟩

/-- The step lemma: a call keeps the invariant just when its argument fits. -/
theorem recycle_wf_iff {b : TcpBuffer} (h : b.WF) (call : Recycle) :
    (∃ b', b.recycle call = .ok ((), b') ∧ b'.WF) ↔ call.Fits b := by
  cases call with
  | read index =>
    rw [← recycleRead_wf_iff h]
    exact exists_congr fun b' => and_congr_left fun _ => pair_eq_ok
  | write index =>
    rw [← recycleWrite_wf_iff h]
    exact exists_congr fun b' => and_congr_left fun _ => pair_eq_ok

theorem guarded_iff {b : TcpBuffer} (h : b.WF) (call : Recycle) : b.Guarded call ↔ call.Fits b := by
  rw [← recycle_wf_iff h]
  refine exists_congr fun b' => and_congr_right fun _ => ⟨?_, .inl⟩
  rintro (hwf | rfl)
  · exact hwf
  · exact h

/-! ## Sequences of calls -/

/-- The guards reject what would break the invariant exactly for arguments that fit: in one call, and in
every sequence of calls, each in the state it is made in. -/
theorem recycle_guards_iff {b : TcpBuffer} (h : b.WF) :
    (∀ call : Recycle, b.Guarded call ↔ call.Fits b) ∧
      ∀ calls : List Recycle, b.StaysWF calls ↔ Refine.Allowed recycle (fun b call => call.Fits b) b calls :=
  ⟨guarded_iff h, fun _ => Refine.follows_iff_allowed (fun _ _ call hb => recycle_wf_iff hb call) h⟩

/-- Reading on over what was written, and an index behind the end. -/
theorem recycle_guards_iff_written :
    (∀ call : Recycle, (⟨List.replicate 8 0, 0, 4⟩ : TcpBuffer).Guarded call ↔ call.Fits ⟨List.replicate 8 0, 0, 4⟩) ∧
      ∀ calls : List Recycle, (⟨List.replicate 8 0, 0, 4⟩ : TcpBuffer).StaysWF calls ↔
        Refine.Allowed recycle (fun b call => call.Fits b) ⟨List.replicate 8 0, 0, 4⟩ calls :=
  recycle_guards_iff ⟨by decide, by decide, by decide, by decide⟩

/-- The `-1` of a failed write moves the read index before the vector; six bytes dropped out of four
readable ones are a copy of a negative length. -/
theorem recycleRead_unguarded :
    (⟨List.replicate 8 0, 0, 4⟩ : TcpBuffer).WF ∧ ¬ (⟨List.replicate 8 0, 0, 4⟩ : TcpBuffer).Guarded (.read (-1)) ∧
      recycle ⟨List.replicate 8 0, 0, 4⟩ (.read (-1)) = .ok ((), ⟨List.replicate 8 0, -1, 4⟩) ∧
      recycle ⟨List.replicate 8 0, 0, 4⟩ (.read 6) = .error .memory := by
  have hwf : (⟨List.replicate 8 0, 0, 4⟩ : TcpBuffer).WF := ⟨by decide, by decide, by decide, by decide⟩
  refine ⟨hwf, ?_, by decide +kernel, by decide +kernel⟩
  rw [guarded_iff hwf]
  decide +kernel

end Flconc.TcpBuffer
