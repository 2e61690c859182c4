/-
One wake-up per suspension in `Reactor::loop`. A timer callback and a posted task resume a coroutine
directly. When its wake-up is also held back, the second Resume hits whatever the coroutine does by
then; in a run with one wake-up source at a time every Resume finds the suspension it was for.
-/
import Flconc.Lib.Run
import Flconc.Net.HeldBack
import Mathlib.Data.Fintype.Basic

namespace Flconc.Reactor

open Function

variable {R Cor Fd : Type} [DecidableEq R] [DecidableEq Cor]

/-! ## Resume -/

/-- `c` has been resumed on `r` from the suspension it was in, if it was in one. -/
structure Wakes (s s' : State R Cor Fd) (r : R) (c : Cor) (d : Bool) : Prop where
  cur : s'.cur = update s.cur r (some c)
  hook : s'.hook = update s.hook c none
  next : s'.next = s.next
  log : s'.log = s.log ++ [⟨d, s.suspension c, s.suspension c⟩]
  queue : s'.queue = s.queue
  phase : s'.phase = s.phase
  first : s'.firstCoroutine = s.firstCoroutine
  fdCoroutine : ∀ f c', s'.fdCoroutine f = some c' → s.fdCoroutine f = some c'
  others : ∀ f c', s'.fdCoroutine f = some c' → c' ≠ c ∧ s'.registered f = s.registered f

namespace Wakes

variable {s s' : State R Cor Fd} {r : R} {c : Cor} {d : Bool}

theorem suspension_self (h : Wakes s s' r c d) : s'.suspension c = none := by
  unfold State.suspension; rw [h.hook, update_self]; rfl

theorem suspension_of_ne (h : Wakes s s' r c d) {c' : Cor} (hc : c' ≠ c) : s'.suspension c' = s.suspension c' := by
  unfold State.suspension; rw [h.hook, update_of_ne hc]

theorem hook_eq (h : Wakes s s' r c d) {c' : Cor} {x : Nat × Fd} (hc : s'.hook c' = some x) :
    c' ≠ c ∧ s.hook c' = some x := by
  have hne : c' ≠ c := by
    rintro rfl
    rw [h.hook, update_self] at hc; cases hc
  rw [h.hook, update_of_ne hne] at hc
  exact ⟨hne, hc⟩

theorem filterMap_append (l : List Wake) (d : Bool) (b : Option Nat) :
    (l ++ [Wake.mk d b b]).filterMap Wake.belongs = l.filterMap Wake.belongs ++ b.toList := by
  cases b <;> simp

variable [DecidableEq Fd]

theorem held (h : Wakes s s' r c d) {f : Fd} {c' : Cor} (hc : s'.fdCoroutine f = some c') (hh : Held s f c') :
    Held s' f c' := by
  obtain ⟨hne, hreg⟩ := h.others f c' hc
  refine hh.mono (fun p => ?_) (.inr hreg) (h.suspension_of_ne hne) (Nat.le_of_eq (by rw [h.queue]))
    (by rw [h.queue]; exact fun _ => id) (by rw [h.phase]; exact fun _ => .refl _)
  cases p <;> simp only [HeldAt, h.queue, h.phase, h.first, imp_self]

/-- A Resume of a coroutine that does not run and that no loop remembers, for the suspension it is
in, keeps the invariant. -/
theorem inv (h : Wakes s s' r c d) (hi : Inv s) (hrun : ∀ r, s.cur r ≠ some c)
    (hfirst : ∀ r, (s.firstCoroutine r).map Prod.fst ≠ some c) : Inv s' where
  running r' c' hc := by
    rw [h.hook]
    by_cases hne : c' = c
    · subst hne; exact update_self ..
    · rw [update_of_ne hne]
      rw [h.cur] at hc
      by_cases hr : r' = r
      · subst hr; rw [update_self] at hc; cases hc; exact absurd rfl hne
      · rw [update_of_ne hr] at hc; exact hi.running r' c' hc
  alone r₁ r₂ c' h₁ h₂ := by
    rw [h.cur] at h₁ h₂
    by_cases hr₁ : r₁ = r <;> by_cases hr₂ : r₂ = r
    · rw [hr₁, hr₂]
    · subst hr₁
      rw [update_self] at h₁
      rw [update_of_ne hr₂] at h₂
      cases h₁
      exact absurd h₂ (hrun r₂)
    · subst hr₂
      rw [update_self] at h₂
      rw [update_of_ne hr₁] at h₁
      cases h₂
      exact absurd h₁ (hrun r₁)
    · rw [update_of_ne hr₁] at h₁
      rw [update_of_ne hr₂] at h₂
      exact hi.alone r₁ r₂ c' h₁ h₂
  waits f c' hc := by
    rw [h.hook, update_of_ne (h.others f c' hc).1]
    exact hi.waits f c' (h.fdCoroutine f c' hc)
  below c' k f hc := by
    rw [h.next]
    exact hi.below c' k f (h.hook_eq hc).2
  unique c₁ c₂ k f f' h₁ h₂ := hi.unique c₁ c₂ k f f' (h.hook_eq h₁).2 (h.hook_eq h₂).2
  held f c' hc := h.held hc (hi.held f c' (h.fdCoroutine f c' hc))
  firstWaits r' c' t hc := by
    rw [h.first] at hc
    have hne : c' ≠ c := by
      rintro rfl
      exact hfirst r' (by rw [hc]; rfl)
    rw [h.suspension_of_ne hne]
    exact hi.firstWaits r' c' t hc
  firstOnce := by rw [h.first]; exact hi.firstOnce
  firstPhase := by rw [h.first, h.phase]; exact hi.firstPhase
  logged k hk := by
    rw [h.log, filterMap_append, List.mem_append] at hk
    rw [h.next]
    rcases hk with hk | hk
    · refine ⟨(hi.logged k hk).1, fun c' hc => ?_⟩
      by_cases hne : c' = c
      · subst hne; rw [h.suspension_self] at hc; cases hc
      · rw [h.suspension_of_ne hne] at hc; exact (hi.logged k hk).2 c' hc
    · -- the suspension that has just ended
      obtain ⟨f, hf⟩ := suspension_eq.1 (Option.mem_toList.1 hk)
      refine ⟨hi.below c k f hf, fun c' hc => ?_⟩
      obtain ⟨f', hf'⟩ := suspension_eq.1 hc
      obtain ⟨hne, hf'⟩ := h.hook_eq hf'
      exact hne (hi.unique c' c k f' f hf' hf)
  meant := by
    rw [h.log, filterMap_append]
    refine List.nodup_append.2 ⟨hi.meant, ?_, fun k hk k' hk' => ?_⟩
    · cases s.suspension c <;> simp
    · rintro rfl
      exact (hi.logged k hk).2 c (Option.mem_toList.1 hk')
  hits w hw := by
    rw [h.log] at hw
    rcases List.mem_append.1 hw with hw | hw
    · exact hi.hits w hw
    · rw [List.mem_singleton.1 hw]

end Wakes

variable [DecidableEq Fd]

theorem resume_wakes {s : State R Cor Fd} (r : R) {c : Cor} (d : Bool) (hi : Inv s)
    (hc : s.canResume c = true) : Wakes s (resume s r c d (s.suspension c)) r c d := by
  unfold resume
  rw [if_pos hc]
  cases hh : s.hook c with
  | none =>
    refine ⟨rfl, ?_, rfl, rfl, rfl, rfl, rfl, fun _ _ h => h, fun f c' hf => ⟨?_, rfl⟩⟩
    · exact (update_eq_self_iff.2 hh.symm).symm
    · rintro rfl
      obtain ⟨k, hk⟩ := hi.waits f c' hf
      rw [hh] at hk; cases hk
  | some kf =>
    obtain ⟨k, f⟩ := kf
    have hne : ∀ f' c', update s.fdCoroutine f none f' = some c' → f' ≠ f := by
      rintro f' c' hf rfl
      simp at hf
    refine ⟨rfl, rfl, rfl, rfl, rfl, rfl, rfl, fun f' c' hf => ?_, fun f' c' hf => ⟨?_, ?_⟩⟩
    · exact (update_of_ne (hne f' c' hf) ..).symm.trans hf
    · rintro rfl
      have hf' := hne f' c' hf
      obtain ⟨k', hk⟩ := hi.waits f' c' ((update_of_ne hf' ..).symm.trans hf)
      rw [hh] at hk
      cases hk
      exact hf' rfl
    · exact update_of_ne (hne f' c' hf) ..

/-- The rule for every Resume: for the suspension the coroutine is in, and only if it neither runs
nor is remembered by a loop. -/
theorem Inv.resume {s : State R Cor Fd} (hi : Inv s) {r : R} {c : Cor} {d : Bool} {b : Option Nat}
    (hfree : Free s c) (hb : s.canResume c = true → b = s.suspension c) : Inv (resume s r c d b) := by
  by_cases hc : s.canResume c = true
  · rw [hb hc]
    have hw := resume_wakes r d hi hc
    exact hw.inv hi (fun r => (hfree hc r).1) fun r => (hfree hc r).2
  · unfold Reactor.resume
    rw [if_neg hc]; exact hi

/-! ## Suspending -/

section Suspend

variable {s : State R Cor Fd} {r : R} {c : Cor} {f : Fd} {timeout : Option Nat}

theorem suspend_cases {c' : Cor} {k : Nat} {f' : Fd} (h : (suspend s r c f timeout).hook c' = some (k, f')) :
    c' = c ∧ k = s.next ∨ c' ≠ c ∧ s.hook c' = some (k, f') := by
  change update s.hook c (some (s.next, f)) c' = some (k, f') at h
  by_cases hne : c' = c
  · subst hne
    rw [update_self] at h
    cases h
    exact .inl ⟨rfl, rfl⟩
  · rw [update_of_ne hne] at h
    exact .inr ⟨hne, h⟩

theorem suspend_suspension_self : (suspend s r c f timeout).suspension c = some s.next := by
  unfold State.suspension
  change (update s.hook c (some (s.next, f)) c).map Prod.fst = _
  rw [update_self]; rfl

theorem suspend_suspension_of_ne {c' : Cor} (h : c' ≠ c) :
    (suspend s r c f timeout).suspension c' = s.suspension c' := by
  unfold State.suspension
  change (update s.hook c (some (s.next, f)) c').map Prod.fst = _
  rw [update_of_ne h]

theorem suspend_cur (hi : Inv s) (hc : s.cur r = some c) {r' : R} {c' : Cor}
    (h : (suspend s r c f timeout).cur r' = some c') : s.cur r' = some c' ∧ c' ≠ c := by
  change update s.cur r none r' = some c' at h
  by_cases hr : r' = r
  · subst hr; rw [update_self] at h; cases h
  · rw [update_of_ne hr] at h
    refine ⟨h, ?_⟩
    rintro rfl
    exact hr (hi.alone r' r c' h hc)

/-- With no older event of the descriptor held back, the new suspension starts with no wake-up. -/
theorem held_suspend_self (hi : Inv s) (hc : s.cur r = some c) (hqueue : f ∉ s.queue.map Prod.fst)
    (hrest : ∀ r, Event.ready f ∉ (s.phase r).rest.map Prod.fst) : Held (suspend s r c f timeout) f c := by
  have hno : ∀ p, ¬ HeldAt (suspend s r c f timeout) f c p := by
    rintro (_ | r' | r') hp
    · exact hqueue hp
    · exact hrest r' hp
    · obtain ⟨⟨c', t⟩, hx, rfl⟩ := Option.map_eq_some_iff.1 hp
      obtain ⟨rfl, hn⟩ := hi.firstWaits r' c' t hx
      exact hi.ne_running hc hn rfl
  refine ⟨fun p _ hp => absurd hp (hno p), fun p hp => absurd hp (hno p), ?_, fun r' => ?_,
    fun t ht => absurd (List.mem_map_of_mem ht) hqueue, fun r' t ht => absurd (List.mem_map_of_mem ht) (hrest r')⟩
  · change (s.queue.map Prod.fst).count f ≤ 1
    rw [List.count_eq_zero.2 hqueue]; exact Nat.zero_le _
  · change ((s.phase r').rest.map Prod.fst).count (Event.ready f) ≤ 1
    rw [List.count_eq_zero.2 (hrest r')]; exact Nat.zero_le _

theorem held_suspend_of_ne (hi : Inv s) (hc : s.cur r = some c) {f' : Fd} {c' : Cor} (hf : f' ≠ f)
    (h : s.fdCoroutine f' = some c') : Held (suspend s r c f timeout) f' c' := by
  have hne := hi.ne_running hc (hi.waits_suspension h)
  refine (hi.held f' c' h).mono (fun p hp => ?_) (.inr (update_of_ne hf ..)) (suspend_suspension_of_ne hne)
    (Nat.le_refl _) (fun _ => id) (fun _ => .refl _)
  cases p <;> exact hp

/-- The rule for every Yield in a hook: no older event of the descriptor is held back. -/
theorem Inv.suspend (hi : Inv s) (hc : s.cur r = some c) (hqueue : f ∉ s.queue.map Prod.fst)
    (hrest : ∀ r, Event.ready f ∉ (s.phase r).rest.map Prod.fst) : Inv (suspend s r c f timeout) where
  running r' c' hc' := by
    obtain ⟨hc', hne⟩ := suspend_cur hi hc hc'
    exact (update_of_ne hne ..).trans (hi.running r' c' hc')
  alone r₁ r₂ c' h₁ h₂ := hi.alone r₁ r₂ c' (suspend_cur hi hc h₁).1 (suspend_cur hi hc h₂).1
  waits f' c' hc' := by
    change update s.fdCoroutine f (some c) f' = some c' at hc'
    by_cases hf : f' = f
    · subst hf
      rw [update_self] at hc'
      cases hc'
      exact ⟨s.next, update_self ..⟩
    · rw [update_of_ne hf] at hc'
      obtain ⟨k, hk⟩ := hi.waits f' c' hc'
      exact ⟨k, (update_of_ne (hi.ne_running hc (hi.waits_suspension hc')) ..).trans hk⟩
  below c' k f' hc' := by
    rcases suspend_cases hc' with ⟨-, rfl⟩ | ⟨-, hk⟩
    · exact Nat.lt_succ_self _
    · exact Nat.lt_succ_of_lt (hi.below c' k f' hk)
  unique c₁ c₂ k f₁ f₂ h₁ h₂ := by
    rcases suspend_cases h₁ with ⟨rfl, hk₁⟩ | ⟨-, hk₁⟩ <;> rcases suspend_cases h₂ with ⟨rfl, hk₂⟩ | ⟨-, hk₂⟩
    · rfl
    · have := hi.below c₂ k f₂ hk₂; omega
    · have := hi.below c₁ k f₁ hk₁; omega
    · exact hi.unique c₁ c₂ k f₁ f₂ hk₁ hk₂
  held f' c' hc' := by
    change update s.fdCoroutine f (some c) f' = some c' at hc'
    by_cases hf : f' = f
    · subst hf
      rw [update_self] at hc'
      cases hc'
      exact held_suspend_self hi hc hqueue hrest
    · rw [update_of_ne hf] at hc'
      exact held_suspend_of_ne hi hc hf hc'
  firstWaits r' c' t hc' := by
    obtain ⟨rfl, hn⟩ := hi.firstWaits r' c' t hc'
    rw [suspend_suspension_of_ne (hi.ne_running hc hn)]
    exact ⟨rfl, hn⟩
  firstOnce := hi.firstOnce
  firstPhase := hi.firstPhase
  logged k hk := by
    obtain ⟨hlt, hk⟩ := hi.logged k hk
    refine ⟨Nat.lt_succ_of_lt hlt, fun c' hc' => ?_⟩
    by_cases hne : c' = c
    · subst hne
      rw [suspend_suspension_self] at hc'
      cases hc'
      exact Nat.lt_irrefl _ hlt
    · rw [suspend_suspension_of_ne hne] at hc'
      exact hk c' hc'
  meant := hi.meant
  hits := hi.hits

end Suspend

/-! ## Every step -/

section Steps

variable {s s' : State R Cor Fd} {r : R}

theorem resumeFirst_inv (hi : Inv s) (h : step s (.resumeFirst r) = some s') : Inv s' := by
  simp only [step] at h
  split at h
  · rename_i hr hp
    split at h
    · rename_i hf
      cases h
      exact hi.setPhase (List.nil_sublist _) (.inr hf)
    · rename_i c t hf
      cases h
      obtain ⟨rfl, hn⟩ := hi.firstWaits r c t hf
      apply hi.takeFirst.resume
      · -- no other loop remembers the coroutine
        refine fun _ r' => ⟨hi.not_running hn r', fun hr' => ?_⟩
        obtain ⟨x, hx, rfl⟩ := Option.map_eq_some_iff.1 hr'
        obtain ⟨hne, hx⟩ := update_none_eq hx
        exact hne (hi.firstOnce r' r x.1 (by rw [hx]; rfl) (by rw [hf]; rfl))
      · exact fun _ => rfl
  · cases h

theorem pop_inv (hi : Inv s) (h : step s (.pop r) = some s') : Inv s' := by
  simp only [step] at h
  split at h
  · rename_i hr hp
    split at h
    · cases h
      have hf := hi.first_eq_none (by rw [hp]; rfl)
      have hphase : Inv (s.setPhase r (.tasks (s.pendingTasks r))) := hi.setPhase (List.nil_sublist _) (.inr hf)
      exact hphase.of_rest _ _ _ _
    · rename_i f t queue hq
      split at h
      · cases h
        exact hi.popQueue hq _
      · rename_i c hc
        cases h
        have hh := hi.held f c hc
        have hat : HeldAt s f c .queue := by simp [HeldAt, hq]
        obtain rfl := hh.queueTag t (by rw [hq]; exact List.mem_cons_self ..)
        apply (hi.popQueue hq _).resume
        · -- what is in the queue is no loop's first coroutine
          refine fun _ r' => ⟨hi.not_running (hi.waits_suspension hc) r', fun hr' => ?_⟩
          cases hh.place _ _ hat (show HeldAt s f c (.first r') from hr')
        · exact fun _ => rfl
  · cases h

theorem runTask_inv (hi : Inv s) (hg : SingleSource s (.runTask r)) (h : step s (.runTask r) = some s') : Inv s' := by
  simp only [step] at h
  split at h
  · rename_i c rest hr hp
    cases h
    have hfree : Free s c := hg c (by rw [hp]; rfl)
    have hf := hi.first_eq_none (by rw [hp]; rfl)
    have hphase : Inv (s.setPhase r (.tasks rest)) := hi.setPhase (List.nil_sublist _) (.inr hf)
    exact hphase.resume hfree fun _ => rfl
  · cases h

theorem wait_inv {evs : List (Event Fd)} (hi : Inv s) (h : step s (.wait r evs) = some s') : Inv s' := by
  simp only [step] at h
  split at h
  · rename_i hr hp
    split at h
    · rename_i hw
      cases h
      exact hi.epollWait hp hw.2.1 hw.2.2
    · cases h
  · cases h

theorem event_inv {n : Nat} (hi : Inv s) (h : step s (.event r n) = some s') : Inv s' := by
  simp only [step] at h
  split at h
  · cases h
    exact hi.setPhase (List.nil_sublist _) (.inl rfl)
  · rename_i e rest hr hp
    cases h
    exact hi.handleEvent n hp
  · cases h

theorem timerTask_inv (hi : Inv s) (hg : SingleSource s (.timerTask r)) (h : step s (.timerTask r) = some s') :
    Inv s' := by
  simp only [step] at h
  split at h
  · rename_i rest t due hr hp
    cases h
    obtain ⟨hfree, hsus⟩ := hg t (by rw [hp]; rfl)
    have hphase : Inv (s.setPhase r (.batch rest due)) := hi.setPhase (by rw [hp]; exact .refl _) (.inl rfl)
    apply hphase.resume hfree
    intro hc
    split
    · rfl
    · rename_i hsid
      exact (hsus hc).resolve_left hsid
  · cases h

end Steps

theorem step_inv (s : State R Cor Fd) (a : Act R Cor Fd) (s' : State R Cor Fd) (hi : Inv s) (hg : SingleSource s a)
    (h : step s a = some s') : Inv s' := by
  cases a with
  | resumeFirst r => exact resumeFirst_inv hi h
  | pop r => exact pop_inv hi h
  | runTask r => exact runTask_inv hi hg h
  | wait r evs => exact wait_inv hi h
  | event r n => exact event_inv hi h
  | timerTask r => exact timerTask_inv hi hg h
  | suspend r f timeout =>
    obtain ⟨c, hc, rfl⟩ := Option.map_eq_some_iff.1 h
    exact hi.suspend hc hg.1 hg.2
  | leave r b =>
    obtain ⟨c, hc, rfl⟩ := Option.map_eq_some_iff.1 h
    exact hi.leave _
  | addTimerEvent r r' i | delTimerEvent r r' i =>
    obtain ⟨c, hc, rfl⟩ := Option.map_eq_some_iff.1 h
    exact hi.of_rest ..
  | unregisterFromReactor r f =>
    obtain ⟨c, hc, rfl⟩ := Option.map_eq_some_iff.1 h
    exact (hi.of_rest _ _ _ _).registered (update_none_cases _ f)
  | addCoroutine r c | setCallBack c =>
    cases h
    exact hi.of_rest ..

instance [Fintype R] (s : State R Cor Fd) (c : Cor) : Decidable (Free s c) :=
  inferInstanceAs (Decidable (s.canResume c = true →
    ∀ r, s.cur r ≠ some c ∧ (s.firstCoroutine r).map Prod.fst ≠ some c))

instance [Fintype R] (s : State R Cor Fd) (a : Act R Cor Fd) : Decidable (SingleSource s a) := by
  cases a <;> unfold SingleSource <;> infer_instance

end Flconc.Reactor
