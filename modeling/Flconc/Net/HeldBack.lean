/-
Where `Reactor::loop` holds back wake-ups: the first coroutine of a batch until its next iteration,
the others in the queue until some loop pops them. With one wake-up source at a time, the wake-up of
a waiting coroutine is in one place, once, under the suspension the coroutine is in.
-/
import Flconc.Net.Reactor
import Mathlib.Data.List.Count

namespace Flconc.Reactor

open Function

variable {R Cor Fd : Type}

/-! ## The property and its condition -/

/-- A direct Resume of the coroutine takes nobody's wake-up away: it does not run on any thread, and
no loop remembers it as its first coroutine. -/
def Free (s : State R Cor Fd) (c : Cor) : Prop :=
  s.canResume c = true → ∀ r, s.cur r ≠ some c ∧ (s.firstCoroutine r).map Prod.fst ≠ some c

/-- One wake-up source at a time. Tasks and timer callbacks resume free coroutines only, the callback
of a connect only while its suspension lasts; and nobody suspends on a descriptor with an older event
in the queue or in a batch. -/
def SingleSource (s : State R Cor Fd) : Act R Cor Fd → Prop
  | .runTask r => ∀ c ∈ (s.phase r).nextTask, Free s c
  | .timerTask r => ∀ t ∈ (s.phase r).nextDue,
      Free s t.cor ∧ (s.canResume t.cor = true → t.sid = none ∨ t.sid = s.suspension t.cor)
  | .suspend _ f _ =>
    f ∉ s.queue.map Prod.fst ∧ ∀ r, Event.ready f ∉ (s.phase r).rest.map Prod.fst
  | _ => True

/-! ## The places -/

/-- The places that hold a wake-up back. -/
inductive Place (R : Type)
  | queue
  | batch (r : R)
  | first (r : R)

/-- The reactor a descriptor stays registered with while its wake-up is at the place. -/
def Place.reactor : Place R → Option R
  | .queue => none
  | .batch r | .first r => some r

/-- The wake-up of the coroutine that waits for the descriptor is held back at the place. -/
def HeldAt (s : State R Cor Fd) (f : Fd) (c : Cor) : Place R → Prop
  | .queue => f ∈ s.queue.map Prod.fst
  | .batch r => Event.ready f ∈ (s.phase r).rest.map Prod.fst
  | .first r => (s.firstCoroutine r).map Prod.fst = some c

theorem suspension_eq {s : State R Cor Fd} {c : Cor} {k : Nat} :
    s.suspension c = some k ↔ ∃ f, s.hook c = some (k, f) := by
  unfold State.suspension
  constructor
  · intro h
    obtain ⟨⟨k', f⟩, hh, rfl⟩ := Option.map_eq_some_iff.1 h
    exact ⟨f, hh⟩
  · rintro ⟨f, hf⟩
    rw [hf]; rfl

theorem update_none_eq {α β : Type} [DecidableEq α] {g : α → Option β} {a a' : α} {x : β}
    (h : update g a none a' = some x) : a' ≠ a ∧ g a' = some x := by
  by_cases ha : a' = a
  · subst ha; rw [update_self] at h; cases h
  · rw [update_of_ne ha] at h; exact ⟨ha, h⟩

theorem update_none_cases {α β : Type} [DecidableEq α] (g : α → Option β) (a a' : α) :
    update g a none a' = none ∨ update g a none a' = g a' := by
  by_cases ha : a' = a
  · subst ha; exact .inl (update_self ..)
  · exact .inr (update_of_ne ha ..)

/-! ## Forgetting wake-ups -/

/-- `s'` has no wake-up that `s` does not have, and every coroutine is where it was. -/
structure Forgets (s s' : State R Cor Fd) : Prop where
  cur : ∀ r c, s'.cur r = some c → s.cur r = some c
  fdCoroutine : s'.fdCoroutine = s.fdCoroutine
  hook : s'.hook = s.hook
  next : s'.next = s.next
  log : s'.log = s.log
  queue : s'.queue.Sublist s.queue
  rest : ∀ r, (s'.phase r).rest.Sublist (s.phase r).rest
  first : ∀ r x, s'.firstCoroutine r = some x → s.firstCoroutine r = some x ∧ (s'.phase r).keepsFirst = true
  registered : ∀ f, s'.registered f = none ∨ s'.registered f = s.registered f

namespace Forgets

variable {s s' : State R Cor Fd}

theorem suspension (h : Forgets s s') (c : Cor) : s'.suspension c = s.suspension c := by
  unfold State.suspension; rw [h.hook]

theorem firstMap (h : Forgets s s') {r : R} {c : Cor} (hc : (s'.firstCoroutine r).map Prod.fst = some c) :
    (s.firstCoroutine r).map Prod.fst = some c := by
  obtain ⟨x, hx, rfl⟩ := Option.map_eq_some_iff.1 hc
  rw [(h.first r x hx).1]; rfl

theorem heldAt (h : Forgets s s') {f : Fd} {c : Cor} {p : Place R} (hp : HeldAt s' f c p) :
    HeldAt s f c p := by
  cases p with
  | queue => exact (h.queue.map _).subset hp
  | batch r => exact ((h.rest r).map _).subset hp
  | first r => exact h.firstMap hp

end Forgets

/-! ## The invariant -/

variable [DecidableEq Fd]

/-- The wake-up of a waiting coroutine is in at most one place, once, under its present suspension;
and no other reactor has its descriptor meanwhile. -/
structure Held (s : State R Cor Fd) (f : Fd) (c : Cor) : Prop where
  place : ∀ p p', HeldAt s f c p → HeldAt s f c p' → p = p'
  reg : ∀ p, HeldAt s f c p → s.registered f = none ∨ s.registered f = p.reactor
  queueOnce : (s.queue.map Prod.fst).count f ≤ 1
  batchOnce : ∀ r, ((s.phase r).rest.map Prod.fst).count (Event.ready f) ≤ 1
  queueTag : ∀ t, (f, t) ∈ s.queue → t = s.suspension c
  batchTag : ∀ r t, (Event.ready f, t) ∈ (s.phase r).rest → t = s.suspension c

/-- A wake-up that no step puts anywhere new stays in its one place. -/
theorem Held.mono {s s' : State R Cor Fd} {f : Fd} {c : Cor} (hh : Held s f c)
    (hat : ∀ p, HeldAt s' f c p → HeldAt s f c p)
    (hreg : s'.registered f = none ∨ s'.registered f = s.registered f)
    (hsusp : s'.suspension c = s.suspension c)
    (hcount : (s'.queue.map Prod.fst).count f ≤ (s.queue.map Prod.fst).count f)
    (hqueue : ∀ t, (f, t) ∈ s'.queue → (f, t) ∈ s.queue)
    (hrest : ∀ r, (s'.phase r).rest.Sublist (s.phase r).rest) : Held s' f c where
  place p p' hp hp' := hh.place p p' (hat p hp) (hat p' hp')
  reg p hp := by
    rcases hreg with hr | hr
    · exact .inl hr
    · rw [hr]; exact hh.reg p (hat p hp)
  queueOnce := Nat.le_trans hcount hh.queueOnce
  batchOnce r := Nat.le_trans (((hrest r).map _).count_le _) (hh.batchOnce r)
  queueTag t ht := by rw [hsusp]; exact hh.queueTag t (hqueue t ht)
  batchTag r t ht := by rw [hsusp]; exact hh.batchTag r t ((hrest r).subset ht)

theorem Forgets.held {s s' : State R Cor Fd} (h : Forgets s s') {f : Fd} {c : Cor} (hh : Held s f c) : Held s' f c :=
  hh.mono (fun _ => h.heldAt) (h.registered f) (h.suspension c) ((h.queue.map _).count_le _)
    (fun _ ht => h.queue.subset ht) h.rest

/-- The invariant of the runs that meet the condition. -/
structure Inv (s : State R Cor Fd) : Prop where
  running : ∀ r c, s.cur r = some c → s.hook c = none
  alone : ∀ r r' c, s.cur r = some c → s.cur r' = some c → r = r'
  waits : ∀ f c, s.fdCoroutine f = some c → ∃ k, s.hook c = some (k, f)
  below : ∀ c k f, s.hook c = some (k, f) → k < s.next
  unique : ∀ c c' k f f', s.hook c = some (k, f) → s.hook c' = some (k, f') → c = c'
  held : ∀ f c, s.fdCoroutine f = some c → Held s f c
  firstWaits : ∀ r c t, s.firstCoroutine r = some (c, t) → t = s.suspension c ∧ t ≠ none
  firstOnce : ∀ r r' c, (s.firstCoroutine r).map Prod.fst = some c →
    (s.firstCoroutine r').map Prod.fst = some c → r = r'
  firstPhase : ∀ r, s.firstCoroutine r ≠ none → (s.phase r).keepsFirst = true
  logged : ∀ k ∈ s.log.filterMap Wake.belongs, k < s.next ∧ ∀ c, s.suspension c ≠ some k
  meant : (s.log.filterMap Wake.belongs).Nodup
  hits : ∀ w ∈ s.log, w.hit = w.belongs

theorem init_inv : Inv (init : State R Cor Fd) where
  running := nofun
  alone := nofun
  waits := nofun
  below := nofun
  unique := nofun
  held := nofun
  firstWaits := nofun
  firstOnce := nofun
  firstPhase _ h := absurd rfl h
  logged := nofun
  meant := .nil
  hits := nofun

theorem Inv.forget {s s' : State R Cor Fd} (hi : Inv s) (h : Forgets s s') : Inv s' where
  running r c hc := by rw [h.hook]; exact hi.running r c (h.cur r c hc)
  alone r r' c hc hc' := hi.alone r r' c (h.cur r c hc) (h.cur r' c hc')
  waits f c hc := by rw [h.hook]; rw [h.fdCoroutine] at hc; exact hi.waits f c hc
  below c k f hc := by rw [h.next]; rw [h.hook] at hc; exact hi.below c k f hc
  unique := by rw [h.hook]; exact hi.unique
  held f c hc := by rw [h.fdCoroutine] at hc; exact h.held (hi.held f c hc)
  firstWaits r c t hc := by rw [h.suspension]; exact hi.firstWaits r c t (h.first r _ hc).1
  firstOnce r r' c hc hc' := hi.firstOnce r r' c (h.firstMap hc) (h.firstMap hc')
  firstPhase r hr := by
    obtain ⟨x, hx⟩ := Option.ne_none_iff_exists'.1 hr
    exact (h.first r x hx).2
  logged k hk := by
    rw [h.log] at hk
    rw [h.next]
    exact ⟨(hi.logged k hk).1, fun c => by rw [h.suspension]; exact (hi.logged k hk).2 c⟩
  meant := by rw [h.log]; exact hi.meant
  hits := by rw [h.log]; exact hi.hits

section Inv

variable {s : State R Cor Fd} {r : R} {f : Fd} {c : Cor}

theorem Inv.keepsFirst {s : State R Cor Fd} (hi : Inv s) {r : R} {x : Cor × Option Nat}
    (h : s.firstCoroutine r = some x) : (s.phase r).keepsFirst = true :=
  hi.firstPhase r (by rw [h]; nofun)

theorem Inv.first_eq_none (hi : Inv s) (hp : (s.phase r).keepsFirst = false) : s.firstCoroutine r = none := by
  by_contra hne
  rw [hi.firstPhase r hne] at hp
  cases hp

theorem Inv.ne_running (hi : Inv s) (hc : s.cur r = some c) {c' : Cor} (h : s.suspension c' ≠ none) : c' ≠ c := by
  rintro rfl
  exact h (by unfold State.suspension; rw [hi.running r c' hc]; rfl)

theorem Inv.not_running (hi : Inv s) {c : Cor} (h : s.suspension c ≠ none) (r : R) : s.cur r ≠ some c := by
  intro hc
  exact hi.ne_running hc h rfl

theorem Inv.waits_suspension (hi : Inv s) {c' : Cor} (h : s.fdCoroutine f = some c') : s.suspension c' ≠ none := by
  obtain ⟨k, hk⟩ := hi.waits f c' h
  rw [suspension_eq.2 ⟨f, hk⟩]
  nofun

/-- A coroutine waits for one descriptor. -/
theorem Inv.fd_unique (hi : Inv s) {f' : Fd} (hc : s.fdCoroutine f = some c) (hc' : s.fdCoroutine f' = some c) :
    f' = f := by
  obtain ⟨k, hk⟩ := hi.waits f c hc
  obtain ⟨k', hk'⟩ := hi.waits f' c hc'
  rw [hk] at hk'
  cases hk'
  rfl

/-- The invariant does not read the tasks, the timers, `canResume` or the reactors of the
descriptors. -/
theorem Inv.of_rest (hi : Inv s) (pendingTasks : R → List Cor) (timers : R → List (TimerTask Cor))
    (canResume : Cor → Bool) (fdReactor : Fd → Option R) :
    Inv { s with pendingTasks, timers, canResume, fdReactor } :=
  hi.forget ⟨fun _ _ h => h, rfl, rfl, rfl, rfl, .refl _, fun _ => .refl _,
    fun _ _ h => ⟨h, hi.keepsFirst h⟩, fun _ => .inr rfl⟩

theorem Inv.registered (hi : Inv s) {registered : Fd → Option R}
    (h : ∀ f, registered f = none ∨ registered f = s.registered f) : Inv { s with registered } :=
  hi.forget ⟨fun _ _ h => h, rfl, rfl, rfl, rfl, .refl _, fun _ => .refl _,
    fun _ _ h => ⟨h, hi.keepsFirst h⟩, h⟩

end Inv

/-! ## The queue -/

section Queue

variable {s : State R Cor Fd} {f : Fd} {c : Cor}

theorem mem_push {f' : Fd} {t : Option Nat} (h : f' ∈ (push s f t).queue.map Prod.fst) :
    f' ∈ s.queue.map Prod.fst ∨ f' = f := by
  simpa [push] using h

theorem held_push_self (hh : Held s f c) (hno : ∀ p, ¬ HeldAt s f c p) (hreg : s.registered f = none) :
    Held (push s f (s.suspension c)) f c := by
  have hat : ∀ p, HeldAt (push s f (s.suspension c)) f c p → p = .queue := by
    rintro (_ | r' | r') hat
    · rfl
    · exact absurd hat (hno (.batch r'))
    · exact absurd hat (hno (.first r'))
  refine ⟨fun p p' hp hp' => (hat p hp).trans (hat p' hp').symm, fun p hp => .inl hreg, ?_, hh.batchOnce,
    fun t ht => ?_, hh.batchTag⟩
  · have h0 : (s.queue.map Prod.fst).count f = 0 := List.count_eq_zero.2 (hno .queue)
    simp [push, h0]
  · rcases List.mem_append.1 ht with ht | ht
    · exact hh.queueTag t ht
    · simp only [List.mem_singleton, Prod.mk.injEq, true_and] at ht
      exact ht

theorem held_push_of_ne {f' : Fd} {t : Option Nat} (hne : f' ≠ f) (hh : Held s f' c) : Held (push s f t) f' c := by
  refine hh.mono (fun p hat => ?_) (.inr rfl) rfl ?_ (fun t' ht => ?_) (fun _ => .refl _)
  · rcases p with _ | r' | r'
    · exact (mem_push hat).resolve_right hne
    · exact hat
    · exact hat
  · simp [push, hne.symm]
  · rcases List.mem_append.1 ht with ht | ht
    · exact ht
    · simp [hne] at ht

theorem Inv.push (hi : Inv s) (hc : s.fdCoroutine f = some c) (hno : ∀ p, ¬ HeldAt s f c p)
    (hreg : s.registered f = none) : Inv (push s f (s.suspension c)) := by
  refine { hi with held := fun f' c' hc' => ?_ }
  by_cases hne : f' = f
  · subst hne
    obtain rfl : c' = c := Option.some.inj (hc'.symm.trans hc)
    exact held_push_self (hi.held f' c' hc') hno hreg
  · exact held_push_of_ne hne (hi.held f' c' hc')

theorem Inv.popQueue (hi : Inv s) {f : Fd} {t : Option Nat} {queue : List (Fd × Option Nat)}
    (hq : s.queue = (f, t) :: queue) (fdReactor : Fd → Option R) : Inv { s with queue, fdReactor } := by
  refine hi.forget ⟨fun _ _ h => h, rfl, rfl, rfl, rfl, ?_, fun _ => .refl _,
    fun _ _ hx => ⟨hx, hi.keepsFirst hx⟩, fun _ => .inr rfl⟩
  rw [hq]; exact List.sublist_cons_self ..

end Queue

/-! ## A batch arrives -/

variable [DecidableEq R]

section Batch

variable {s : State R Cor Fd} {r : R} {evs : List (Event Fd)}

theorem Inv.setPhase (hi : Inv s) {p : Phase Cor Fd} (hrest : p.rest.Sublist (s.phase r).rest)
    (hfirst : p.keepsFirst = true ∨ s.firstCoroutine r = none) : Inv (s.setPhase r p) := by
  refine hi.forget ⟨fun _ _ h => h, rfl, rfl, rfl, rfl, .refl _, fun r' => ?_, fun r' x hx => ⟨hx, ?_⟩,
    fun _ => .inr rfl⟩
  · by_cases hr : r' = r
    · subst hr; rw [setPhase_phase_self]; exact hrest
    · rw [setPhase_phase_of_ne _ _ hr]
  · by_cases hr : r' = r
    · subst hr
      rw [setPhase_phase_self]
      refine hfirst.resolve_right fun hf => ?_
      cases hf.symm.trans hx
    · rw [setPhase_phase_of_ne _ _ hr]
      exact hi.keepsFirst hx

theorem count_ready (f : Fd) (evs : List (Event Fd)) :
    evs.count (.ready f) = (evs.filterMap Event.fd?).count f := by
  induction evs with
  | nil => rfl
  | cons e evs ih =>
    rw [List.count_cons, ih]
    cases e <;> simp [Event.fd?, List.filterMap_cons, List.count_cons]

omit [DecidableEq Fd] in
theorem ready_mem {f : Fd} {evs : List (Event Fd)} (h : Event.ready f ∈ evs) : f ∈ evs.filterMap Event.fd? :=
  List.mem_filterMap.2 ⟨_, h, rfl⟩

omit [DecidableEq Fd] in
theorem epollWait_rest_self : ((epollWait s r evs).phase r).rest.map Prod.fst = evs := by
  unfold epollWait
  rw [setPhase_phase_self]
  simp [Phase.rest, Function.comp_def]

omit [DecidableEq Fd] in
theorem epollWait_rest_of_ne {r' : R} (h : r' ≠ r) : ((epollWait s r evs).phase r').rest = (s.phase r').rest := by
  unfold epollWait
  rw [setPhase_phase_of_ne _ _ h]

omit [DecidableEq R] in
/-- What a reactor reports has no wake-up held back anywhere. -/
theorem not_heldAt_reported (hi : Inv s) (hp : s.phase r = .tasks []) {f : Fd} {c : Cor}
    (hc : s.fdCoroutine f = some c) (hreg : s.registered f = some r) (p : Place R) : ¬ HeldAt s f c p := by
  intro hat
  have hr : p.reactor = some r := by
    rcases (hi.held f c hc).reg p hat with h | h
    · rw [hreg] at h; cases h
    · rw [← h, hreg]
  rcases p with _ | r' | r'
  · cases hr
  · cases hr
    simp [HeldAt, hp, Phase.rest] at hat
  · cases hr
    obtain ⟨x, hx, -⟩ := Option.map_eq_some_iff.1 hat
    have := hi.keepsFirst hx
    rw [hp] at this
    cases this

theorem held_epollWait (hi : Inv s) (hp : s.phase r = .tasks []) (hnd : (evs.filterMap Event.fd?).Nodup)
    (hreg : ∀ f ∈ evs.filterMap Event.fd?, s.registered f = some r) {f : Fd} {c : Cor}
    (hc : s.fdCoroutine f = some c) : Held (epollWait s r evs) f c := by
  have hh := hi.held f c hc
  have hat : ∀ p, HeldAt (epollWait s r evs) f c p → HeldAt s f c p ∨ p = .batch r ∧ Event.ready f ∈ evs := by
    rintro (_ | r' | r') hat
    · exact .inl hat
    · by_cases hr : r' = r
      · subst hr
        have he : Event.ready f ∈ ((epollWait s r' evs).phase r').rest.map Prod.fst := hat
        rw [epollWait_rest_self] at he
        exact .inr ⟨rfl, he⟩
      · refine .inl ?_
        simpa only [HeldAt, epollWait_rest_of_ne hr] using hat
    · exact .inl hat
  have hnew : Event.ready f ∈ evs → ∀ p, ¬ HeldAt s f c p := fun he =>
    not_heldAt_reported hi hp hc (hreg f (ready_mem he))
  refine ⟨fun p p' hat₁ hat₂ => ?_, fun p hat₁ => ?_, hh.queueOnce, fun r' => ?_, hh.queueTag, fun r' t ht => ?_⟩
  · rcases hat p hat₁ with h₁ | ⟨rfl, he⟩ <;> rcases hat p' hat₂ with h₂ | ⟨rfl, he'⟩
    · exact hh.place p p' h₁ h₂
    · exact absurd h₁ (hnew he' p)
    · exact absurd h₂ (hnew he p')
    · rfl
  · rcases hat p hat₁ with h₁ | ⟨rfl, he⟩
    · exact hh.reg p h₁
    · exact .inr (hreg f (ready_mem he))
  · by_cases hr : r' = r
    · subst hr
      rw [epollWait_rest_self, count_ready]
      exact List.nodup_iff_count_le_one.1 hnd f
    · rw [epollWait_rest_of_ne hr]; exact hh.batchOnce r'
  · by_cases hr : r' = r
    · subst hr
      simp only [epollWait, setPhase_phase_self, Phase.rest, List.mem_map, Prod.mk.injEq] at ht
      obtain ⟨e, -, rfl, rfl⟩ := ht
      simp only [State.owner, hc, Option.bind_some]
      rfl
    · rw [epollWait_rest_of_ne hr] at ht; exact hh.batchTag r' t ht

theorem Inv.epollWait (hi : Inv s) (hp : s.phase r = .tasks []) (hnd : (evs.filterMap Event.fd?).Nodup)
    (hreg : ∀ f ∈ evs.filterMap Event.fd?, s.registered f = some r) : Inv (epollWait s r evs) :=
  { hi with
    held := fun _ _ hc => held_epollWait hi hp hnd hreg hc
    firstPhase := fun r' hr' => by
      unfold Reactor.epollWait
      by_cases hr : r' = r
      · subst hr; rw [setPhase_phase_self]; rfl
      · rw [setPhase_phase_of_ne _ _ hr]; exact hi.firstPhase r' hr' }

/-- The wake-up of the event a loop takes from its batch is held back nowhere else. -/
theorem not_heldAt_taken (hi : Inv s) {f : Fd} {c : Cor} {t : Option Nat} {rest : List (Event Fd × Option Nat)}
    {due : List (TimerTask Cor)} (hp : s.phase r = .batch ((.ready f, t) :: rest) due) (hc : s.fdCoroutine f = some c)
    (p : Place R) : ¬ HeldAt (s.setPhase r (.batch rest [])) f c p := by
  have hh := hi.held f c hc
  have hbatch : HeldAt s f c (.batch r) := by simp [HeldAt, hp, Phase.rest]
  have hcount := hh.batchOnce r
  simp only [hp, Phase.rest, List.map_cons, List.count_cons_self] at hcount
  intro hat
  rcases p with _ | r' | r'
  · cases hh.place _ _ hbatch (show HeldAt s f c .queue from hat)
  · by_cases hr : r' = r
    · subst hr
      simp only [HeldAt, setPhase_phase_self, Phase.rest] at hat
      have := List.count_pos_iff.2 hat
      omega
    · have hat' : HeldAt s f c (.batch r') := by simpa only [HeldAt, setPhase_phase_of_ne _ _ hr] using hat
      cases hh.place _ _ hbatch hat'
      exact hr rfl
  · cases hh.place _ _ hbatch (show HeldAt s f c (.first r') from hat)

end Batch

/-! ## The first coroutine -/

section First

variable {s : State R Cor Fd} {r : R} {f : Fd} {c : Cor}

omit [DecidableEq Fd] in
theorem remember_cases {t : Option Nat} {r' : R} {x : Cor × Option Nat}
    (h : (remember s r c t).firstCoroutine r' = some x) :
    r' = r ∧ x = (c, t) ∨ r' ≠ r ∧ s.firstCoroutine r' = some x := by
  change update s.firstCoroutine r (some (c, t)) r' = some x at h
  by_cases hr : r' = r
  · subst hr; rw [update_self] at h; cases h; exact .inl ⟨rfl, rfl⟩
  · rw [update_of_ne hr] at h; exact .inr ⟨hr, h⟩

omit [DecidableEq Fd] in
theorem remember_map_cases {t : Option Nat} {r' : R} {c' : Cor}
    (h : ((remember s r c t).firstCoroutine r').map Prod.fst = some c') :
    r' = r ∧ c' = c ∨ r' ≠ r ∧ (s.firstCoroutine r').map Prod.fst = some c' := by
  obtain ⟨x, hx, rfl⟩ := Option.map_eq_some_iff.1 h
  rcases remember_cases hx with ⟨rfl, rfl⟩ | ⟨hr, hx⟩
  · exact .inl ⟨rfl, rfl⟩
  · exact .inr ⟨hr, by rw [hx]; rfl⟩

theorem held_remember_self (hh : Held s f c) (hno : ∀ p, ¬ HeldAt s f c p)
    (hreg : s.registered f = none ∨ s.registered f = some r) : Held (remember s r c (s.suspension c)) f c := by
  have hat : ∀ p, HeldAt (remember s r c (s.suspension c)) f c p → p = .first r := by
    rintro (_ | r' | r') hat
    · exact absurd hat (hno .queue)
    · exact absurd hat (hno (.batch r'))
    · rcases remember_map_cases hat with ⟨rfl, -⟩ | ⟨-, hx⟩
      · rfl
      · exact absurd hx (hno (.first r'))
  refine ⟨fun p p' hp hp' => (hat p hp).trans (hat p' hp').symm, fun p hp => ?_, hh.queueOnce, hh.batchOnce,
    hh.queueTag, hh.batchTag⟩
  rw [hat p hp]; exact hreg

theorem held_remember_of_ne {c' : Cor} (hne : c' ≠ c) (hh : Held s f c') :
    Held (remember s r c (s.suspension c)) f c' := by
  refine hh.mono (fun p hat => ?_) (.inr rfl) rfl (Nat.le_refl _) (fun _ => id) (fun _ => .refl _)
  rcases p with _ | r' | r'
  · exact hat
  · exact hat
  · rcases remember_map_cases hat with ⟨-, rfl⟩ | ⟨-, hx⟩
    · exact absurd rfl hne
    · exact hx

theorem Inv.remember (hi : Inv s) (hc : s.fdCoroutine f = some c) (hno : ∀ p, ¬ HeldAt s f c p)
    (hphase : (s.phase r).keepsFirst = true) (hreg : s.registered f = none ∨ s.registered f = some r) :
    Inv (remember s r c (s.suspension c)) := by
  refine { hi with held := fun f' c' hc' => ?_, firstWaits := fun r' c' t hx => ?_,
                   firstOnce := fun r₁ r₂ c' h₁ h₂ => ?_, firstPhase := fun r' hx => ?_ }
  · by_cases hne : c' = c
    · subst hne
      obtain rfl := hi.fd_unique hc hc'
      exact held_remember_self (hi.held f' c' hc') hno hreg
    · exact held_remember_of_ne hne (hi.held f' c' hc')
  · rcases remember_cases hx with ⟨-, hx⟩ | ⟨-, hx⟩
    · cases hx
      exact ⟨rfl, hi.waits_suspension hc⟩
    · exact hi.firstWaits r' c' t hx
  · rcases remember_map_cases h₁ with ⟨rfl, rfl⟩ | ⟨-, h₁'⟩ <;> rcases remember_map_cases h₂ with ⟨rfl, h⟩ | ⟨-, h₂'⟩
    · rfl
    · exact absurd h₂' (hno (.first r₂))
    · subst h
      exact absurd h₁' (hno (.first r₁))
    · exact hi.firstOnce r₁ r₂ c' h₁' h₂'
  · obtain ⟨x, hx⟩ := Option.ne_none_iff_exists'.1 hx
    rcases remember_cases hx with ⟨rfl, -⟩ | ⟨-, hx⟩
    · exact hphase
    · exact hi.keepsFirst hx

/-- At the head of an iteration nothing is remembered any more. -/
theorem Inv.takeFirst (hi : Inv s) :
    Inv { s.setPhase r .drain with firstCoroutine := update s.firstCoroutine r none } := by
  refine hi.forget ⟨fun _ _ h => h, rfl, rfl, rfl, rfl, .refl _, fun r' => ?_, fun r' x hx => ?_, fun _ => .inr rfl⟩
  · by_cases hr : r' = r
    · subst hr
      change ((s.setPhase r' .drain).phase r').rest.Sublist _
      rw [setPhase_phase_self]; exact List.nil_sublist _
    · change ((s.setPhase r .drain).phase r').rest.Sublist _
      rw [setPhase_phase_of_ne _ _ hr]
  · obtain ⟨hr, hx⟩ := update_none_eq hx
    refine ⟨hx, ?_⟩
    change ((s.setPhase r .drain).phase r').keepsFirst = true
    rw [setPhase_phase_of_ne _ _ hr]
    exact hi.keepsFirst hx

theorem Inv.leave (hi : Inv s) (canResume : Cor → Bool) : Inv { s with cur := update s.cur r none, canResume } := by
  exact hi.forget ⟨fun _ _ hc => (update_none_eq hc).2, rfl, rfl, rfl, rfl, .refl _, fun _ => .refl _,
    fun _ _ hx => ⟨hx, hi.keepsFirst hx⟩, fun _ => .inr rfl⟩

end First

/-! ## One event of a batch -/

section Handle

variable {s : State R Cor Fd} {r : R}

theorem delEvent_fdCoroutine (f f' : Fd) : (delEventInLoopThread s r f).fdCoroutine f' = s.fdCoroutine f' := by
  unfold delEventInLoopThread; split <;> rfl

theorem delEvent_suspension (f : Fd) (c : Cor) : (delEventInLoopThread s r f).suspension c = s.suspension c := by
  unfold delEventInLoopThread; split <;> rfl

theorem heldAt_delEvent {f f' : Fd} {c : Cor} {p : Place R} :
    HeldAt (delEventInLoopThread s r f) f' c p ↔ HeldAt s f' c p := by
  unfold delEventInLoopThread; split <;> cases p <;> rfl

theorem delEvent_registered {f : Fd} (h : s.registered f = none ∨ s.registered f = some r) :
    (delEventInLoopThread s r f).registered f = none := by
  unfold delEventInLoopThread
  split
  · exact update_self ..
  · rename_i hne
    exact h.resolve_right hne

theorem Inv.delEventInLoopThread (hi : Inv s) (f : Fd) : Inv (delEventInLoopThread s r f) := by
  unfold Reactor.delEventInLoopThread
  split
  · exact hi.registered (update_none_cases _ f)
  · exact hi

theorem Inv.handleEvent (hi : Inv s) {e : Event Fd × Option Nat} {rest : List (Event Fd × Option Nat)} (n : Nat)
    (hp : s.phase r = .batch (e :: rest) []) : Inv (handleEvent s r rest n e) := by
  have hphase : ∀ due, Inv (s.setPhase r (.batch rest due)) := fun due =>
    hi.setPhase (by rw [hp]; exact List.sublist_cons_self ..) (.inl rfl)
  obtain ⟨e, t⟩ := e
  cases e with
  | wakeup => exact hphase []
  | unknown f => exact (hphase []).delEventInLoopThread f
  | timer => exact (hphase _).of_rest _ _ _ _
  | ready f =>
    simp only [Reactor.handleEvent]
    split
    · exact hphase []
    · rename_i c hc
      have hno := not_heldAt_taken hi hp hc
      have ht : t = s.suspension c := (hi.held f c hc).batchTag r t (by rw [hp]; exact List.mem_cons_self ..)
      have hreg : s.registered f = none ∨ s.registered f = some r :=
        (hi.held f c hc).reg (.batch r) (by simp [HeldAt, hp, Phase.rest])
      subst ht
      split
      · refine (hphase []).remember hc hno ?_ hreg
        rw [setPhase_phase_self]; rfl
      · have hpush := ((hphase []).delEventInLoopThread (r := r) f).push ((delEvent_fdCoroutine ..).trans hc)
          (fun p hat => hno p (heldAt_delEvent.1 hat)) (delEvent_registered hreg)
        rwa [delEvent_suspension] at hpush

end Handle

end Flconc.Reactor
