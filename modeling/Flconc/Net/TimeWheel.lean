/-
`TcpTimeWheel` of net/tcp/tcp_connection_time_wheel.cc with the slots of net/tcp/abstract_slot.h. A
slot lives as long as something holds a pointer to it: a bucket of the wheel, or a refresh that
`freshTcpConnection` has queued in the main reactor. Its destructor shuts the connection down.
Over the wheel stands what it is for: a connection has a deadline, its last refresh and as many
ticks as there are buckets.
-/
import Flconc.Lib.Run
import Mathlib.Data.List.Nodup
import Mathlib.Logic.Function.Basic

namespace Flconc.TimeWheel

open Function

variable {Slot : Type}

/-! ## The wheel -/

/-- `std::queue<std::vector<TcpConnectionSlot::ptr>>`, the front first. -/
abbrev Wheel (Slot : Type) := List (List Slot)

/-- `m_wheel.back().emplace_back(slot)`. -/
def Wheel.fresh (w : Wheel Slot) (slot : Slot) : Wheel Slot := w.modify (w.length - 1) (· ++ [slot])

/-- `m_wheel.pop()` and a new bucket at the back. -/
def Wheel.turn (w : Wheel Slot) : Wheel Slot := w.tail ++ [[]]

/-- The bucket that is `i` turns away from the front has a pointer to the slot. -/
def Wheel.Holds (w : Wheel Slot) (i : Nat) (slot : Slot) : Prop := ∃ b, w[i]? = some b ∧ slot ∈ b

theorem Wheel.mem_flatten_iff {w : Wheel Slot} {slot : Slot} : slot ∈ w.flatten ↔ ∃ i, w.Holds i slot := by
  constructor
  · intro h
    obtain ⟨b, hb, hx⟩ := List.mem_flatten.1 h
    obtain ⟨i, hi⟩ := List.mem_iff_getElem?.1 hb
    exact ⟨i, b, hi, hx⟩
  · rintro ⟨i, b, hi, hx⟩
    exact List.mem_flatten.2 ⟨b, List.mem_iff_getElem?.2 ⟨i, hi⟩, hx⟩

theorem Wheel.holds_fresh {w : Wheel Slot} (slot : Slot) {i : Nat} {x : Slot} :
    (w.fresh slot).Holds i x ↔ w.Holds i x ∨ (x = slot ∧ i + 1 = w.length) := by
  unfold Holds fresh
  rw [List.getElem?_modify]
  by_cases hi : i < w.length
  · rw [List.getElem?_eq_getElem hi]
    by_cases hlast : w.length - 1 = i
    · have : i + 1 = w.length := by omega
      simp [hlast, this]
    · have : ¬ i + 1 = w.length := by omega
      simp [hlast, this]
  · rw [List.getElem?_eq_none (Nat.le_of_not_lt hi)]
    have : ¬ i + 1 = w.length := by omega
    simp [this]

theorem Wheel.length_fresh (w : Wheel Slot) (slot : Slot) : (w.fresh slot).length = w.length :=
  List.length_modify ..

/-- Every bucket comes one turn nearer, and the new one is empty. -/
theorem Wheel.holds_turn {w : Wheel Slot} (h : w ≠ []) {i : Nat} {x : Slot} :
    w.turn.Holds i x ↔ w.Holds (i + 1) x := by
  obtain ⟨b, w, rfl⟩ := List.exists_cons_of_ne_nil h
  unfold Holds turn
  rw [List.tail_cons, List.getElem?_cons_succ]
  by_cases hi : i < w.length
  · rw [List.getElem?_append_left hi]
  · rw [List.getElem?_append_right (Nat.le_of_not_lt hi), List.getElem?_eq_none (Nat.le_of_not_lt hi)]
    constructor
    · rintro ⟨b', hb', hx⟩
      rw [List.getElem?_singleton] at hb'
      split at hb'
      · cases hb'
        cases hx
      · cases hb'
    · rintro ⟨b', hb', -⟩
      cases hb'

theorem Wheel.length_turn {w : Wheel Slot} (h : w ≠ []) : w.turn.length = w.length := by
  obtain ⟨b, w, rfl⟩ := List.exists_cons_of_ne_nil h
  simp [turn]

variable [DecidableEq Slot]

/-- The destruction of a bucket, pointer by pointer: the slots to which no pointer is left. -/
def release (elsewhere : List Slot) : List Slot → List Slot
  | [] => []
  | slot :: bucket =>
    if slot ∈ bucket ∨ slot ∈ elsewhere then release elsewhere bucket
    else slot :: release elsewhere bucket

theorem mem_release {elsewhere : List Slot} {x : Slot} : ∀ {bucket : List Slot},
    x ∈ release elsewhere bucket ↔ x ∈ bucket ∧ x ∉ elsewhere
  | [] => by simp [release]
  | slot :: bucket => by
    unfold release
    split
    · rw [mem_release, List.mem_cons]
      constructor
      · exact fun h => ⟨.inr h.1, h.2⟩
      · rintro ⟨rfl | h, he⟩
        · exact ⟨(‹x ∈ bucket ∨ x ∈ elsewhere›).resolve_right he, he⟩
        · exact ⟨h, he⟩
    · rw [List.mem_cons, mem_release, List.mem_cons]
      constructor
      · rintro (rfl | h)
        · exact ⟨.inl rfl, fun he => ‹¬ (x ∈ bucket ∨ x ∈ elsewhere)› (.inr he)⟩
        · exact ⟨.inr h.1, h.2⟩
      · rintro ⟨rfl | h, he⟩
        · exact .inl rfl
        · exact .inr ⟨h, he⟩

theorem release_nodup {elsewhere : List Slot} : ∀ {bucket : List Slot}, (release elsewhere bucket).Nodup
  | [] => List.nodup_nil
  | slot :: bucket => by
    unfold release
    split
    · exact release_nodup
    · rename_i h
      exact List.nodup_cons.2 ⟨fun hx => h (.inl (mem_release.1 hx).1), release_nodup⟩

/-! ## Connections and ticks -/

structure State (Slot : Type) where
  wheel : Wheel Slot
  /-- The refreshes queued in the main reactor, each with a pointer to its slot. -/
  tasks : List Slot
  /-- The slots made so far, one for each connection, and those whose connection is gone. -/
  registered : List Slot
  gone : List Slot
  /-- The number of ticks, and the number at the last executed `fresh` of a slot. -/
  now : Nat
  lastFresh : Slot → Option Nat
  /-- Destroyed slots with their ticks, and the shutdown callbacks run. -/
  destroyed : List (Slot × Nat)
  shutdowns : List (Slot × Nat)

inductive Act (Slot : Type)
  /-- `registerToTimeWheel` of a new connection. -/
  | register (slot : Slot)
  /-- The end of `input` of a connection: `m_weak_slot.lock()`, and a refresh if that succeeds. -/
  | input (slot : Slot)
  /-- The main reactor runs the next queued refresh. -/
  | runTask
  /-- `loopFunc`. -/
  | tick
  /-- A connection is destroyed. -/
  | destroy (slot : Slot)
  deriving DecidableEq

/-- The pointers to slots. -/
def State.pointers (s : State Slot) : List Slot := s.wheel.flatten ++ s.tasks

/-- `freshTcpConnection`. -/
def freshTcpConnection (s : State Slot) (slot : Slot) : State Slot := { s with tasks := s.tasks ++ [slot] }

def loopFunc (s : State Slot) : State Slot :=
  let dead := release (s.wheel.tail.flatten ++ s.tasks) (s.wheel.headD [])
  { s with
    wheel := s.wheel.turn
    now := s.now + 1
    destroyed := s.destroyed ++ dead.map fun x => (x, s.now + 1)
    -- the destructor locks its weak pointer to the connection
    shutdowns := s.shutdowns ++ (dead.filter fun x => x ∉ s.gone).map fun x => (x, s.now + 1) }

def step (s : State Slot) : Act Slot → Option (State Slot)
  | .register slot =>
    if slot ∈ s.registered then none
    else some (freshTcpConnection { s with registered := slot :: s.registered } slot)
  | .input slot =>
    if slot ∈ s.registered ∧ slot ∉ s.gone then
      some (if slot ∈ s.pointers then freshTcpConnection s slot else s)
    else none
  | .runTask =>
    match s.tasks with
    | [] => none
    | slot :: tasks =>
      some { s with
        wheel := s.wheel.fresh slot
        tasks := tasks
        lastFresh := update s.lastFresh slot (some s.now) }
  | .tick => some (loopFunc s)
  | .destroy slot => if slot ∈ s.registered then some { s with gone := slot :: s.gone } else none

/-- `TcpTimeWheel(reactor, bucket_count, inteval)`. -/
def start (bucketCount : Nat) : State Slot where
  wheel := List.replicate bucketCount []
  tasks := []
  registered := []
  gone := []
  now := 0
  lastFresh _ := none
  destroyed := []
  shutdowns := []

/-! ## Deadlines -/

/-- The slot has been destroyed by now at the tick `t`: the `n`-th tick behind its last refresh, and
no refresh is queued. -/
def Idle (n : Nat) (s : State Slot) (x : Slot) (t : Nat) : Prop :=
  (∃ l, s.lastFresh x = some l ∧ t = l + n) ∧ t ≤ s.now ∧ x ∉ s.tasks

/-- Exactly the idle slots have been destroyed, each once, and the connections shut down are those
of them that were still there. -/
structure EvictsIdle (n : Nat) (s : State Slot) : Prop where
  destroyed : ∀ x t, (x, t) ∈ s.destroyed ↔ Idle n s x t
  once : (s.destroyed.map Prod.fst).Nodup
  shutdowns : s.shutdowns.Sublist s.destroyed
  connected : ∀ x t, x ∉ s.gone → ((x, t) ∈ s.shutdowns ↔ (x, t) ∈ s.destroyed)

/-- A tick is not the `n`-th one in a row without a refresh of the slot. -/
def RefreshedInTime (n : Nat) (x : Slot) (s : State Slot) : Act Slot → Prop
  | .tick => ∀ l, s.lastFresh x = some l → s.now + 1 < l + n
  | _ => True

/-- The buckets hold the slots by the ticks that are left to their deadlines. -/
structure Inv (n : Nat) (s : State Slot) : Prop where
  length : s.wheel.length = n
  holds : ∀ i x, s.wheel.Holds i x → ∃ l, s.lastFresh x = some l ∧ s.now + i + 1 ≤ l + n
  last : ∀ x l, s.lastFresh x = some l → l ≤ s.now ∧ ∀ i, s.now + i + 1 = l + n → s.wheel.Holds i x
  known : ∀ x, x ∈ s.tasks ∨ s.lastFresh x ≠ none → x ∈ s.registered
  gone : ∀ x, x ∈ s.gone → x ∈ s.registered
  evicts : EvictsIdle n s

omit [DecidableEq Slot] in
theorem inv_start (n : Nat) : Inv n (start n : State Slot) where
  length := List.length_replicate
  holds i x h := by
    obtain ⟨b, hb, hx⟩ := h
    rw [show (start n : State Slot).wheel = List.replicate n [] from rfl, List.getElem?_replicate] at hb
    split at hb
    · cases hb
      cases hx
    · cases hb
  last x l h := by cases h
  known x h := by
    rcases h with h | h
    · exact absurd h List.not_mem_nil
    · exact absurd rfl h
  gone x h := by cases h
  evicts := by
    refine ⟨fun x t => iff_of_false List.not_mem_nil ?_, List.nodup_nil, List.Sublist.refl _, fun x t _ => Iff.rfl⟩
    rintro ⟨⟨l, h, -⟩, -⟩
    cases h

omit [DecidableEq Slot] in
/-- A slot with a pointer to it is not idle. -/
theorem Inv.not_idle {n : Nat} {s : State Slot} (hi : Inv n s) {x : Slot} (hx : x ∈ s.pointers) (t : Nat) :
    ¬ Idle n s x t := by
  rintro ⟨⟨l, hl, rfl⟩, hnow, htasks⟩
  rcases List.mem_append.1 hx with h | h
  · obtain ⟨i, hh⟩ := Wheel.mem_flatten_iff.1 h
    obtain ⟨l', hl', hle⟩ := hi.holds i x hh
    rw [hl] at hl'
    cases hl'
    omega
  · exact htasks h

omit [DecidableEq Slot] in
/-- Queueing a refresh for a slot that is not idle. -/
theorem Inv.post {n : Nat} {s : State Slot} (hi : Inv n s) {x : Slot} (hx : x ∈ s.registered)
    (hidle : ∀ t, ¬ Idle n s x t) : Inv n (freshTcpConnection s x) where
  length := hi.length
  holds := hi.holds
  last := hi.last
  known y h := by
    rcases h with h | h
    · rcases List.mem_append.1 h with h | h
      · exact hi.known y (.inl h)
      · rw [List.mem_singleton.1 h]
        exact hx
    · exact hi.known y (.inr h)
  gone := hi.gone
  evicts := by
    refine ⟨fun y t => ?_, hi.evicts.once, hi.evicts.shutdowns, hi.evicts.connected⟩
    show (y, t) ∈ s.destroyed ↔ _
    rw [hi.evicts.destroyed y t]
    constructor
    · rintro ⟨hl, hnow, htasks⟩
      refine ⟨hl, hnow, fun h => ?_⟩
      rcases List.mem_append.1 h with h | h
      · exact htasks h
      · rw [List.mem_singleton.1 h] at hl htasks
        exact hidle t ⟨hl, hnow, htasks⟩
    · rintro ⟨hl, hnow, htasks⟩
      exact ⟨hl, hnow, fun h => htasks (List.mem_append_left _ h)⟩

/-- A refresh moves the deadline to `n` ticks from now. -/
theorem Inv.runTask {n : Nat} (hn : 1 ≤ n) {s : State Slot} (hi : Inv n s) {x : Slot} {tasks : List Slot}
    (hx : s.tasks = x :: tasks) : Inv n { s with
      wheel := s.wheel.fresh x, tasks := tasks, lastFresh := update s.lastFresh x (some s.now) } where
  length := (Wheel.length_fresh s.wheel x).trans hi.length
  holds i y h := by
    show ∃ l, update s.lastFresh x (some s.now) y = some l ∧ _
    rcases (Wheel.holds_fresh x).1 h with h | ⟨rfl, hlast⟩
    · obtain ⟨l, hl, hle⟩ := hi.holds i y h
      by_cases hy : y = x
      · subst hy
        have := (hi.last y l hl).1
        exact ⟨s.now, update_self .., by show s.now + i + 1 ≤ s.now + n; omega⟩
      · exact ⟨l, by rw [update_of_ne hy, hl], hle⟩
    · rw [hi.length] at hlast
      exact ⟨s.now, update_self .., by show s.now + i + 1 ≤ s.now + n; omega⟩
  last y l h := by
    have h : update s.lastFresh x (some s.now) y = some l := h
    by_cases hy : y = x
    · subst hy
      rw [update_self] at h
      cases h
      refine ⟨Nat.le_refl _, fun i hlast => (Wheel.holds_fresh y).2 (.inr ⟨rfl, ?_⟩)⟩
      have hlast : s.now + i + 1 = s.now + n := hlast
      rw [hi.length]
      omega
    · rw [update_of_ne hy] at h
      obtain ⟨hle, hh⟩ := hi.last y l h
      exact ⟨hle, fun i hlast => (Wheel.holds_fresh x).2 (.inl (hh i hlast))⟩
  known y h := by
    have h : y ∈ tasks ∨ update s.lastFresh x (some s.now) y ≠ none := h
    by_cases hy : y = x
    · subst hy
      exact hi.known y (.inl (hx ▸ List.mem_cons_self))
    · rw [update_of_ne hy] at h
      exact hi.known y (h.imp (fun h => hx ▸ List.mem_cons_of_mem _ h) id)
  gone := hi.gone
  evicts := by
    refine ⟨fun y t => ?_, hi.evicts.once, hi.evicts.shutdowns, hi.evicts.connected⟩
    show (y, t) ∈ s.destroyed ↔ (∃ l, update s.lastFresh x (some s.now) y = some l ∧ t = l + n) ∧ t ≤ s.now ∧ y ∉ tasks
    rw [hi.evicts.destroyed y t]
    unfold Idle
    by_cases hy : y = x
    · subst hy
      rw [hx]
      refine iff_of_false (fun h => h.2.2 List.mem_cons_self) ?_
      rintro ⟨⟨l, hl, rfl⟩, hnow, -⟩
      rw [update_self] at hl
      cases hl
      omega
    · rw [update_of_ne hy, hx]
      simp [hy]

/-- A tick destroys what has come to its deadline. -/
theorem Inv.dead_iff {n : Nat} {s : State Slot} (hi : Inv n s) (hw : s.wheel ≠ []) {x : Slot} :
    x ∈ release (s.wheel.tail.flatten ++ s.tasks) (s.wheel.headD []) ↔
      (∃ l, s.lastFresh x = some l ∧ s.now + 1 = l + n) ∧ x ∉ s.tasks := by
  obtain ⟨b, w, hbw⟩ := List.exists_cons_of_ne_nil hw
  have hfront : x ∈ b ↔ s.wheel.Holds 0 x := by
    rw [hbw]
    exact ⟨fun h => ⟨b, rfl, h⟩, fun ⟨b', hb', h⟩ => by cases hb'; exact h⟩
  have hback : ∀ i, Wheel.Holds w i x ↔ s.wheel.Holds (i + 1) x := by
    intro i
    rw [hbw]
    rfl
  rw [hbw, mem_release, List.tail_cons, List.headD_cons, List.mem_append, not_or, hfront,
    Wheel.mem_flatten_iff]
  constructor
  · rintro ⟨hh, hrest, htasks⟩
    obtain ⟨l, hl, hle⟩ := hi.holds 0 x hh
    refine ⟨⟨l, hl, ?_⟩, htasks⟩
    by_contra hne
    -- a later deadline keeps a pointer in a bucket behind the front
    obtain ⟨i, hlast⟩ : ∃ i, s.now + (i + 1) + 1 = l + n := ⟨l + n - s.now - 2, by omega⟩
    exact hrest ⟨i, (hback i).2 ((hi.last x l hl).2 (i + 1) hlast)⟩
  · rintro ⟨⟨l, hl, hlast⟩, htasks⟩
    refine ⟨(hi.last x l hl).2 0 hlast, ?_, htasks⟩
    rintro ⟨i, hh⟩
    obtain ⟨l', hl', hle⟩ := hi.holds (i + 1) x ((hback i).1 hh)
    rw [hl] at hl'
    cases hl'
    omega

theorem Inv.tick_destroyed {n : Nat} {s : State Slot} (hi : Inv n s) (hw : s.wheel ≠ []) (x : Slot) (t : Nat) :
    (x, t) ∈ (loopFunc s).destroyed ↔ Idle n (loopFunc s) x t := by
  show (x, t) ∈ s.destroyed ++ _ ↔ (∃ l, s.lastFresh x = some l ∧ t = l + n) ∧ t ≤ s.now + 1 ∧ x ∉ s.tasks
  rw [List.mem_append, hi.evicts.destroyed x t, List.mem_map]
  constructor
  · rintro (⟨hl, hnow, htasks⟩ | ⟨y, hy, hxt⟩)
    · exact ⟨hl, by omega, htasks⟩
    · cases hxt
      obtain ⟨⟨l, hl, hlast⟩, htasks⟩ := (hi.dead_iff hw).1 hy
      exact ⟨⟨l, hl, hlast⟩, Nat.le_refl _, htasks⟩
  · rintro ⟨⟨l, hl, rfl⟩, hnow, htasks⟩
    by_cases hlast : s.now + 1 = l + n
    · exact .inr ⟨x, (hi.dead_iff hw).2 ⟨⟨l, hl, hlast⟩, htasks⟩, by rw [hlast]⟩
    · exact .inl ⟨⟨l, hl, rfl⟩, by omega, htasks⟩

/-- A slot that was destroyed before had its deadline before. -/
theorem Inv.tick_once {n : Nat} {s : State Slot} (hi : Inv n s) (hw : s.wheel ≠ []) :
    ((loopFunc s).destroyed.map Prod.fst).Nodup := by
  show ((s.destroyed ++ _).map Prod.fst).Nodup
  rw [List.map_append, List.map_map]
  refine List.nodup_append.2 ⟨hi.evicts.once, ?_, ?_⟩
  · rw [show (Prod.fst ∘ fun x : Slot => (x, s.now + 1)) = id from rfl, List.map_id]
    exact release_nodup
  · rintro x hx y hy rfl
    obtain ⟨⟨x', t⟩, hp, rfl⟩ := List.mem_map.1 hx
    obtain ⟨y, hdead, hyx⟩ := List.mem_map.1 hy
    have hyx : y = x' := hyx
    subst hyx
    obtain ⟨⟨l, hl, rfl⟩, hnow, -⟩ := (hi.evicts.destroyed y t).1 hp
    obtain ⟨⟨l', hl', hlast⟩, -⟩ := (hi.dead_iff hw).1 hdead
    rw [hl] at hl'
    cases hl'
    omega

theorem Inv.tick_connected {n : Nat} {s : State Slot} (hi : Inv n s) {x : Slot} (hgone : x ∉ s.gone) (t : Nat) :
    (x, t) ∈ (loopFunc s).shutdowns ↔ (x, t) ∈ (loopFunc s).destroyed := by
  show (x, t) ∈ s.shutdowns ++ _ ↔ (x, t) ∈ s.destroyed ++ _
  rw [List.mem_append, List.mem_append, hi.evicts.connected x t hgone, List.mem_map, List.mem_map]
  refine or_congr_right ⟨?_, ?_⟩
  · rintro ⟨y, hy, hxt⟩
    exact ⟨y, (List.mem_filter.1 hy).1, hxt⟩
  · rintro ⟨y, hy, hxt⟩
    cases hxt
    exact ⟨x, List.mem_filter.2 ⟨hy, decide_eq_true hgone⟩, rfl⟩

theorem Inv.tick {n : Nat} (hn : 1 ≤ n) {s : State Slot} (hi : Inv n s) : Inv n (loopFunc s) := by
  have hw : s.wheel ≠ [] := fun h => by
    have := hi.length
    rw [h] at this
    simp at this
    omega
  refine ⟨(Wheel.length_turn hw).trans hi.length, fun i x h => ?_, fun x l h => ?_, hi.known, hi.gone,
    ⟨hi.tick_destroyed hw, hi.tick_once hw, hi.evicts.shutdowns.append (List.filter_sublist.map _),
      fun x t hgone => hi.tick_connected hgone t⟩⟩
  · obtain ⟨l, hl, hle⟩ := hi.holds (i + 1) x ((Wheel.holds_turn hw).1 h)
    exact ⟨l, hl, by show s.now + 1 + i + 1 ≤ l + n; omega⟩
  · obtain ⟨hle, hh⟩ := hi.last x l h
    refine ⟨Nat.le_succ_of_le hle, fun i hlast => (Wheel.holds_turn hw).2 (hh (i + 1) ?_)⟩
    have hlast : s.now + 1 + i + 1 = l + n := hlast
    omega

theorem step_inv {n : Nat} (hn : 1 ≤ n) {s s' : State Slot} {a : Act Slot} (hi : Inv n s)
    (h : step s a = some s') : Inv n s' := by
  cases a with
  | register slot =>
    obtain ⟨hnew, h⟩ := Option.ite_none_left_eq_some.1 h
    cases h
    -- a new slot has never been refreshed
    have hi' : Inv n { s with registered := slot :: s.registered } :=
      ⟨hi.length, hi.holds, hi.last, fun x hx => List.mem_cons_of_mem _ (hi.known x hx),
        fun x hx => List.mem_cons_of_mem _ (hi.gone x hx),
        ⟨hi.evicts.destroyed, hi.evicts.once, hi.evicts.shutdowns, hi.evicts.connected⟩⟩
    refine hi'.post List.mem_cons_self fun t ht => hnew ?_
    obtain ⟨⟨l, hl, -⟩, -⟩ := ht
    exact hi.known slot (.inr fun hnone => by rw [show s.lastFresh slot = some l from hl] at hnone; cases hnone)
  | input slot =>
    obtain ⟨⟨hreg, -⟩, h⟩ := Option.ite_none_right_eq_some.1 h
    cases h
    split
    · exact hi.post hreg fun t => hi.not_idle ‹_› t
    · exact hi
  | runTask =>
    unfold step at h
    dsimp only at h
    split at h
    · cases h
    · rename_i slot tasks htasks
      cases h
      exact hi.runTask hn htasks
  | tick =>
    cases h
    exact hi.tick hn
  | destroy slot =>
    obtain ⟨hreg, h⟩ := Option.ite_none_right_eq_some.1 h
    cases h
    refine ⟨hi.length, hi.holds, hi.last, hi.known, ?_, hi.evicts.destroyed, hi.evicts.once,
      hi.evicts.shutdowns, fun x t hx => hi.evicts.connected x t fun hx' => hx (List.mem_cons_of_mem _ hx')⟩
    intro x hx
    rcases List.mem_cons.1 hx with rfl | hx
    · exact hreg
    · exact hi.gone x hx

/-! ## Every run -/

/-- While the guard holds, the deadline of a refreshed slot is ahead. -/
theorem ahead_step {n : Nat} (hn : 1 ≤ n) {x : Slot} {s s' : State Slot} {a : Act Slot}
    (hx : ∀ l, s.lastFresh x = some l → s.now < l + n) (hg : RefreshedInTime n x s a) (h : step s a = some s') :
    ∀ l, s'.lastFresh x = some l → s'.now < l + n := by
  cases a with
  | register slot =>
    obtain ⟨-, h⟩ := Option.ite_none_left_eq_some.1 h
    cases h
    exact hx
  | input slot =>
    obtain ⟨-, h⟩ := Option.ite_none_right_eq_some.1 h
    cases h
    split <;> exact hx
  | runTask =>
    unfold step at h
    dsimp only at h
    split at h
    · cases h
    · rename_i slot tasks htasks
      cases h
      intro l hl
      have hl : update s.lastFresh slot (some s.now) x = some l := hl
      show s.now < l + n
      by_cases hs : x = slot
      · subst hs
        rw [update_self] at hl
        cases hl
        omega
      · rw [update_of_ne hs] at hl
        exact hx l hl
  | tick =>
    cases h
    exact hg
  | destroy slot =>
    obtain ⟨-, h⟩ := Option.ite_none_right_eq_some.1 h
    cases h
    exact hx

/-- Every slot is destroyed exactly once and exactly at its deadline, whatever the order of
refreshes and ticks, and a connection that is refreshed in time is not shut down. -/
theorem evictsIdle (n : Nat) (hn : 1 ≤ n) (as : List (Act Slot)) :
    Lts.Always step (EvictsIdle n) (start n) as ∧
      ∀ x, Lts.Along step (RefreshedInTime n x) (start n) as →
        Lts.Always step (fun s => ∀ t, (x, t) ∉ s.shutdowns) (start n) as := by
  constructor
  · have h : Lts.Always step (Inv n) (start n) as :=
      Lts.always_invariant (fun _ _ _ hi h => step_inv hn hi h) (inv_start n)
    exact h.imp fun _ hi => hi.evicts
  · intro x hg
    have h := Lts.always_of_along (I := fun s => Inv n s ∧ ∀ l, s.lastFresh x = some l → s.now < l + n)
      (fun _ _ _ hi hg h => ⟨step_inv hn hi.1 h, ahead_step hn hi.2 hg h⟩)
      ⟨inv_start n, nofun⟩ hg
    refine h.imp fun s ⟨hi, hx⟩ t ht => ?_
    obtain ⟨⟨l, hl, rfl⟩, hnow, -⟩ := (hi.evicts.destroyed x t).1 (hi.evicts.shutdowns.subset ht)
    have := hx l hl
    omega

/-- A refresh is queued at the second tick behind the first refresh and keeps the slot. -/
theorem evictsIdle_queued : ∃ s, Lts.run step (start 2 : State Nat)
      [.register 0, .runTask, .tick, .input 0, .tick, .runTask, .tick, .tick] = some s ∧
    s.shutdowns = [(0, 4)] ∧ EvictsIdle 2 s := by
  obtain ⟨s, hs, hdown⟩ : ∃ s, Lts.run step (start 2 : State Nat)
      [.register 0, .runTask, .tick, .input 0, .tick, .runTask, .tick, .tick] = some s ∧
    s.shutdowns = [(0, 4)] := ⟨_, rfl, by decide⟩
  exact ⟨s, hs, hdown, (evictsIdle 2 (by decide) _).1.last hs⟩

end Flconc.TimeWheel
