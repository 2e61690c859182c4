/-
The idle timeout of a server: `TcpTimeWheel` of net/tcp/tcp_connection_time_wheel.cc on the timer of the main reactor,
net/base/timer.cc, beside the other callers of that timer and the refreshes that the connections queue.

A connection is shut down at the tick that is as many behind its last refresh as the wheel has buckets, so nearly
one interval may be missing of that many. It is not shut down before, and while the reactor is never too late, not
much behind it either.
-/
import Flconc.Lib.Wire
import Flconc.Net.Periodic
import Flconc.Net.TimeWheel
import Mathlib.Algebra.Order.Ring.Int

namespace Flconc.IdleTimeout

open Function TimeWheel Periodic Wire

/-! ## The model -/

/-- The wheel. The times of the last refreshes are history. -/
structure Wheeled (Slot : Type) where
  wheel : TimeWheel.State Slot
  freshAt : Slot → Option Int := fun _ => none

variable {ε Slot : Type} [DecidableEq ε] [DecidableEq Slot]

namespace Wheeled

/-- What happens to the wheel besides its ticks. -/
def act (w : Wheeled Slot) (now : Int) : TimeWheel.Act Slot → Option (Wheeled Slot)
  | .tick => none
  | .runTask =>
    match w.wheel.tasks with
    | [] => none
    | slot :: _ => (TimeWheel.step w.wheel .runTask).map fun wheel => ⟨wheel, update w.freshAt slot (some now)⟩
  | a => (TimeWheel.step w.wheel a).map fun wheel => { w with wheel := wheel }

def tick (w : Wheeled Slot) : Wheeled Slot := { w with wheel := loopFunc w.wheel }

end Wheeled

def job : Job (Wheeled Slot) (TimeWheel.Act Slot) := ⟨fun w _ => w.tick, Wheeled.act⟩

/-- `TcpTimeWheel(reactor, bucket_count, inteval)`, in seconds: the product is one of ints. -/
def start {event : ε} (bucketCount : Nat) (inteval : Int) (t : Before event) : Periodic.State ε (Wheeled Slot) :=
  Periodic.start (wrap32 (inteval * 1000)) t { wheel := TimeWheel.start bucketCount }

variable {event : ε} {s s' : Periodic.State ε (Wheeled Slot)} {n : Nat} {interval : Int}

/-! ## Refreshes and ticks -/

/-- A time behind the tick with this number, and before the next one. -/
structure Between (beats : List Int) (clock : Int) (l : Nat) (f : Int) : Prop where
  now : f ≤ clock
  after : ∃ a, beats[l]? = some a ∧ a ≤ f
  before : ∀ b, beats[l + 1]? = some b → f ≤ b

variable {beats : List Int} {clock clock' : Int} {l : Nat} {f : Int}

theorem Between.later (h : Between beats clock l f) (hclock : clock ≤ clock') : Between beats clock' l f :=
  ⟨h.now.trans hclock, h.after, h.before⟩

theorem Between.beat (h : Between beats clock l f) {now : Int} (hclock : clock ≤ now) :
    Between (beats ++ [now]) now l f := by
  obtain ⟨a, ha, haf⟩ := h.after
  refine ⟨h.now.trans hclock, ⟨a, ?_, haf⟩, fun b hb => ?_⟩
  · rw [List.getElem?_append_left (List.getElem?_eq_some_iff.1 ha).1]
    exact ha
  · by_cases hl : l + 1 < beats.length
    · rw [List.getElem?_append_left hl] at hb
      exact h.before b hb
    · rw [List.getElem?_append_right (not_lt.1 hl), List.getElem?_singleton] at hb
      split at hb
      · cases hb
        exact h.now.trans hclock
      · cases hb

theorem rel_imp {α β : Type} {R R' : α → β → Prop} (hR : ∀ a b, R a b → R' a b) {x : Option α} {y : Option β}
    (h : Option.Rel R x y) : Option.Rel R' x y := by
  cases h with
  | none => exact .none
  | some h => exact .some (hR _ _ h)

/-- The wheel has turned once for every beat but the first one, and every refresh is where it says. -/
structure Times (beats : List Int) (clock : Int) (w : Wheeled Slot) : Prop where
  ticks : beats.length = w.wheel.now + 1
  fresh : ∀ x, Option.Rel (Between beats clock) (w.wheel.lastFresh x) (w.freshAt x)

omit [DecidableEq Slot] in
theorem Times.later {w : Wheeled Slot} (h : Times beats clock w) (hclock : clock ≤ clock') : Times beats clock' w :=
  ⟨h.ticks, fun x => rel_imp (fun _ _ hb => hb.later hclock) (h.fresh x)⟩

theorem Times.act {w w' : Wheeled Slot} {now : Int} (h : Times beats clock w) (hclock : clock ≤ now)
    (hlast : ∃ c, beats.getLast? = some c ∧ c ≤ clock) {a : TimeWheel.Act Slot} (hact : w.act now a = some w') :
    Times beats now w' := by
  have hlater := h.later hclock
  cases a with
  | tick => cases hact
  | runTask =>
    unfold Wheeled.act at hact
    dsimp only at hact
    split at hact
    · cases hact
    · rename_i slot tasks htasks
      unfold TimeWheel.step at hact
      dsimp only at hact
      rw [htasks] at hact
      cases hact
      refine ⟨h.ticks, fun x => ?_⟩
      show Option.Rel _ (update w.wheel.lastFresh slot (some w.wheel.now) x) (update w.freshAt slot (some now) x)
      by_cases hx : x = slot
      · subst hx
        rw [update_self, update_self]
        obtain ⟨c, hc, hle⟩ := hlast
        have hnow : beats[w.wheel.now]? = some c := by
          rw [List.getLast?_eq_getElem?, h.ticks] at hc
          exact hc
        refine .some ⟨le_rfl, ⟨c, hnow, hle.trans hclock⟩, fun b hb => ?_⟩
        rw [List.getElem?_eq_none (by rw [h.ticks])] at hb
        cases hb
      · rw [update_of_ne hx, update_of_ne hx]
        exact hlater.fresh x
  | register slot =>
    obtain ⟨wheel, hstep, rfl⟩ := Option.map_eq_some_iff.1 hact
    obtain ⟨-, hstep⟩ := Option.ite_none_left_eq_some.1 hstep
    cases hstep
    exact ⟨h.ticks, hlater.fresh⟩
  | input slot =>
    obtain ⟨wheel, hstep, rfl⟩ := Option.map_eq_some_iff.1 hact
    obtain ⟨-, hstep⟩ := Option.ite_none_right_eq_some.1 hstep
    cases hstep
    split <;> exact ⟨h.ticks, hlater.fresh⟩
  | destroy slot =>
    obtain ⟨wheel, hstep, rfl⟩ := Option.map_eq_some_iff.1 hact
    obtain ⟨-, hstep⟩ := Option.ite_none_right_eq_some.1 hstep
    cases hstep
    exact ⟨h.ticks, hlater.fresh⟩

/-- A step of the wheel besides its ticks is one of its steps. -/
theorem act_inv (hn : 1 ≤ n) {w w' : Wheeled Slot} {now : Int} {a : TimeWheel.Act Slot} (hi : TimeWheel.Inv n w.wheel)
    (hact : w.act now a = some w') : TimeWheel.Inv n w'.wheel := by
  cases a with
  | tick => cases hact
  | runTask =>
    unfold Wheeled.act at hact
    dsimp only at hact
    split at hact
    · cases hact
    · obtain ⟨wheel, hstep, rfl⟩ := Option.map_eq_some_iff.1 hact
      exact step_inv hn hi hstep
  | register slot | input slot | destroy slot =>
    obtain ⟨wheel, hstep, rfl⟩ := Option.map_eq_some_iff.1 hact
    exact step_inv hn hi hstep

/-! ## In every run -/

structure Inv (event : ε) (n : Nat) (interval : Int) (s : Periodic.State ε (Wheeled Slot)) : Prop where
  beats : Periodic.Inv event interval s
  wheel : TimeWheel.Inv n s.world.wheel
  times : Times s.beats s.timer.clock s.world

theorem Inv.step (hn : 1 ≤ n) {na : Int × Periodic.Act ε (TimeWheel.Act Slot)} (hi : Inv event n interval s)
    (h : Periodic.step event job s na = some s') : Inv event n interval s' := by
  have hbeats := hi.beats.step h
  obtain ⟨c, hc, hclock, -⟩ := hi.beats.last
  cases step_cases hi.beats.wf h with
  | other now a e hnow | wait now hnow => exact ⟨hbeats, hi.wheel, hi.times.later hnow⟩
  | beat now hnow =>
    refine ⟨hbeats, hi.wheel.tick hn, ⟨?_, fun x => rel_imp (fun _ _ hb => hb.beat hnow) (hi.times.fresh x)⟩⟩
    rw [List.length_append, hi.times.ticks]
    rfl
  | act now a world hnow hact => exact ⟨hbeats, act_inv hn hi.wheel hact, hi.times.act hnow ⟨c, hc, hclock⟩ hact⟩

omit [DecidableEq Slot] in
theorem Inv.start (n : Nat) (inteval : Int) (t : Before event) :
    Inv event n (wrap32 (inteval * 1000)) (start n inteval t : Periodic.State ε (Wheeled Slot)) :=
  ⟨Periodic.Inv.start _ t _, inv_start n, rfl, fun _ => .none⟩

/-- Whoever has been shut down had not been refreshed for that many intervals but one. -/
def NotBefore (n : Nat) (interval : Int) (s : Periodic.State ε (Wheeled Slot)) : Prop :=
  ∀ x t, (x, t) ∈ s.world.wheel.shutdowns →
    ∃ f c, s.world.freshAt x = some f ∧ s.beats[t]? = some c ∧ f + (n - 1 : Nat) * interval ≤ c

omit [DecidableEq ε] [DecidableEq Slot] in
theorem Inv.notBefore (hn : 1 ≤ n) (hi : Inv event n interval s) : NotBefore n interval s := by
  intro x t hx
  obtain ⟨⟨l, hl, rfl⟩, hnow, -⟩ := (hi.wheel.evicts.destroyed x t).1 (hi.wheel.evicts.shutdowns.subset hx)
  have hfresh := hi.times.fresh x
  rw [hl] at hfresh
  have hlen := hi.times.ticks
  cases hf : s.world.freshAt x with
  | none =>
    rw [hf] at hfresh
    cases hfresh
  | some f =>
    rw [hf] at hfresh
    cases hfresh with
    | some hb =>
      -- the first tick behind the refresh, and the last one
      obtain ⟨a, hfirst⟩ : ∃ a, s.beats[l + 1]? = some a := ⟨_, List.getElem?_eq_getElem (by omega)⟩
      obtain ⟨c, hlast⟩ : ∃ c, s.beats[l + 1 + (n - 1)]? = some c := ⟨_, List.getElem?_eq_getElem (by omega)⟩
      have hgap := hi.beats.pace.nsmul_le hfirst hlast
      have hbefore := hb.before _ hfirst
      rw [Int.nsmul_eq_mul] at hgap
      refine ⟨f, c, rfl, ?_, (add_le_add_left hbefore _).trans hgap⟩
      rw [← hlast]
      congr 1
      omega

/-- In every run. -/
theorem notBefore_always (event : ε) (n : Nat) (hn : 1 ≤ n) (inteval : Int) (t : Before event)
    (acts : List (Int × Periodic.Act ε (TimeWheel.Act Slot))) :
    Lts.Always (Periodic.step event job) (NotBefore n (wrap32 (inteval * 1000))) (start n inteval t) acts :=
  (Lts.always_invariant (fun _ _ _ hi h => Inv.step hn hi h) (Inv.start n inteval t)).imp
    fun _ hi => hi.notBefore hn

/-- The timer of a main reactor in which another event is pending. -/
def beside : Before (0 : Nat) :=
  ⟨⟨⟨fun _ => ⟨400, 400, false, false⟩, Multimap.empty.emplace 400 1, some 400⟩, 0⟩, ⟨by decide, by decide⟩, by decide⟩

/-- Two buckets, and a connection that is shut down between one and two intervals behind its refresh. -/
theorem notBefore_small : ∃ s, Lts.run (Periodic.step 0 job)
      (start 2 1 beside : Periodic.State Nat (Wheeled Nat))
      [(950, .act (.register 7)), (990, .act .runTask), (1000, .onTimer), (2003, .onTimer)] = some s ∧
    s.world.wheel.shutdowns = [(7, 2)] ∧ NotBefore 2 1000 s := by
  obtain ⟨s, hs, hdown⟩ : ∃ s, Lts.run (Periodic.step 0 job)
      (start 2 1 beside : Periodic.State Nat (Wheeled Nat))
      [(950, .act (.register 7)), (990, .act .runTask), (1000, .onTimer), (2003, .onTimer)] = some s ∧
    s.world.wheel.shutdowns = [(7, 2)] := ⟨_, rfl, by decide⟩
  exact ⟨s, hs, hdown, (notBefore_always 0 2 (by decide) 1 _ _).last hs⟩

/-! ## And not much later -/

/-- Whoever is still there, has not been refreshed for that many intervals with their delays and is not about to
be, has been shut down. -/
def NotMuchLater (n : Nat) (interval late : Int) (s : Periodic.State ε (Wheeled Slot)) : Prop :=
  ∀ x f, s.world.freshAt x = some f → x ∉ s.world.wheel.tasks → x ∉ s.world.wheel.gone →
    f + n * (interval + late) < s.timer.clock → ∃ t, (x, t) ∈ s.world.wheel.shutdowns

omit [DecidableEq ε] [DecidableEq Slot] in
theorem Inv.notMuchLater {late : Int} (hi : Inv event n interval s) (hp : Prompt event late interval s)
    (h0 : 0 ≤ interval + late) : NotMuchLater n interval late s := by
  intro x f hf htasks hgone hidle
  have hfresh := hi.times.fresh x
  rw [hf] at hfresh
  have hlen := hi.times.ticks
  cases hl : s.world.wheel.lastFresh x with
  | none =>
    rw [hl] at hfresh
    cases hfresh
  | some l =>
    rw [hl] at hfresh
    cases hfresh with
    | some hb =>
      refine ⟨l + n, (hi.wheel.evicts.connected x _ hgone).2 ((hi.wheel.evicts.destroyed x _).2 ?_)⟩
      refine ⟨⟨l, hl, rfl⟩, ?_, htasks⟩
      by_contra hlt
      -- there have been too few ticks since the refresh for so much time
      obtain ⟨a, ha, haf⟩ := hb.after
      obtain ⟨hle, -⟩ := hi.wheel.last x l hl
      obtain ⟨c, hc, -⟩ := hi.beats.last
      have hclock := hp.next c hc
      have hnow : s.beats[l + (s.world.wheel.now - l)]? = some c := by
        rw [List.getLast?_eq_getElem?, hlen] at hc
        rw [← hc]
        congr 1
        omega
      have hgap := hp.most.le_nsmul ha hnow
      rw [Int.nsmul_eq_mul] at hgap
      have hticks : ((s.world.wheel.now - l : Nat) : Int) * (interval + late) + (interval + late) ≤
          n * (interval + late) := by
        rw [← add_one_mul]
        exact mul_le_mul_of_nonneg_right (by omega) h0
      omega

/-- While the main reactor is in no step later than that. -/
theorem notMuchLater_of_onTime (event : ε) (n : Nat) (hn : 1 ≤ n) (inteval : Int) (late : Int)
    (h0 : 0 ≤ wrap32 (inteval * 1000) + late) (t : Before event)
    {acts : List (Int × Periodic.Act ε (TimeWheel.Act Slot))}
    (hk : Lts.Along (Periodic.step event job) (OnTime event late) (start n inteval t) acts) :
    Lts.Always (Periodic.step event job) (NotMuchLater n (wrap32 (inteval * 1000)) late) (start n inteval t) acts := by
  have h : Lts.Always (Periodic.step event job)
      (fun s => Inv event n (wrap32 (inteval * 1000)) s ∧ Prompt event late (wrap32 (inteval * 1000)) s)
      (start n inteval t) acts :=
    Lts.always_of_along (fun _ _ _ hi ht h => ⟨hi.1.step hn h, hi.2.step ht h⟩)
      ⟨Inv.start n inteval t, Prompt.start h0 t _⟩ hk
  exact h.imp fun _ hi => hi.1.notMuchLater hi.2 h0

/-- The same connection beside one more event of the timer, with the reactor at most 50 ms late. -/
theorem notMuchLater_small : ∃ s, Lts.run (Periodic.step 0 job)
      (start 2 1 beside : Periodic.State Nat (Wheeled Nat))
      [(10, .act (.register 7)), (20, .act .runTask), (30, .other (.create 2 400 false)),
        (30, .other (.addTimerEvent 2)), (1040, .onTimer), (2090, .onTimer), (2130, .onTimer)] = some s ∧
    s.world.freshAt 7 = some 20 ∧ s.world.wheel.shutdowns = [(7, 2)] ∧ NotMuchLater 2 1000 50 s := by
  obtain ⟨s, hs, hfresh, hdown⟩ : ∃ s, Lts.run (Periodic.step 0 job)
      (start 2 1 beside : Periodic.State Nat (Wheeled Nat))
      [(10, .act (.register 7)), (20, .act .runTask), (30, .other (.create 2 400 false)),
        (30, .other (.addTimerEvent 2)), (1040, .onTimer), (2090, .onTimer), (2130, .onTimer)] = some s ∧
    s.world.freshAt 7 = some 20 ∧ s.world.wheel.shutdowns = [(7, 2)] := ⟨_, rfl, rfl, by decide⟩
  exact ⟨s, hs, hfresh, hdown,
    (notMuchLater_of_onTime 0 2 (by decide) 1 50 (by decide) _ (by decide)).last hs⟩

end Flconc.IdleTimeout
