/-
A queue under a lock with one condition variable, as counts: the items in the queue, the consumers that will look
at it before they sleep, those that sleep on the condition, and the signals still to come, one for each item put
and others.
A consumer sleeps only on an empty queue, and so long as one sleeps there is somebody or a signal for every item.
-/
import Flconc.Lib.Run

namespace Monitor

@[ext]
structure Counts where
  items : Nat
  awake : Nat
  asleep : Nat
  signals : Nat

inductive Act
  /-- A consumer comes to the queue. -/
  | come
  | put
  /-- A consumer that is awake takes an item and leaves. -/
  | take
  /-- A consumer that finds nothing leaves. -/
  | leave
  | sleep
  /-- There is to be one more signal. -/
  | ring
  /-- A signal comes, and gets a consumer up if one sleeps. -/
  | signal
  /-- A consumer gets up by itself. -/
  | wake
  deriving DecidableEq

def step (c : Counts) : Act → Option Counts
  | .come => some { c with awake := c.awake + 1 }
  | .put => some { c with items := c.items + 1, signals := c.signals + 1 }
  | .take => if 0 < c.items ∧ 0 < c.awake then some { c with items := c.items - 1, awake := c.awake - 1 } else none
  | .leave => if c.items = 0 ∧ 0 < c.awake then some { c with awake := c.awake - 1 } else none
  | .sleep => if c.items = 0 ∧ 0 < c.awake then some { c with awake := c.awake - 1, asleep := c.asleep + 1 } else none
  | .ring => some { c with signals := c.signals + 1 }
  | .signal =>
    if 0 < c.signals then
      some (if 0 < c.asleep then ⟨c.items, c.awake + 1, c.asleep - 1, c.signals - 1⟩
        else { c with signals := c.signals - 1 })
    else none
  | .wake => if 0 < c.asleep then some { c with awake := c.awake + 1, asleep := c.asleep - 1 } else none

/-- No item is left to nobody while a consumer sleeps. -/
def Served (c : Counts) : Prop := c.asleep = 0 ∨ c.items ≤ c.awake + c.signals

theorem Served.step {c c' : Counts} {a : Act} (hs : Served c) (h : step c a = some c') : Served c' := by
  unfold Served at hs ⊢
  cases a with
  | come | put | ring =>
    cases h
    dsimp only
    omega
  | take | leave | sleep | wake =>
    obtain ⟨hc, h⟩ := Option.ite_none_right_eq_some.1 h
    cases h
    dsimp only
    omega
  | signal =>
    obtain ⟨hc, h⟩ := Option.ite_none_right_eq_some.1 h
    cases h
    split
    · dsimp only
      omega
    · dsimp only
      omega

/-- With everyone asleep and no signal to come, there is nothing to do. -/
theorem Served.empty {c : Counts} (hs : Served c) (hawake : c.awake = 0) (hsignals : c.signals = 0)
    (hasleep : 0 < c.asleep) : c.items = 0 := by
  unfold Served at hs
  omega

/-- A machine that keeps such a queue: what it does changes the counts by a step or not at all. -/
def Moves (c c' : Counts) : Prop := c' = c ∨ ∃ a, step c a = some c'

theorem Moves.served {c c' : Counts} (hm : Moves c c') (hs : Served c) : Served c' := by
  rcases hm with rfl | ⟨a, ha⟩
  · exact hs
  · exact hs.step ha

end Monitor
