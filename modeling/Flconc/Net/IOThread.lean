/-
`IOThreadPool` of net/tcp/io_thread.cc: which thread gets a coroutine. `MainAcceptCorFunc` of net/tcp/tcp_server.cc
asks for a thread per connection, the threads themselves hand coroutines to other ones, and the server to threads
by their number, in any order.

The connections take turns, so the numbers of connections of two threads differ by one at most; and a thread that
hands a coroutine on does not get it itself, if there is another one.
-/
import Flconc.Lib.Run
import Mathlib.Data.Int.CardIntervalMod

namespace Flconc.IOThread

universe u

/-! ## The model -/

/-- The pool, with the coroutines added to the reactor of each thread. The threads of the accepted connections and
the coroutines handed out are history. -/
structure IOThreadPool (Cor : Type u) where
  size : Nat
  index : Int := -1
  ioThreads : List (List Cor)
  accepted : List Nat := []
  handed : List Cor := []

inductive Act (Cor : Type u)
  /-- A connection of `MainAcceptCorFunc`. -/
  | accept (cor : Cor)
  /-- `addCoroutineToRandomThread` in a thread, if it is one of the pool, with what `rand` gives. -/
  | random (cur : Option Nat) (self : Bool) (rand : Nat) (cor : Cor)
  | byIndex (index : Int) (cor : Cor)
  /-- `addCoroutineToEachThread`. -/
  | each (cors : Nat → Cor)

variable {Cor : Type u}

namespace IOThreadPool

def new (Cor : Type u) (size : Nat) : IOThreadPool Cor := { size := size, ioThreads := List.replicate size [] }

/-- `addCoroutine` of the reactor of `m_io_threads[i]`, which has to be there. -/
def addCoroutine (s : IOThreadPool Cor) (i : Nat) (cor : Cor) : Option (IOThreadPool Cor) :=
  if i < s.ioThreads.length then
    some { s with ioThreads := s.ioThreads.modify i (· ++ [cor]), handed := s.handed ++ [cor] }
  else none

/-- The number of the thread, and the next one. -/
def getIOThread (s : IOThreadPool Cor) : Int × Int :=
  let index := if s.index = s.size ∨ s.index = -1 then 0 else s.index
  (index, index + 1)

def accept (s : IOThreadPool Cor) (cor : Cor) : Option (IOThreadPool Cor) :=
  let (i, index) := s.getIOThread
  if i < 0 then none
  else ({ s with index := index, accepted := s.accepted ++ [i.toNat] } : IOThreadPool Cor).addCoroutine i.toNat cor

/-- The thread that `addCoroutineToRandomThread` takes; it has to know its own. -/
def randomThread (size : Nat) (cur : Option Nat) (self : Bool) (rand : Nat) : Option Int :=
  if size = 1 then some 0
  else
    let i := rand % size
    if self then some i
    else cur.map fun cur =>
      if i = cur then
        if i + 1 = size then (i : Int) + 1 - 2 else i + 1
      else i

def addCoroutineToRandomThread (s : IOThreadPool Cor) (cur : Option Nat) (self : Bool) (rand : Nat) (cor : Cor) :
    Option (IOThreadPool Cor) :=
  (randomThread s.size cur self rand).bind fun i => if i < 0 then none else s.addCoroutine i.toNat cor

/-- A wrong number is turned away. -/
def addCoroutineToThreadByIndex (s : IOThreadPool Cor) (index : Int) (cor : Cor) : Option (IOThreadPool Cor) :=
  if index ≥ s.ioThreads.length ∨ index < 0 then some s else s.addCoroutine index.toNat cor

def addCoroutineToEachThread (s : IOThreadPool Cor) (cors : Nat → Cor) : IOThreadPool Cor :=
  { s with
    ioThreads := s.ioThreads.mapIdx fun i added => added ++ [cors i]
    handed := s.handed ++ (List.range s.ioThreads.length).map cors }

end IOThreadPool

def step (s : IOThreadPool Cor) : Act Cor → Option (IOThreadPool Cor)
  | .accept cor => s.accept cor
  | .random cur self rand cor => s.addCoroutineToRandomThread cur self rand cor
  | .byIndex index cor => s.addCoroutineToThreadByIndex index cor
  | .each cors => some (s.addCoroutineToEachThread cors)

/-! ## Another thread -/

/-- A thread of the pool, and not the caller's own unless it may be, or is the only one. -/
theorem randomThread_spec {size : Nat} (h0 : 0 < size) (cur : Nat) (self : Bool) (rand : Nat) :
    ∃ i : Nat, IOThreadPool.randomThread size (some cur) self rand = some (i : Int) ∧ i < size ∧
      (self = false → size ≠ 1 → i ≠ cur) := by
  have hmod := Nat.mod_lt rand h0
  unfold IOThreadPool.randomThread
  split
  · exact ⟨0, rfl, h0, fun _ h => absurd ‹_› h⟩
  · rename_i hsize
    cases self with
    | true => exact ⟨rand % size, rfl, hmod, fun h => by cases h⟩
    | false =>
      simp only [Bool.false_eq_true, ↓reduceIte, Option.map_some, Option.some.injEq]
      split
      · split
        · exact ⟨rand % size - 1, by omega, by omega, fun _ _ => by omega⟩
        · exact ⟨rand % size + 1, by omega, by omega, fun _ _ => by omega⟩
      · exact ⟨rand % size, rfl, hmod, fun _ _ => by omega⟩

/-! ## Whole runs -/

/-- Every coroutine went to one thread; the connections take turns; and the numbers of connections of two threads
differ by one at most. -/
structure Spread (s : IOThreadPool Cor) : Prop where
  once : s.ioThreads.flatten.Perm s.handed
  turns : ∀ j, j < s.accepted.length → s.accepted[j]? = some (j % s.size)
  fair : ∀ i i', i < s.size → i' < s.size → s.accepted.count i ≤ s.accepted.count i' + 1
  /-- The next call finds a thread. -/
  accepts : ∀ cor, step s (.accept cor) ≠ none
  hands : ∀ cur self rand cor, step s (.random (some cur) self rand cor) ≠ none
  /-- Nothing gets to the thread that hands a coroutine on, if there is another one. -/
  elsewhere : ∀ (cur rand : Nat) (cor : Cor) (s' : IOThreadPool Cor), s.size ≠ 1 →
    step s (.random (some cur) false rand cor) = some s' → s'.ioThreads[cur]? = s.ioThreads[cur]?

/-- The index behind so many connections. -/
def indexAt (size n : Nat) : Int := if n = 0 then -1 else ((n - 1) % size : Nat) + 1

structure Inv (s : IOThreadPool Cor) : Prop where
  positive : 0 < s.size
  threads : s.ioThreads.length = s.size
  once : s.ioThreads.flatten.Perm s.handed
  turns : s.accepted = (List.range s.accepted.length).map (· % s.size)
  index : s.index = indexAt s.size s.accepted.length

variable {s s' : IOThreadPool Cor}

theorem succ_mod (n : Nat) {size : Nat} (h0 : 0 < size) :
    (n + 1) % size = if n % size + 1 = size then 0 else n % size + 1 := by
  have hmod := Nat.mod_lt n h0
  rw [Nat.add_mod]
  split
  · rename_i hwrap
    by_cases hone : size = 1
    · rw [hone, Nat.mod_one]
    · rw [Nat.mod_eq_of_lt (show 1 < size by omega), hwrap, Nat.mod_self]
  · rw [Nat.mod_eq_of_lt (show 1 < size by omega), Nat.mod_eq_of_lt (by omega)]

/-- The threads take turns. -/
theorem getIOThread_eq (hi : Inv s) :
    s.getIOThread = (((s.accepted.length % s.size : Nat) : Int), indexAt s.size (s.accepted.length + 1)) := by
  have h0 := hi.positive
  have hnext : (s.getIOThread).1 = ((s.accepted.length % s.size : Nat) : Int) := by
    unfold IOThreadPool.getIOThread
    dsimp only
    rw [hi.index]
    unfold indexAt
    cases hn : s.accepted.length with
    | zero =>
      rw [Nat.zero_mod]
      simp
    | succ n =>
      rw [if_neg (Nat.succ_ne_zero n), Nat.add_sub_cancel, succ_mod n h0]
      split <;> split <;> omega
  have hindex : (s.getIOThread).2 = (s.getIOThread).1 + 1 := rfl
  refine Prod.ext hnext ?_
  rw [hindex, hnext]
  unfold indexAt
  rw [if_neg (Nat.succ_ne_zero _), Nat.add_sub_cancel]

theorem flatten_modify_perm (l : List (List Cor)) {i : Nat} (h : i < l.length) (c : Cor) :
    (l.modify i (· ++ [c])).flatten.Perm (l.flatten ++ [c]) := by
  induction l generalizing i with
  | nil => simp at h
  | cons x l ih =>
    cases i with
    | zero =>
      rw [List.modify_zero_cons, List.flatten_cons, List.flatten_cons, List.append_assoc, List.append_assoc]
      exact List.perm_append_comm.append_left x
    | succ i =>
      rw [List.modify_succ_cons, List.flatten_cons, List.flatten_cons, List.append_assoc]
      exact (ih (by simpa using h)).append_left x

theorem flatten_mapIdx_perm (l : List (List Cor)) (cors : Nat → Cor) :
    (l.mapIdx fun i added => added ++ [cors i]).flatten.Perm (l.flatten ++ (List.range l.length).map cors) := by
  induction l using List.reverseRecOn with
  | nil => exact .nil
  | append_singleton l x ih =>
    rw [List.mapIdx_concat, List.length_append, List.length_singleton, List.range_succ, List.map_append,
      List.flatten_append, List.flatten_append, List.flatten_singleton, List.flatten_singleton]
    refine (ih.append_right _).trans ?_
    rw [List.append_assoc, List.append_assoc]
    refine List.Perm.append_left _ ?_
    rw [← List.append_assoc, ← List.append_assoc]
    exact List.perm_append_comm.append_right _

/-- One more coroutine for one thread. -/
theorem Inv.addCoroutine {i : Nat} {cor : Cor} (hi : Inv s) (h : s.addCoroutine i cor = some s') : Inv s' := by
  unfold IOThreadPool.addCoroutine at h
  obtain ⟨hlt, h⟩ := Option.ite_none_right_eq_some.1 h
  cases h
  refine ⟨hi.positive, by simpa using hi.threads, ?_, hi.turns, hi.index⟩
  exact (flatten_modify_perm _ hlt cor).trans (hi.once.append_right [cor])

/-- One more connection takes its turn. -/
theorem Inv.next (hi : Inv s) : Inv { s with
    index := indexAt s.size (s.accepted.length + 1), accepted := s.accepted ++ [s.accepted.length % s.size] } where
  positive := hi.positive
  threads := hi.threads
  once := hi.once
  turns := by
    dsimp only
    rw [List.length_append, List.length_singleton, List.range_succ, List.map_append, ← hi.turns]
    rfl
  index := by simp

theorem accept_eq (hi : Inv s) (cor : Cor) : s.accept cor = ({ s with
    index := indexAt s.size (s.accepted.length + 1)
    accepted := s.accepted ++ [s.accepted.length % s.size] } : IOThreadPool Cor).addCoroutine
      (s.accepted.length % s.size) cor := by
  unfold IOThreadPool.accept
  rw [getIOThread_eq hi]
  dsimp only
  rw [if_neg (by omega), Int.toNat_natCast]

theorem Inv.step {a : Act Cor} (hi : Inv s) (h : step s a = some s') : Inv s' := by
  cases a with
  | accept cor =>
    change s.accept cor = some s' at h
    rw [accept_eq hi] at h
    exact hi.next.addCoroutine h
  | random cur self rand cor =>
    change s.addCoroutineToRandomThread cur self rand cor = some s' at h
    obtain ⟨i, -, h⟩ := Option.bind_eq_some_iff.1 h
    exact hi.addCoroutine (Option.ite_none_left_eq_some.1 h).2
  | byIndex index cor =>
    change s.addCoroutineToThreadByIndex index cor = some s' at h
    unfold IOThreadPool.addCoroutineToThreadByIndex at h
    split at h
    · cases h
      exact hi
    · exact hi.addCoroutine h
  | each cors =>
    cases h
    refine ⟨hi.positive, by simpa [IOThreadPool.addCoroutineToEachThread] using hi.threads, ?_, hi.turns, hi.index⟩
    exact (flatten_mapIdx_perm _ cors).trans (hi.once.append_right _)

theorem addCoroutine_ne_none (hi : s.ioThreads.length = s.size) {i : Nat} (h : i < s.size) (cor : Cor) :
    s.addCoroutine i cor ≠ none := by
  unfold IOThreadPool.addCoroutine
  rw [hi, if_pos h]
  simp

/-- How many connections a thread has. -/
theorem count_accepted (hi : Inv s) {i : Nat} (h : i < s.size) :
    s.accepted.count i = s.accepted.length / s.size + if i < s.accepted.length % s.size then 1 else 0 := by
  have hcount := Nat.count_modEq_card s.accepted.length hi.positive i
  rw [Nat.mod_eq_of_lt h] at hcount
  rw [← hcount, Nat.count]
  conv_lhs => rw [hi.turns, List.count, List.countP_map]
  refine List.countP_congr fun j _ => ?_
  simp [Nat.ModEq, Nat.mod_eq_of_lt h]

theorem Inv.spread (hi : Inv s) : Spread s where
  once := hi.once
  turns j hj := by
    rw [hi.turns, List.getElem?_map, List.getElem?_range (by simpa using hj)]
    rfl
  fair i i' h h' := by
    rw [count_accepted hi h, count_accepted hi h']
    split <;> split <;> omega
  accepts cor := by
    show s.accept cor ≠ none
    rw [accept_eq hi]
    exact addCoroutine_ne_none hi.next.threads (Nat.mod_lt _ hi.positive) cor
  hands cur self rand cor := by
    obtain ⟨i, hthread, hlt, -⟩ := randomThread_spec hi.positive cur self rand
    show s.addCoroutineToRandomThread (some cur) self rand cor ≠ none
    unfold IOThreadPool.addCoroutineToRandomThread
    rw [hthread, Option.bind_some, if_neg (by omega), Int.toNat_natCast]
    exact addCoroutine_ne_none hi.threads hlt cor
  elsewhere cur rand cor s' hsize h := by
    obtain ⟨i, hthread, -, hne⟩ := randomThread_spec hi.positive cur false rand
    change s.addCoroutineToRandomThread (some cur) false rand cor = some s' at h
    unfold IOThreadPool.addCoroutineToRandomThread at h
    rw [hthread, Option.bind_some, if_neg (by omega), Int.toNat_natCast] at h
    obtain ⟨-, h⟩ := Option.ite_none_right_eq_some.1 h
    cases h
    exact List.getElem?_modify_ne _ _ (hne rfl hsize)

theorem Inv.new {size : Nat} (h0 : 0 < size) : Inv (IOThreadPool.new Cor size) where
  positive := h0
  threads := List.length_replicate
  once := by simp [IOThreadPool.new]
  turns := rfl
  index := rfl

/-- However connections and coroutines come. -/
theorem spread_always {size : Nat} (h0 : 0 < size) (acts : List (Act Cor)) :
    Lts.Always step Spread (.new Cor size) acts :=
  (Lts.always_invariant (fun _ _ _ hi h => Inv.step hi h) (Inv.new h0)).imp fun _ hi => hi.spread

/-- Three connections on two threads, and a coroutine that goes from one to the other. -/
theorem spread_two : Lts.Always step Spread (.new Nat 2)
    [.accept 1, .accept 2, .random (some 0) false 4 3, .accept 4, .byIndex 7 5, .each id] :=
  spread_always (by decide) _

end Flconc.IOThread
