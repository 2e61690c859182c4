/-
`FdEventContainer` of net/base/fd_event.cc: the table of the `FdEvent`s by descriptor. A call of
`getFdEvent` looks the descriptor up under the read lock and, when the table is too short, grows the
table under the write lock; the two come one after the other, with steps of other threads between them.
-/
import Flconc.Lib.Run
import Flconc.Lib.Wire
import Mathlib.Logic.Function.Basic

namespace Flconc.FdEventContainer

open Wire Function

/-! ## The model -/

/-- An object, told apart from every other by its number, with its descriptor. -/
structure FdEvent where
  object : Nat
  fd : Int
  deriving DecidableEq

def FdEvent.getFd (e : FdEvent) : Int := e.fd

structure Container where
  fds : List FdEvent := []
  /-- The `FdEvent`s made so far. -/
  made : Nat := 0
  deriving DecidableEq

/-- `m_fds.push_back(std::make_shared<FdEvent>(i))`. -/
def Container.pushBack (c : Container) (i : Int) : Container := ⟨c.fds ++ [⟨c.made, i⟩], c.made + 1⟩

/-- The loop from `i` on, in `k` rounds. -/
def Container.fill (c : Container) (i : Int) : Nat → Container
  | 0 => c
  | k + 1 => (c.pushBack i).fill (i + 1) k

/-- `m_fds[fd]`. -/
def Container.entry (c : Container) (fd : Int) : Option FdEvent :=
  if 0 ≤ fd then c.fds[fd.toNat]? else none

/-- A `double` cut to an `int`; one that is too large gives the smallest `int`. -/
def toInt (x : Int) : Int := if InInt32 x then x else -2 ^ 31

/-- `(int) (fd * 1.5)`. -/
def newSize (fd : Int) : Int := toInt ((3 * fd).tdiv 2)

def Container.grow (c : Container) (fd : Int) : Container :=
  c.fill c.fds.length (newSize fd - c.fds.length).toNat

structure State where
  container : Container
  /-- The descriptor of the call of a thread that is between the two locks. -/
  pending : Nat → Option Int32 := fun _ => none
  /-- What the calls have returned. -/
  returned : List (Int32 × FdEvent) := []
  /-- An access outside `m_fds`. -/
  faulted : Bool := false

inductive Action
  /-- The thread calls `getFdEvent(fd)` and holds the read lock. -/
  | lookup (t : Nat) (fd : Int32)
  /-- The thread holds the write lock. -/
  | grow (t : Nat)

/-- `return re`, with `re` read from the table. -/
def State.answer (s : State) (fd : Int32) : State :=
  match s.container.entry fd.toInt with
  | some re => { s with returned := (fd, re) :: s.returned }
  | none => { s with faulted := true }

def step (s : State) : Action → Option State
  | .lookup t fd =>
    if s.faulted = false ∧ s.pending t = none then
      if fd.toInt < s.container.fds.length then some (s.answer fd)
      else some { s with pending := update s.pending t (some fd) }
    else none
  | .grow t =>
    match s.pending t with
    | some fd =>
      if s.faulted = false then
        let s := { s with container := s.container.grow fd.toInt, pending := update s.pending t none }
        some (s.answer fd)
      else none
    | none => none

/-- `FdEventContainer(int size)`. -/
def start (size : Nat) : State := { container := ({} : Container).fill 0 size }

/-! ## Growing -/

namespace Container

/-- Every entry has its index for descriptor. -/
def Indexed (c : Container) : Prop := ∀ (i : Nat) (e : FdEvent), c.fds[i]? = some e → e.fd = i

theorem Indexed.pushBack {c : Container} (h : c.Indexed) {i : Int} (hi : i = c.fds.length) :
    (c.pushBack i).Indexed := by
  intro j e he
  unfold Container.pushBack at he
  rcases lt_or_ge j c.fds.length with hj | hj
  · rw [List.getElem?_append_left hj] at he
    exact h j e he
  · rw [List.getElem?_append_right hj] at he
    obtain ⟨hlt, rfl⟩ := List.getElem?_eq_some_iff.1 he
    rw [List.length_singleton] at hlt
    rw [List.getElem_singleton]
    show i = j
    omega

/-- The loop appends, each entry with its index for descriptor. -/
theorem fill_spec : ∀ (k : Nat) {c : Container} {i : Int}, c.Indexed → i = c.fds.length →
    (c.fill i k).Indexed ∧ c.fds <+: (c.fill i k).fds ∧ (c.fill i k).fds.length = c.fds.length + k
  | 0, c, _, h, _ => ⟨h, List.prefix_refl _, rfl⟩
  | k + 1, c, i, h, hi => by
    have hl : (c.pushBack i).fds.length = c.fds.length + 1 := List.length_append
    obtain ⟨hindexed, hfront, hlength⟩ := fill_spec k (h.pushBack hi) (i := i + 1) (by rw [hl]; omega)
    refine ⟨hindexed, (List.prefix_append _ _).trans hfront, ?_⟩
    show ((c.pushBack i).fill (i + 1) k).fds.length = _
    omega

theorem grow_spec {c : Container} (h : c.Indexed) (fd : Int) :
    (c.grow fd).Indexed ∧ c.fds <+: (c.grow fd).fds ∧
      ((c.grow fd).fds.length : Int) = max (c.fds.length : Int) (newSize fd) := by
  obtain ⟨hindexed, hfront, hlength⟩ := fill_spec (newSize fd - c.fds.length).toNat h rfl
  refine ⟨hindexed, hfront, ?_⟩
  unfold grow
  omega

theorem newSize_eq {fd : Int} (h0 : 0 ≤ fd) (h : 3 * fd / 2 < 2 ^ 31) : newSize fd = 3 * fd / 2 := by
  unfold newSize toInt
  rw [Int.tdiv_eq_ediv_of_nonneg (by omega), if_pos ⟨by omega, h⟩]

theorem newSize_overflow {fd : Int} (h0 : 0 ≤ fd) (h : 2 ^ 31 ≤ 3 * fd / 2) : newSize fd = -2 ^ 31 := by
  unfold newSize toInt
  rw [Int.tdiv_eq_ediv_of_nonneg (by omega), if_neg]
  rintro ⟨-, hlt⟩
  omega

theorem entry_eq_some {c : Container} {fd : Int} {e : FdEvent} :
    c.entry fd = some e ↔ 0 ≤ fd ∧ c.fds[fd.toNat]? = some e := by
  unfold entry
  split
  · rename_i h
    rw [and_iff_right h]
  · rename_i h
    exact iff_of_false nofun fun h' => h h'.1

theorem entry_isSome {c : Container} {fd : Int} :
    (∃ e, c.entry fd = some e) ↔ 0 ≤ fd ∧ fd < c.fds.length := by
  constructor
  · rintro ⟨e, he⟩
    obtain ⟨h0, hget⟩ := entry_eq_some.1 he
    have := (List.getElem?_eq_some_iff.1 hget).1
    exact ⟨h0, by omega⟩
  · rintro ⟨h0, hlt⟩
    exact ⟨_, entry_eq_some.2 ⟨h0, List.getElem?_eq_getElem (by omega)⟩⟩

end Container

/-! ## One step -/

/-- What holds in every state: the entries a call has returned stand in the table, and a call waits for
the write lock with a descriptor behind the table it saw. -/
structure Inv (s : State) : Prop where
  size : 2 ≤ s.container.fds.length
  indexed : s.container.Indexed
  returned : ∀ r ∈ s.returned, s.container.entry r.1.toInt = some r.2
  pending : ∀ t fd, s.pending t = some fd → 2 ≤ fd.toInt

/-- No access was outside the table, every call has returned an entry of its descriptor, and all calls
with one descriptor the same one. -/
structure Stable (s : State) : Prop where
  bounds : s.faulted = false
  own : ∀ r ∈ s.returned, r.2.getFd = r.1.toInt
  same : ∀ r ∈ s.returned, ∀ r' ∈ s.returned, r.1 = r'.1 → r.2 = r'.2

/-- The descriptor is none of a failed call; and where the table has to grow for it, an `int` holds the
size the table grows to. -/
def Fits (s : State) : Action → Prop
  | .lookup _ fd => 0 ≤ fd.toInt
  | .grow t => ∀ fd ∈ s.pending t, fd.toInt < s.container.fds.length ∨ 3 * fd.toInt / 2 < 2 ^ 31

theorem Inv.own {s : State} (h : Inv s) : ∀ r ∈ s.returned, r.2.getFd = r.1.toInt := by
  intro r hr
  obtain ⟨h0, hget⟩ := Container.entry_eq_some.1 (h.returned r hr)
  have := h.indexed _ _ hget
  unfold FdEvent.getFd
  omega

theorem Inv.same {s : State} (h : Inv s) : ∀ r ∈ s.returned, ∀ r' ∈ s.returned, r.1 = r'.1 → r.2 = r'.2 := by
  intro r hr r' hr' he
  have h1 := h.returned r hr
  rw [he, h.returned r' hr'] at h1
  exact (Option.some.inj h1).symm

/-- Under the invariant only the bounds matter. -/
theorem Inv.stable_iff {s : State} (h : Inv s) : Stable s ↔ s.faulted = false :=
  ⟨Stable.bounds, fun hb => ⟨hb, h.own, h.same⟩⟩

theorem start_inv {size : Nat} (h : 2 ≤ size) : Inv (start size) := by
  have hempty : ({} : Container).Indexed := nofun
  obtain ⟨hindexed, -, hlength⟩ := Container.fill_spec size hempty rfl
  have hl : (({} : Container).fill 0 size).fds.length = size := hlength.trans (Nat.zero_add size)
  exact ⟨hl.symm ▸ h, hindexed, nofun, nofun⟩

theorem Inv.answer {s : State} (h : Inv s) (fd : Int32) : Inv (s.answer fd) := by
  unfold State.answer
  split
  · rename_i re hre
    exact ⟨h.size, h.indexed, List.forall_mem_cons.2 ⟨hre, h.returned⟩, h.pending⟩
  · exact ⟨h.size, h.indexed, h.returned, h.pending⟩

/-- A call faults where its descriptor is no index of the table. -/
theorem answer_faulted {s : State} (hs : s.faulted = false) (fd : Int32) :
    (s.answer fd).faulted = false ↔ 0 ≤ fd.toInt ∧ fd.toInt < s.container.fds.length := by
  rw [← Container.entry_isSome]
  unfold State.answer
  cases hre : s.container.entry fd.toInt with
  | none => exact iff_of_false nofun nofun
  | some re => exact iff_of_true hs ⟨re, rfl⟩

/-- Growing keeps the entries that calls have returned. -/
theorem Inv.grow {s : State} (h : Inv s) (t : Nat) (fd : Int32) :
    Inv { s with container := s.container.grow fd.toInt, pending := update s.pending t none } := by
  obtain ⟨hindexed, hfront, hlength⟩ := Container.grow_spec h.indexed fd.toInt
  have hsize := h.size
  have hle : s.container.fds.length ≤ (s.container.grow fd.toInt).fds.length := hfront.length_le
  refine ⟨hsize.trans hle, hindexed, fun r hr => ?_, fun t' fd' hp => ?_⟩
  · obtain ⟨h0, hget⟩ := Container.entry_eq_some.1 (h.returned r hr)
    refine Container.entry_eq_some.2 ⟨h0, ?_⟩
    have hlt := (List.getElem?_eq_some_iff.1 hget).1
    obtain ⟨rest, hrest⟩ := hfront
    dsimp only
    rw [← hrest, List.getElem?_append_left hlt, hget]
  · by_cases ht : t' = t
    · subst ht
      dsimp only at hp
      rw [update_self] at hp
      cases hp
    · dsimp only at hp
      rw [update_of_ne ht] at hp
      exact h.pending t' fd' hp

theorem Inv.step {s : State} (h : Inv s) {a : Action} {s' : State} (hs : step s a = some s') : Inv s' := by
  cases a with
  | lookup t fd =>
    simp only [FdEventContainer.step] at hs
    split at hs
    · split at hs
      · cases hs
        exact h.answer fd
      · rename_i hlong
        cases hs
        refine ⟨h.size, h.indexed, h.returned, fun t' fd' hp => ?_⟩
        by_cases ht : t' = t
        · subst ht
          dsimp only at hp
          rw [update_self] at hp
          obtain rfl := Option.some.inj hp
          have := h.size
          omega
        · dsimp only at hp
          rw [update_of_ne ht] at hp
          exact h.pending t' fd' hp
    · cases hs
  | grow t =>
    simp only [FdEventContainer.step] at hs
    split at hs
    · rename_i fd hfd
      split at hs
      · cases hs
        exact (h.grow t fd).answer fd
      · cases hs
    · cases hs

/-- The step lemma: a step keeps the table stable just when its descriptor fits. -/
theorem step_stable_iff {s : State} (h : Inv s) (hb : s.faulted = false) {a : Action} {s' : State}
    (hs : step s a = some s') : Stable s' ↔ Fits s a := by
  rw [(h.step hs).stable_iff]
  cases a with
  | lookup t fd =>
    simp only [step] at hs
    split at hs
    · split at hs
      · rename_i hshort
        cases hs
        rw [answer_faulted hb]
        exact and_iff_left hshort
      · rename_i hlong
        cases hs
        have hsize := h.size
        refine iff_of_true hb ?_
        show 0 ≤ fd.toInt
        omega
    · cases hs
  | grow t =>
    simp only [step] at hs
    split at hs
    · rename_i fd hfd
      have h2 := h.pending t fd hfd
      obtain ⟨-, -, hlength⟩ := Container.grow_spec h.indexed fd.toInt
      split at hs
      · cases hs
        have hfits : Fits s (.grow t) ↔ fd.toInt < s.container.fds.length ∨ 3 * fd.toInt / 2 < 2 ^ 31 := by
          simp only [Fits, hfd, Option.mem_def, Option.some.injEq, forall_eq']
        rw [hfits]
        refine (answer_faulted (by exact hb) fd).trans ?_
        dsimp only
        rw [hlength]
        -- a size that an `int` holds is above the descriptor; any other comes out negative
        rcases Int.lt_or_le (3 * fd.toInt / 2) (2 ^ 31) with hint | hover
        · rw [Container.newSize_eq (by omega) hint]
          omega
        · rw [Container.newSize_overflow (by omega) hover]
          omega
      · rename_i hfaulted
        exact absurd hb hfaulted
    · cases hs

/-! ## Every interleaving -/

/-- In any interleaving the container is a stable table exactly as long as no descriptor is negative and
none is so large that the size to grow to is no `int`, unless the table has got long enough meanwhile. -/
theorem stable_iff_fits {size : Nat} (h : 2 ≤ size) (as : List Action) :
    Lts.Always step Stable (start size) as ↔ Lts.Along step Fits (start size) as :=
  Lts.always_iff_along (fun _ _ _ hi hs => hi.step hs)
    (fun _ _ _ hi hp hs => step_stable_iff hi hp.bounds hs) (start_inv h) ((start_inv h).stable_iff.2 rfl)

/-- Two threads ask for a descriptor behind the table. -/
theorem stable_iff_fits_race :
    Lts.Always step Stable (start 2) [.lookup 0 5, .lookup 1 5, .grow 0, .grow 1] ↔
      Lts.Along step Fits (start 2) [.lookup 0 5, .lookup 1 5, .grow 0, .grow 1] :=
  stable_iff_fits (by decide) _

/-- The `-1` of a socket that could not be made is below every size, so it is looked up. -/
theorem failed_socket_unstable :
    ¬ Lts.Always step Stable (start 1000) [.lookup 0 (-1)] := by
  have hinv := start_inv (show 2 ≤ 1000 by decide)
  have hstep : step (start 1000) (.lookup 0 (-1)) = some ((start 1000).answer (-1)) := by
    have hsize := hinv.size
    have hneg : (-1 : Int32).toInt = -1 := by decide
    simp only [step]
    rw [if_pos ⟨rfl, rfl⟩, if_pos (by omega)]
  intro h
  have hbounds := (h.2 _ hstep).bounds
  rw [answer_faulted rfl] at hbounds
  exact absurd hbounds.1 (by decide)

end Flconc.FdEventContainer
