/-
`Reactor::addEvent` and `delEvent` of net/base/reactor.cc, called on the loop thread or on another
one, and the end of an iteration of `Reactor::loop`, which applies what other threads have asked for:
first the adds of `m_pending_add_fds`, a map that keeps the first event of a descriptor, then the
deletes of `m_pending_del_fds`.
-/
import Mathlib.Data.List.Induction
import Mathlib.Data.List.Nodup
import Mathlib.Logic.Function.Basic

namespace Flconc.Registration

open Function

variable {Ptr : Type}

/-! ## The pending map -/

/-- `epoll_event`: the mask and what its `data` refers to. -/
structure EpollEvent (Ptr : Type) where
  events : BitVec 32
  data : Ptr

/-- A new entry of `std::map<int, epoll_event>`, in key order. -/
def place (fd : Int) (event : EpollEvent Ptr) : List (Int × EpollEvent Ptr) → List (Int × EpollEvent Ptr)
  | [] => [(fd, event)]
  | (k, e) :: rest => if fd < k then (fd, event) :: (k, e) :: rest else (k, e) :: place fd event rest

/-- `insert`, which leaves an entry that is there. -/
def insert (m : List (Int × EpollEvent Ptr)) (fd : Int) (event : EpollEvent Ptr) : List (Int × EpollEvent Ptr) :=
  if fd ∈ m.map Prod.fst then m else place fd event m

theorem lookup_cons (g k : Int) (e : EpollEvent Ptr) (rest : List (Int × EpollEvent Ptr)) :
    ((k, e) :: rest).lookup g = if g = k then some e else rest.lookup g := by
  rw [List.lookup_cons]
  by_cases hg : g = k
  · simp [hg]
  · rw [beq_eq_false_iff_ne.2 hg, if_neg hg]

theorem lookup_eq_none {g : Int} {m : List (Int × EpollEvent Ptr)} (h : g ∉ m.map Prod.fst) :
    m.lookup g = none := by
  rw [List.lookup_eq_none_iff]
  intro p hp
  rw [bne_iff_ne]
  rintro rfl
  exact h (List.mem_map_of_mem hp)

theorem mem_place {fd : Int} {event : EpollEvent Ptr} {p : Int × EpollEvent Ptr} :
    ∀ {m : List (Int × EpollEvent Ptr)}, p ∈ place fd event m ↔ p = (fd, event) ∨ p ∈ m
  | [] => by simp [place]
  | (k, e) :: rest => by
    unfold place
    split
    · exact List.mem_cons
    · rw [List.mem_cons, mem_place, List.mem_cons]
      tauto

theorem place_nodup {fd : Int} {event : EpollEvent Ptr} : ∀ {m : List (Int × EpollEvent Ptr)},
    (m.map Prod.fst).Nodup → fd ∉ m.map Prod.fst → ((place fd event m).map Prod.fst).Nodup
  | [], _, _ => List.nodup_singleton fd
  | (k, e) :: rest, hm, hfd => by
    unfold place
    split
    · exact List.nodup_cons.2 ⟨hfd, hm⟩
    · obtain ⟨hk, hrest⟩ := List.nodup_cons.1 hm
      obtain ⟨hne, hfd⟩ := not_or.1 (List.mem_cons.not.1 hfd)
      refine List.nodup_cons.2 ⟨fun h => ?_, place_nodup hrest hfd⟩
      obtain ⟨p, hp, hpk⟩ := List.mem_map.1 h
      rcases mem_place.1 hp with rfl | hp
      · exact hne hpk
      · exact hk (List.mem_map.2 ⟨p, hp, hpk⟩)

theorem insert_nodup {m : List (Int × EpollEvent Ptr)} (h : (m.map Prod.fst).Nodup) (fd : Int)
    (event : EpollEvent Ptr) : ((insert m fd event).map Prod.fst).Nodup := by
  unfold insert
  split
  · exact h
  · exact place_nodup h ‹_›

/-! ## The reactor's descriptors -/

/-- What a reactor has registered, `m_fds` beside the kernel's list behind `m_epfd`, and what other
threads have asked for since the last time it looked. The kernel's list loses a descriptor that is closed. -/
structure Fds (Ptr : Type) where
  fds : List Int
  epoll : Int → Option (EpollEvent Ptr)
  pendingAddFds : List (Int × EpollEvent Ptr)
  pendingDelFds : List Int
  nodup : fds.Nodup
  agree : ∀ fd, (epoll fd).isSome → fd ∈ fds
  keys : (pendingAddFds.map Prod.fst).Nodup

/-- `ok` says that `epoll_ctl` succeeds. -/
def addEventInLoopThread (s : Fds Ptr) (fd : Int) (event : EpollEvent Ptr) (ok : Bool := true) : Fds Ptr :=
  if ok then
    { s with
      fds := if fd ∈ s.fds then s.fds else s.fds ++ [fd]
      epoll := update s.epoll fd (some event)
      nodup := by
        split
        · exact s.nodup
        · exact List.nodup_append.2 ⟨s.nodup, List.nodup_singleton fd, by
            rintro a ha b hb rfl
            exact ‹fd ∉ s.fds› (List.mem_singleton.1 hb ▸ ha)⟩
      agree := fun g hg => by
        by_cases hgfd : g = fd
        · subst hgfd
          split <;> simp_all
        · rw [update_of_ne hgfd] at hg
          have hmem := s.agree g hg
          split <;> simp [hmem] }
  else s

def delEventInLoopThread (s : Fds Ptr) (fd : Int) : Fds Ptr :=
  if fd ∈ s.fds then
    { s with
      fds := s.fds.erase fd
      epoll := update s.epoll fd none
      nodup := s.nodup.erase fd
      agree := fun g hg => by
        by_cases hgfd : g = fd
        · rw [hgfd, update_self] at hg
          cases hg
        · rw [update_of_ne hgfd] at hg
          exact s.nodup.mem_erase_iff.2 ⟨hgfd, s.agree g hg⟩ }
  else s

/-- `Reactor::addEvent`, on the loop thread or on another one. -/
def addEvent (s : Fds Ptr) (isLoopThread : Bool) (fd : Int) (event : EpollEvent Ptr) (ok : Bool := true) : Fds Ptr :=
  if fd = -1 then s
  else if isLoopThread then addEventInLoopThread s fd event ok
  else { s with
    pendingAddFds := insert s.pendingAddFds fd event
    keys := insert_nodup s.keys fd event }

/-- `Reactor::delEvent`. -/
def delEvent (s : Fds Ptr) (isLoopThread : Bool) (fd : Int) : Fds Ptr :=
  if fd = -1 then s
  else if isLoopThread then delEventInLoopThread s fd
  else { s with pendingDelFds := s.pendingDelFds ++ [fd] }

/-- The end of an iteration of `loop`: the pending lists are swapped out and applied. -/
def drain (s : Fds Ptr) (ok : Int → Bool := fun _ => true) : Fds Ptr :=
  -- in the order of the keys, and all adds before any delete
  let swapped := { s with pendingAddFds := [], pendingDelFds := [], keys := List.nodup_nil }
  let added := s.pendingAddFds.foldl (fun s p => addEventInLoopThread s p.1 p.2 (ok p.1)) swapped
  s.pendingDelFds.foldl delEventInLoopThread added

/-- The descriptor is closed. `m_fds` does not hear of it. -/
def close (s : Fds Ptr) (fd : Int) : Fds Ptr :=
  { s with
    epoll := update s.epoll fd none
    agree := fun g hg => by
      by_cases hgfd : g = fd
      · rw [hgfd, update_self] at hg
        cases hg
      · rw [update_of_ne hgfd] at hg
        exact s.agree g hg }

/-- What a reactor has of one descriptor: whether it is in `m_fds`, and if so what the kernel has. -/
def Fds.slot (s : Fds Ptr) (fd : Int) : Option (Option (EpollEvent Ptr)) :=
  if fd ∈ s.fds then some (s.epoll fd) else none

theorem slot_isSome (s : Fds Ptr) (fd : Int) : (s.slot fd).isSome ↔ fd ∈ s.fds := by
  unfold Fds.slot
  split <;> simp_all

theorem slot_join (s : Fds Ptr) (fd : Int) : (s.slot fd).join = s.epoll fd := by
  unfold Fds.slot
  split
  · rfl
  · have h := mt (s.agree fd) ‹_›
    exact (Option.not_isSome_iff_eq_none.1 h).symm

/-! ## What an operation does to one descriptor -/

@[simp] theorem addEventInLoopThread_slot (s : Fds Ptr) (fd : Int) (event : EpollEvent Ptr) (ok : Bool) (g : Int) :
    (addEventInLoopThread s fd event ok).slot g = if g = fd ∧ ok then some (some event) else s.slot g := by
  cases ok with
  | false => simp [addEventInLoopThread]
  | true =>
    unfold Fds.slot addEventInLoopThread
    by_cases hg : g = fd
    · subst hg
      by_cases hmem : g ∈ s.fds <;> simp [hmem]
    · by_cases hmem : fd ∈ s.fds <;> simp [hmem, hg]

@[simp] theorem delEventInLoopThread_slot (s : Fds Ptr) (fd g : Int) :
    (delEventInLoopThread s fd).slot g = if g = fd then none else s.slot g := by
  unfold Fds.slot delEventInLoopThread
  by_cases hmem : fd ∈ s.fds
  · simp only [hmem, if_true, s.nodup.mem_erase_iff]
    by_cases hg : g = fd <;> simp [hg]
  · rw [if_neg hmem]
    by_cases hg : g = fd
    · simp [hg, hmem]
    · simp [hg]

/-- Events added one after the other, for different descriptors. -/
theorem foldl_add_slot (ok : Int → Bool) (g : Int) : ∀ (l : List (Int × EpollEvent Ptr)) (s : Fds Ptr),
    (l.map Prod.fst).Nodup →
    (l.foldl (fun s p => addEventInLoopThread s p.1 p.2 (ok p.1)) s).slot g =
      ((if ok g then l.lookup g else none).map some).or (s.slot g)
  | [], s, _ => by simp
  | (k, e) :: rest, s, h => by
    obtain ⟨hk, hrest⟩ := List.nodup_cons.1 h
    rw [List.foldl_cons, foldl_add_slot ok g rest _ hrest, addEventInLoopThread_slot, lookup_cons]
    by_cases hg : g = k
    · subst hg
      cases ok g <;> simp [lookup_eq_none hk]
    · simp [hg]

theorem foldl_del_slot (g : Int) : ∀ (l : List Int) (s : Fds Ptr),
    (l.foldl delEventInLoopThread s).slot g = if g ∈ l then none else s.slot g
  | [], s => by simp
  | fd :: rest, s => by
    rw [List.foldl_cons, foldl_del_slot g rest, delEventInLoopThread_slot]
    by_cases hg : g = fd <;> simp [hg]

/-- What the reactor has of a descriptor after it has looked at the pending lists: a pending delete wins
over a pending add, and a pending add that succeeds over what was there. -/
theorem drain_slot (s : Fds Ptr) (ok : Int → Bool) (g : Int) : (drain s ok).slot g =
    if g ∈ s.pendingDelFds then none
    else ((if ok g then s.pendingAddFds.lookup g else none).map some).or (s.slot g) := by
  unfold drain
  dsimp only
  rw [foldl_del_slot, foldl_add_slot ok g _ _ s.keys]
  rfl

theorem delEventInLoopThread_epoll (s : Fds Ptr) (fd g : Int) :
    (delEventInLoopThread s fd).epoll g = if g = fd then none else s.epoll g := by
  rw [← slot_join, delEventInLoopThread_slot, ← slot_join s]
  split <;> rfl

/-- What the kernel then has. -/
theorem drain_epoll_of (s : Fds Ptr) (ok : Int → Bool) (g : Int) : (drain s ok).epoll g =
    if g ∈ s.pendingDelFds then none
    else (if ok g then s.pendingAddFds.lookup g else none).or (s.epoll g) := by
  rw [← slot_join, drain_slot, ← slot_join s]
  split
  · rfl
  · cases (if ok g then s.pendingAddFds.lookup g else none) <;> rfl

/-- And when every `epoll_ctl` succeeds. -/
theorem drain_epoll (s : Fds Ptr) (g : Int) : (drain s).epoll g =
    if g ∈ s.pendingDelFds then none else (s.pendingAddFds.lookup g).or (s.epoll g) := by
  rw [drain_epoll_of]
  rfl

theorem foldl_pending_nil (ok : Int → Bool) : ∀ (adds : List (Int × EpollEvent Ptr)) (dels : List Int) (s : Fds Ptr),
    s.pendingAddFds = [] ∧ s.pendingDelFds = [] →
    let s' := dels.foldl delEventInLoopThread
      (adds.foldl (fun s p => addEventInLoopThread s p.1 p.2 (ok p.1)) s)
    s'.pendingAddFds = [] ∧ s'.pendingDelFds = []
  | [], [], _, h => h
  | [], fd :: dels, s, h => by
    refine foldl_pending_nil ok [] dels (delEventInLoopThread s fd) ?_
    unfold delEventInLoopThread
    split <;> exact h
  | p :: adds, dels, s, h => by
    refine foldl_pending_nil ok adds dels (addEventInLoopThread s p.1 p.2 (ok p.1)) ?_
    unfold addEventInLoopThread
    split <;> exact h

/-- Nothing is pending after it. -/
theorem drain_pending (s : Fds Ptr) (ok : Int → Bool) :
    (drain s ok).pendingAddFds = [] ∧ (drain s ok).pendingDelFds = [] :=
  foldl_pending_nil ok _ _ { s with pendingAddFds := [], pendingDelFds := [], keys := List.nodup_nil } ⟨rfl, rfl⟩

theorem place_lookup {fd g : Int} {event : EpollEvent Ptr} : ∀ {m : List (Int × EpollEvent Ptr)},
    fd ∉ m.map Prod.fst → (place fd event m).lookup g = if g = fd then some event else m.lookup g
  | [], _ => lookup_cons g fd event []
  | (k, e) :: rest, hfd => by
    obtain ⟨hne, hfd⟩ := not_or.1 (List.mem_cons.not.1 hfd)
    have hne : fd ≠ k := hne
    unfold place
    split
    · exact lookup_cons ..
    · rw [lookup_cons, lookup_cons, place_lookup hfd]
      by_cases hg : g = fd
      · subst hg
        simp [hne]
      · simp [hg]

/-- The first event inserted for a descriptor stays. -/
theorem insert_lookup (m : List (Int × EpollEvent Ptr)) (fd : Int) (event : EpollEvent Ptr) (g : Int) :
    (insert m fd event).lookup g = (m.lookup g).or (if g = fd then some event else none) := by
  unfold insert
  split
  · rename_i hfd
    by_cases hg : g = fd
    · subst hg
      have hsome : m.lookup g ≠ none := fun h => by
        obtain ⟨p, hp, hpg⟩ := List.mem_map.1 hfd
        have := List.lookup_eq_none_iff.1 h p hp
        simp [hpg] at this
      obtain ⟨e, he⟩ := Option.ne_none_iff_exists'.1 hsome
      simp [he]
    · simp [hg]
  · rename_i hfd
    rw [place_lookup hfd]
    by_cases hg : g = fd
    · subst hg
      simp [lookup_eq_none hfd]
    · simp [hg]

/-- What an add comes to, on whichever thread: what is pending for the descriptor goes before it. -/
theorem drain_addEvent (s : Fds Ptr) {b ok : Bool} (hok : b = true → ok = true) {fd : Int} (hfd : fd ≠ -1)
    (event : EpollEvent Ptr) (g : Int) : (drain (addEvent s b fd event ok)).epoll g =
      if g = fd then
        if fd ∈ s.pendingDelFds then none else (s.pendingAddFds.lookup fd).or (some event)
      else (drain s).epoll g := by
  rw [drain_epoll, drain_epoll]
  unfold addEvent
  rw [if_neg hfd]
  cases b
  · rw [if_neg Bool.false_ne_true, insert_lookup]
    by_cases hg : g = fd
    · subst hg
      simp
    · simp [hg]
  · rw [if_pos rfl, hok rfl]
    have hepoll : (addEventInLoopThread s fd event).epoll g = if g = fd then some event else s.epoll g :=
      update_apply ..
    rw [hepoll]
    by_cases hg : g = fd
    · subst hg
      simp [addEventInLoopThread]
    · simp [hg, addEventInLoopThread]

/-- On the loop thread `epoll_ctl` may refuse it. -/
theorem addEvent_refused (s : Fds Ptr) (fd : Int) (event : EpollEvent Ptr) : addEvent s true fd event false = s := by
  unfold addEvent addEventInLoopThread
  split <;> rfl

theorem drain_delEvent_of_ne (s : Fds Ptr) (b : Bool) {fd g : Int} (hg : g ≠ fd) :
    (drain (delEvent s b fd)).epoll g = (drain s).epoll g := by
  rw [drain_epoll, drain_epoll]
  unfold delEvent
  split
  · rfl
  split
  · rw [delEventInLoopThread_epoll, if_neg hg]
    unfold delEventInLoopThread
    split <;> rfl
  · simp [hg]

/-! ## Calls from another thread -/

inductive Call (Ptr : Type)
  | addEvent (fd : Int) (event : EpollEvent Ptr)
  | delEvent (fd : Int)

/-- The descriptor a call is about. -/
def Call.fd : Call Ptr → Int
  | .addEvent fd _ => fd
  | .delEvent fd => fd

/-- The event a call adds for `g`. -/
def Call.added (g : Int) : Call Ptr → Option (EpollEvent Ptr)
  | .addEvent fd event => if fd = g then some event else none
  | .delEvent _ => none

def Call.make (isLoopThread : Bool) (s : Fds Ptr) : Call Ptr → Fds Ptr
  | .addEvent fd event => Registration.addEvent s isLoopThread fd event
  | .delEvent fd => Registration.delEvent s isLoopThread fd

/-- The calls, in order. -/
def makeAll (isLoopThread : Bool) (s : Fds Ptr) (calls : List (Call Ptr)) : Fds Ptr :=
  calls.foldl (Call.make isLoopThread) s

/-- The last of the calls about `g`. -/
def lastCall (g : Int) (calls : List (Call Ptr)) : Option (Call Ptr) :=
  (calls.filter fun c => c.fd = g).getLast?

/-- The first event the calls add for `g`. -/
def firstAdded (g : Int) (calls : List (Call Ptr)) : Option (EpollEvent Ptr) :=
  calls.findSome? (Call.added g)

theorem firstAdded_cons (g : Int) (c : Call Ptr) (calls : List (Call Ptr)) :
    firstAdded g (c :: calls) = (c.added g).or (firstAdded g calls) := by
  unfold firstAdded
  rw [List.findSome?_cons]
  cases c.added g <;> rfl

theorem lastCall_append (g : Int) (calls : List (Call Ptr)) (c : Call Ptr) :
    lastCall g (calls ++ [c]) = if c.fd = g then some c else lastCall g calls := by
  unfold lastCall
  rw [List.filter_append]
  by_cases hc : c.fd = g <;> simp [hc]

/-- On the loop thread the last call about a descriptor decides. -/
theorem makeAll_loopThread_slot (s : Fds Ptr) {g : Int} (hg : g ≠ -1) (calls : List (Call Ptr)) :
    (makeAll true s calls).slot g = match lastCall g calls with
      | none => s.slot g
      | some (.addEvent _ event) => some (some event)
      | some (.delEvent _) => none := by
  -- from the back: a call about another descriptor leaves what the ones before it have decided
  induction calls using List.reverseRecOn with
  | nil => rfl
  | append_singleton calls c ih =>
    unfold makeAll at ih ⊢
    rw [List.foldl_append, List.foldl_cons, List.foldl_nil, lastCall_append]
    cases c with
    | addEvent fd event =>
      by_cases hfd : fd = g
      · subst hfd
        simp [Call.make, Registration.addEvent, Call.fd, hg]
      · by_cases hneg : fd = -1
        · simp [Call.make, Registration.addEvent, Call.fd, hneg, ih, Ne.symm hg]
        · simp [Call.make, Registration.addEvent, Call.fd, hneg, hfd, Ne.symm hfd, ih]
    | delEvent fd =>
      by_cases hfd : fd = g
      · subst hfd
        simp [Call.make, Registration.delEvent, Call.fd, hg]
      · by_cases hneg : fd = -1
        · simp [Call.make, Registration.delEvent, Call.fd, hneg, ih, Ne.symm hg]
        · simp [Call.make, Registration.delEvent, Call.fd, hneg, hfd, Ne.symm hfd, ih]

/-- From another thread the first add of a descriptor and any delete of it stay. -/
theorem makeAll_other_pending {g : Int} (hg : g ≠ -1) : ∀ (calls : List (Call Ptr)) (s : Fds Ptr),
    (makeAll false s calls).slot = s.slot ∧
      (makeAll false s calls).pendingAddFds.lookup g =
        (s.pendingAddFds.lookup g).or (firstAdded g calls) ∧
      (g ∈ (makeAll false s calls).pendingDelFds ↔ g ∈ s.pendingDelFds ∨ .delEvent g ∈ calls)
  | [], s => by simp [makeAll, firstAdded]
  | c :: calls, s => by
    obtain ⟨hslot, hadd, hdel⟩ := makeAll_other_pending hg calls (c.make false s)
    show (makeAll false (c.make false s) calls).slot = s.slot ∧ _
    rw [show makeAll false s (c :: calls) = makeAll false (c.make false s) calls from rfl, hslot, hadd, hdel]
    cases c with
    | addEvent fd event =>
      by_cases hneg : fd = -1
      · simp [Call.make, Registration.addEvent, hneg, firstAdded_cons, Call.added, Ne.symm hg]
      · refine ⟨?_, ?_, ?_⟩
        · simp only [Call.make, Registration.addEvent, hneg, if_false, Bool.false_eq_true]
          rfl
        · simp only [Call.make, Registration.addEvent, hneg, if_false, Bool.false_eq_true, insert_lookup,
            firstAdded_cons, Call.added, eq_comm (a := g), Option.or_assoc]
        · simp [Call.make, Registration.addEvent, hneg]
    | delEvent fd =>
      by_cases hneg : fd = -1
      · simp [Call.make, Registration.delEvent, hneg, firstAdded_cons, Call.added, hg]
      · refine ⟨?_, ?_, ?_⟩
        · simp only [Call.make, Registration.delEvent, hneg, if_false, Bool.false_eq_true]
          rfl
        · simp [Call.make, Registration.delEvent, hneg, firstAdded_cons, Call.added]
        · simp [Call.make, Registration.delEvent, hneg, or_assoc]

/-- The descriptor `-1` is nobody's. -/
theorem makeAll_invalid (b : Bool) : ∀ (calls : List (Call Ptr)) (s : Fds Ptr),
    (makeAll b s calls).slot (-1) = s.slot (-1) ∧
      (makeAll b s calls).pendingAddFds.lookup (-1) = s.pendingAddFds.lookup (-1) ∧
      (-1 ∈ (makeAll b s calls).pendingDelFds ↔ -1 ∈ s.pendingDelFds)
  | [], _ => ⟨rfl, rfl, Iff.rfl⟩
  | c :: calls, s => by
    obtain ⟨hslot, hadd, hdel⟩ := makeAll_invalid b calls (c.make b s)
    rw [show makeAll b s (c :: calls) = makeAll b (c.make b s) calls from rfl, hslot, hadd, hdel]
    cases c with
    | addEvent fd event =>
      by_cases hneg : fd = -1
      · simp [Call.make, Registration.addEvent, hneg]
      · cases b
        · refine ⟨?_, ?_⟩
          · simp only [Call.make, Registration.addEvent, hneg, if_false, Bool.false_eq_true]
            rfl
          · simp [Call.make, Registration.addEvent, hneg, insert_lookup, Ne.symm hneg]
        · refine ⟨by simp [Call.make, Registration.addEvent, hneg, Ne.symm hneg], ?_⟩
          simp [Call.make, Registration.addEvent, hneg, addEventInLoopThread]
    | delEvent fd =>
      by_cases hneg : fd = -1
      · simp [Call.make, Registration.delEvent, hneg]
      · cases b
        · refine ⟨?_, ?_⟩
          · simp only [Call.make, Registration.delEvent, hneg, if_false, Bool.false_eq_true]
            rfl
          · simp [Call.make, Registration.delEvent, hneg, Ne.symm hneg]
        · refine ⟨by simp [Call.make, Registration.delEvent, hneg, Ne.symm hneg], ?_⟩
          simp only [Call.make, Registration.delEvent, hneg, if_false, if_true, delEventInLoopThread]
          split <;> exact ⟨rfl, Iff.rfl⟩

/-! ## The same registrations -/

/-- The same descriptors with the same masks. -/
structure SameRegistration (s s' : Fds Ptr) : Prop where
  fds : ∀ fd, fd ∈ s.fds ↔ fd ∈ s'.fds
  events : ∀ fd, (s.epoll fd).map EpollEvent.events = (s'.epoll fd).map EpollEvent.events

theorem sameRegistration_of {s s' : Fds Ptr}
    (h : ∀ fd, (s.slot fd).map (Option.map EpollEvent.events) = (s'.slot fd).map (Option.map EpollEvent.events)) :
    SameRegistration s s' := by
  refine ⟨fun fd => ?_, fun fd => ?_⟩
  · have hfd := congrArg Option.isSome (h fd)
    rw [Option.isSome_map, Option.isSome_map] at hfd
    rw [← slot_isSome, ← slot_isSome, hfd]
  · have hjoin : ∀ o : Option (Option (EpollEvent Ptr)),
        o.join.map EpollEvent.events = (o.map (Option.map EpollEvent.events)).join := by
      intro o
      cases o <;> rfl
    rw [← slot_join, ← slot_join, hjoin, hjoin, h]

/-- The calls another thread makes between two drains of the pending lists have, once the second
has come, the effect they have on the loop thread. -/
def CrossThread (s : Fds Ptr) (calls : List (Call Ptr)) : Prop :=
  SameRegistration (drain (makeAll false (drain s) calls)) (makeAll true (drain s) calls)

/-- A descriptor whose last call adds it is nowhere deleted in the calls, and was first added with
the same mask. -/
def AddsAgree (calls : List (Call Ptr)) : Prop :=
  ∀ fd, fd ≠ -1 → ∀ event, lastCall fd calls = some (.addEvent fd event) → .delEvent fd ∉ calls ∧
    ∀ event', firstAdded fd calls = some event' → event'.events = event.events

theorem lastCall_fd {g : Int} {calls : List (Call Ptr)} {c : Call Ptr} (h : lastCall g calls = some c) :
    c ∈ calls ∧ c.fd = g := by
  have := List.mem_of_mem_getLast? (Option.mem_def.2 h)
  simpa using List.mem_filter.1 this

/-- Without a call about a descriptor nothing is pending for it. -/
theorem firstAdded_of_lastCall_none {g : Int} {calls : List (Call Ptr)} (h : lastCall g calls = none) :
    firstAdded g calls = none ∧ .delEvent g ∉ calls := by
  have hnone := List.filter_eq_nil_iff.1 (List.getLast?_eq_none_iff.1 h)
  refine ⟨List.findSome?_eq_none_iff.2 fun c hc => ?_, fun hdel => ?_⟩
  · cases c with
    | addEvent fd event =>
      have hne : fd ≠ g := fun h => hnone _ hc (decide_eq_true h)
      exact if_neg hne
    | delEvent fd => rfl
  · exact hnone _ hdel (decide_eq_true rfl)

theorem firstAdded_of_mem {g : Int} {calls : List (Call Ptr)} {event : EpollEvent Ptr}
    (h : .addEvent g event ∈ calls) : ∃ event', firstAdded g calls = some event' := by
  have : firstAdded g calls ≠ none := fun hnone => by
    have := List.findSome?_eq_none_iff.1 hnone _ h
    simp [Call.added] at this
  exact Option.ne_none_iff_exists'.1 this

/-- Calls from another thread, once they are drained: a delete among them wins. -/
theorem makeAll_other_deleted (s : Fds Ptr) {calls : List (Call Ptr)} {g : Int} (hg : g ≠ -1)
    (h : .delEvent g ∈ calls) : (drain (makeAll false (drain s) calls)).slot g = none := by
  obtain ⟨-, -, hdel⟩ := makeAll_other_pending hg calls (drain s)
  rw [drain_slot, if_pos (hdel.2 (.inr h))]

theorem makeAll_other_kept (s : Fds Ptr) {calls : List (Call Ptr)} {g : Int} (hg : g ≠ -1)
    (h : .delEvent g ∉ calls) :
    (drain (makeAll false (drain s) calls)).slot g = ((firstAdded g calls).map some).or ((drain s).slot g) := by
  obtain ⟨hadds, hdels⟩ := drain_pending s fun _ => true
  obtain ⟨hslot, hadd, hdel⟩ := makeAll_other_pending hg calls (drain s)
  rw [hdels] at hdel
  rw [drain_slot, hslot, hadd, hadds, List.lookup_nil, Option.none_or]
  exact if_neg fun h' => h ((hdel.1 h').resolve_left nofun)

theorem makeAll_other_invalid (s : Fds Ptr) (calls : List (Call Ptr)) :
    (drain (makeAll false (drain s) calls)).slot (-1) = (makeAll true (drain s) calls).slot (-1) := by
  obtain ⟨hadds, hdels⟩ := drain_pending s fun _ => true
  obtain ⟨hslot, hadd, hdel⟩ := makeAll_invalid false calls (drain s)
  rw [drain_slot, hslot, hadd, (makeAll_invalid true calls (drain s)).1]
  simp only [hdel, hadds, hdels, List.not_mem_nil, if_false, List.lookup_nil, if_true, Option.map_none,
    Option.none_or]

/-- Per descriptor: what the drain makes of the pending lists against what the last call says. -/
theorem crossThread_iff (s : Fds Ptr) (calls : List (Call Ptr)) :
    CrossThread s calls ↔ AddsAgree calls := by
  constructor
  · intro h g hg event hlast
    have hev := h.events g
    rw [← slot_join, ← slot_join, makeAll_loopThread_slot _ hg, hlast] at hev
    have hdel : .delEvent g ∉ calls := fun hdel => by
      rw [makeAll_other_deleted s hg hdel] at hev
      cases hev
    refine ⟨hdel, fun event' hfirst => ?_⟩
    rw [makeAll_other_kept s hg hdel, hfirst] at hev
    exact Option.some.inj hev
  · intro h
    refine sameRegistration_of fun g => ?_
    by_cases hg : g = -1
    · rw [hg, makeAll_other_invalid]
    · rw [makeAll_loopThread_slot _ hg]
      match hlast : lastCall g calls with
      | none =>
        obtain ⟨hfirst, hdel⟩ := firstAdded_of_lastCall_none hlast
        rw [makeAll_other_kept s hg hdel, hfirst]
        rfl
      | some (.delEvent fd) =>
        obtain ⟨hmem, rfl⟩ := lastCall_fd hlast
        rw [makeAll_other_deleted s hg hmem]
      | some (.addEvent fd event) =>
        obtain ⟨hmem, rfl⟩ := lastCall_fd hlast
        obtain ⟨hdel, hfirst⟩ := h _ hg event hlast
        obtain ⟨event', hevent'⟩ : ∃ event', firstAdded (Call.addEvent fd event).fd calls = some event' :=
          firstAdded_of_mem hmem
        rw [makeAll_other_kept s hg hdel, hevent']
        exact congrArg (fun m => some (some m)) (hfirst event' hevent')

/-- EPOLLIN and EPOLLOUT. -/
def READ : BitVec 32 := 1
def WRITE : BitVec 32 := 4

/-- A new reactor: `addWakeupFd`. -/
def Fds.new (wakeFd : Int) (data : Ptr) : Fds Ptr where
  fds := [wakeFd]
  epoll := update (fun _ => none) wakeFd (some ⟨READ, data⟩)
  pendingAddFds := []
  pendingDelFds := []
  nodup := List.nodup_singleton _
  agree fd := by by_cases h : fd = wakeFd <;> simp [h]
  keys := List.nodup_nil

/-- A descriptor that is closed and used again: the new registration is lost. -/
theorem not_crossThread_reused :
    ¬ CrossThread (Fds.new 4 ()) [.delEvent 7, .addEvent 7 ⟨READ, ()⟩] := by
  intro h
  have hev := h.events 7
  rw [drain_epoll] at hev
  revert hev
  decide

end Flconc.Registration
