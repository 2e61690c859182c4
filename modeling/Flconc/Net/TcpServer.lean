/-
The connections of a server, net/tcp/tcp_server.cc and net/tcp/tcp_connection.cc: accepted, each with a
coroutine of the pool, served on it until the peer or the time wheel closes them, and destroyed by the
timer of the server once they are closed.

A coroutine is handed out again when its slot is free and it is not in its function. The destructor of
the connection frees the slot. But the function never returns: when `input` finds the connection closed
it forbids the coroutine to be resumed and yields for good, so the slot stays lost.
-/
import Flconc.Coroutine.Pool
import Flconc.Net.Output

namespace Flconc.TcpServer

open Function

/-! ## The model -/

/-- Where a connection's coroutine is: never resumed, at the head of `MainServerLoopCorFunc`, in a round
of it, behind `clearClient` in the close branch of `input`, behind the `Yield` there, or returned. -/
inductive CorPhase
  | fresh
  | head
  | round
  | clearing
  | parked
  | returned
  deriving DecidableEq

/-- A `TcpConnection` of the server, with `m_can_resume` of its coroutine and whether its descriptor is open. -/
structure Conn where
  fd : Nat
  cor : Coroutine
  state : TcpConnectionState := .Connected
  stop : Bool := false
  canResume : Bool := true
  fdOpen : Bool := true
  phase : CorPhase := .fresh
  deriving DecidableEq

/-- The pool with `m_is_in_cofunc` of the coroutines of its table, `m_accept_cor` and `m_clients`; and
whether a connection accepted beside fewer than `m_pool_size` others got a coroutine outside the table. -/
structure Server where
  pool : CoroutinePool
  inCoFunc : Nat → Bool
  acceptCor : Coroutine
  clients : List Conn := []
  overflowed : Bool := false

inductive Act
  /-- `accept` returns this descriptor, and `malloc` this address if it is called. -/
  | accept (fd start : Nat)
  /-- A Resume of the connection's coroutine. -/
  | resume (fd : Nat)
  /-- The test of `m_stop`. -/
  | head (fd : Nat)
  /-- `input` returns, `execute` and `output` run. -/
  | serve (fd : Nat)
  /-- A read of the connection returns nothing: `clearClient`. -/
  | close (fd : Nat)
  /-- What is behind `clearClient`: `setCanResume(false)` and `Yield`. -/
  | park (fd : Nat)
  /-- The time wheel's `shutdownConnection`. -/
  | shutdown (fd : Nat)
  /-- `ClearClientTimerFunc` at the entry of this descriptor. -/
  | clear (fd : Nat)

/-- `setIsInCoFunc`, for a coroutine of the table. -/
def setIsInCoFunc (inCoFunc : Nat → Bool) (cor : Coroutine) (v : Bool) : Nat → Bool :=
  if 0 ≤ cor.index then update inCoFunc cor.index.toNat v else inCoFunc

def Server.client (s : Server) (fd : Nat) : Option Conn := s.clients.find? (·.fd = fd)

def Server.others (s : Server) (fd : Nat) : List Conn := s.clients.filter (·.fd ≠ fd)

/-- The coroutines handed out. -/
def Server.out (s : Server) : List Coroutine := s.clients.map (·.cor) ++ [s.acceptCor]

/-- The connection of this descriptor becomes `c`. -/
def Server.setClient (s : Server) (c : Conn) : Server :=
  { s with clients := s.clients.map fun d => if d.fd = c.fd then c else d }

/-- `~TcpConnection`. -/
def Server.destroy (z : PoolSizes) (s : Server) (c : Conn) : Server :=
  { s with pool := s.pool.returnCoroutine z c.cor, clients := s.others c.fd }

/-- `TcpServer::start`: the accept coroutine is taken from a new pool and resumed. -/
def start (z : PoolSizes) (base : Nat) : Option Server :=
  ((CoroutinePool.new z base).getCoroutineInstanse z (fun _ => false) base).map fun r =>
    { pool := r.2, inCoFunc := setIsInCoFunc (fun _ => false) r.1 true, acceptCor := r.1 }

/-- `TcpConnection(tcp_svr, io_thread, fd, ..)`: the coroutine is taken from the pool. -/
def Server.addNew (z : PoolSizes) (s : Server) (fd start : Nat) : Option Server :=
  if ∀ m ∈ s.pool.regions, Apart m.range (Memory.new z.stackSize z.poolSize start).range then
    (s.pool.getCoroutineInstanse z s.inCoFunc start).map fun r => { s with
      pool := r.2
      clients := { fd := fd, cor := r.1 } :: s.clients
      overflowed := s.overflowed || (decide (r.1.index = -1) && decide (s.clients.length < z.poolSize)) }
  else none

/-- `addClient`: what was there under the descriptor is destroyed first. The kernel gives no descriptor
that is open. -/
def accept (z : PoolSizes) (s : Server) (fd start : Nat) : Option Server :=
  match s.client fd with
  | none => s.addNew z fd start
  | some c => if c.fdOpen then none else (s.destroy z c).addNew z fd start

/-- `Resume`: into the function the first time; behind the `Yield` of the close branch only when the
coroutine may be resumed. Anywhere else it goes on in a hook. -/
def resume (s : Server) (c : Conn) : Server :=
  match c.phase with
  | .fresh => { s.setClient { c with phase := .head } with inCoFunc := setIsInCoFunc s.inCoFunc c.cor true }
  | .parked => if c.canResume then s.setClient { c with phase := .head } else s
  | _ => s

/-- The head of the loop; with `m_stop` set the function returns. -/
def loopHead (s : Server) (c : Conn) : Server :=
  if c.stop then
    { s.setClient { c with phase := .returned } with inCoFunc := setIsInCoFunc s.inCoFunc c.cor false }
  else s.setClient { c with phase := .round }

/-- `clearClient`. -/
def clearClient (c : Conn) : Conn :=
  if c.state = .Closed then c else { c with stop := true, fdOpen := false, state := .Closed }

/-- `shutdownConnection`. -/
def shutdownConnection (c : Conn) : Conn :=
  if c.state = .Closed ∨ c.state = .NotConnected then c else { c with state := .HalfClosing }

/-- A step of the connection with this descriptor, when its coroutine is there. -/
def atPhase (s : Server) (fd : Nat) (phase : CorPhase) (f : Conn → Server) : Option Server :=
  (s.client fd).bind fun c => if c.phase = phase then some (f c) else none

def step (z : PoolSizes) (s : Server) : Act → Option Server
  | .accept fd start => accept z s fd start
  | .resume fd => (s.client fd).map (resume s)
  | .head fd => atPhase s fd .head (loopHead s)
  | .serve fd => atPhase s fd .round fun c => s.setClient { c with phase := .head }
  | .close fd => atPhase s fd .round fun c => s.setClient { clearClient c with phase := .clearing }
  | .park fd => atPhase s fd .clearing fun c => s.setClient { c with canResume := false, phase := .parked }
  | .shutdown fd => (s.client fd).map fun c => s.setClient (shutdownConnection c)
  | .clear fd => (s.client fd).map fun c => if c.state = .Closed then s.destroy z c else s

/-! ## Giving the coroutine back -/

/-- Every slot of the table that is not handed out can be, and nobody got a coroutine outside the table
while there were fewer than `m_pool_size` connections. -/
structure GivesBack (z : PoolSizes) (s : Server) : Prop where
  reusable : ∀ (i : Nat) c, s.pool.freeCors[i]? = some (c, false) → s.pool.available s.inCoFunc i = true
  pooled : s.overflowed = false

/-- The connection a step destroys. -/
def destroyed (s : Server) : Act → Option Conn
  | .accept fd _ => s.client fd
  | .clear fd => (s.client fd).filter (·.state = .Closed)
  | _ => none

/-- How many connections there are with the one a step accepts. -/
def accepting (s : Server) : Act → Option Nat
  | .accept fd _ => some ((s.others fd).length + 1)
  | _ => none

/-- The step destroys no connection with a coroutine of the table, and accepts none as the one that
makes the connections as many as the table has slots. -/
structure Spares (z : PoolSizes) (s : Server) (a : Act) : Prop where
  destroys : ∀ c, destroyed s a = some c → c.cor.index = -1
  accepts : accepting s a ≠ some z.poolSize

instance decidableSpares (z : PoolSizes) (s : Server) (a : Act) : Decidable (Spares z s a) :=
  decidable_of_iff ((∀ c ∈ destroyed s a, c.cor.index = -1) ∧ accepting s a ≠ some z.poolSize)
    ⟨fun h => ⟨h.1, h.2⟩, fun h => ⟨h.destroys, h.accepts⟩⟩

/-! ## What every run keeps -/

/-- The coroutine is in its function from its first Resume on; a connection that has stopped is in the
close branch, and behind the `Yield` there its coroutine cannot be resumed. -/
structure ConnOk (inCoFunc : Nat → Bool) (c : Conn) : Prop where
  entered : c.phase ≠ .fresh → 0 ≤ c.cor.index → inCoFunc c.cor.index.toNat = true
  stopped : c.stop = true ∨ c.state = .Closed ∨ c.fdOpen = false → c.phase = .clearing ∨ c.phase = .parked
  parked : c.phase = .parked → c.canResume = false
  running : c.phase ≠ .returned

structure Inv (z : PoolSizes) (s : Server) : Prop where
  pool : PoolInv z ⟨s.pool, s.out⟩
  /-- A slot is busy only for somebody. -/
  busy : ∀ (i : Nat) c, s.pool.freeCors[i]? = some (c, true) → c ∈ s.out
  conns : ∀ c ∈ s.clients, ConnOk s.inCoFunc c
  fds : (s.clients.map (·.fd)).Nodup
  /-- Coroutines outside the table are made only when none of it is available, and none of it ever is
  again. -/
  carved : s.pool.overflow ≠ [] → ∀ i < z.poolSize, s.pool.available s.inCoFunc i = false

section

variable {z : PoolSizes} {s s' : Server} {c c' : Conn} {fd : Nat}

theorem client_mem (h : s.client fd = some c) : c ∈ s.clients ∧ c.fd = fd :=
  ⟨List.mem_of_find?_eq_some h, by simpa using List.find?_some h⟩

/-- There is one connection for a descriptor. -/
theorem Inv.unique (h : Inv z s) {d : Conn} (hc : c ∈ s.clients) (hd : d ∈ s.clients) (hfd : d.fd = c.fd) : d = c :=
  List.inj_on_of_nodup_map h.fds hd hc hfd

theorem Inv.handed (h : Inv z s) (hc : c ∈ s.clients) : s.pool.HandedOut c.cor :=
  h.pool.handed _ (List.mem_append_left _ (List.mem_map_of_mem hc))

theorem ConnOk.mono {inCoFunc inCoFunc' : Nat → Bool} (hmono : ∀ i, inCoFunc i = true → inCoFunc' i = true)
    (h : ConnOk inCoFunc c) : ConnOk inCoFunc' c :=
  ⟨fun hp hi => hmono _ (h.entered hp hi), h.stopped, h.parked, h.running⟩

/-! ## Steps of one connection -/

/-- A step of one connection, in which its coroutine may enter its function. -/
theorem Inv.setClient (h : Inv z s) (hc : c ∈ s.clients) (hfd : c'.fd = c.fd) (hcor : c'.cor = c.cor)
    {inCoFunc : Nat → Bool} (hmono : ∀ i, s.inCoFunc i = true → inCoFunc i = true) (hok : ConnOk inCoFunc c') :
    Inv z { s.setClient c' with inCoFunc := inCoFunc } := by
  have hcors : (s.setClient c').clients.map (·.cor) = s.clients.map (·.cor) := by
    unfold Server.setClient
    rw [List.map_map]
    refine List.map_congr_left fun d hd => ?_
    show (if d.fd = c'.fd then c' else d).cor = d.cor
    split
    · rename_i heq
      rw [h.unique hc hd (heq.trans hfd), hcor]
    · rfl
  have hfds : (s.setClient c').clients.map (·.fd) = s.clients.map (·.fd) := by
    unfold Server.setClient
    rw [List.map_map]
    refine List.map_congr_left fun d _ => ?_
    show (if d.fd = c'.fd then c' else d).fd = d.fd
    split
    · rename_i heq
      exact heq.symm
    · rfl
  have hout : (s.setClient c').out = s.out := congrArg (· ++ [s.acceptCor]) hcors
  refine ⟨?_, fun i d hi => ?_, fun d hd => ?_, hfds ▸ h.fds, fun hov i hi => ?_⟩
  · show PoolInv z ⟨s.pool, (s.setClient c').out⟩
    rw [hout]
    exact h.pool
  · show d ∈ (s.setClient c').out
    rw [hout]
    exact h.busy i d hi
  · obtain ⟨e, he, rfl⟩ := List.mem_map.1 hd
    split
    · exact hok
    · exact (h.conns e he).mono hmono
  · have hno := h.carved hov i hi
    rw [← Bool.not_eq_true, CoroutinePool.available_iff] at hno ⊢
    rintro ⟨hf, hslot⟩
    change inCoFunc i = false at hf
    refine hno ⟨?_, hslot⟩
    rw [← Bool.not_eq_true]
    intro ht
    rw [hmono i ht] at hf
    cases hf

/-- What becomes of the free slots does not depend on a coroutine that is handed out. -/
theorem GivesBack.setClient (hp : GivesBack z s) {inCoFunc : Nat → Bool}
    (hsame : ∀ (i : Nat) d, s.pool.freeCors[i]? = some (d, false) → inCoFunc i = s.inCoFunc i) :
    GivesBack z { s.setClient c' with inCoFunc := inCoFunc } := by
  refine ⟨fun i d hi => ?_, hp.pooled⟩
  have hav := hp.reusable i d hi
  rw [CoroutinePool.available_iff] at hav ⊢
  exact ⟨(hsame i d hi).trans hav.1, hav.2⟩

theorem setIsInCoFunc_mono (inCoFunc : Nat → Bool) (cor : Coroutine) {i : Nat} (h : inCoFunc i = true) :
    setIsInCoFunc inCoFunc cor true i = true := by
  unfold setIsInCoFunc
  split
  · by_cases hi : i = cor.index.toNat
    · rw [hi, update_self]
    · rw [update_of_ne hi, h]
  · exact h

theorem setIsInCoFunc_self (inCoFunc : Nat → Bool) {cor : Coroutine} (h : 0 ≤ cor.index) :
    setIsInCoFunc inCoFunc cor true cor.index.toNat = true := by
  unfold setIsInCoFunc
  rw [if_pos h, update_self]

/-- The flag of a free slot is not the one of a coroutine that is handed out. -/
theorem Inv.setIsInCoFunc_free (h : Inv z s) (hc : c ∈ s.clients) {i : Nat} {d : Coroutine}
    (hi : s.pool.freeCors[i]? = some (d, false)) : setIsInCoFunc s.inCoFunc c.cor true i = s.inCoFunc i := by
  unfold setIsInCoFunc
  split
  · rename_i h0
    refine update_of_ne ?_ _ _
    rintro rfl
    obtain ⟨-, -, hslot⟩ := (h.handed hc).slot h.pool.ok (by omega)
    rw [hi] at hslot
    cases hslot
  · rfl

/-- A step that destroys and accepts nothing: the invariant and the property are kept. -/
structure Quiet (z : PoolSizes) (s s' : Server) : Prop where
  inv : Inv z s'
  gives : GivesBack z s → GivesBack z s'

theorem quiet_setClient (h : Inv z s) (hc : c ∈ s.clients) (hfd : c'.fd = c.fd) (hcor : c'.cor = c.cor)
    (hok : ConnOk s.inCoFunc c') : Quiet z s (s.setClient c') :=
  ⟨h.setClient hc hfd hcor (fun _ => id) hok, fun hp => hp.setClient fun _ _ _ => rfl⟩

theorem quiet_resume (h : Inv z s) (hc : c ∈ s.clients) : Quiet z s (resume s c) := by
  have hok := h.conns c hc
  unfold resume
  split
  · rename_i hphase
    have hnot : ¬ (c.stop = true ∨ c.state = .Closed ∨ c.fdOpen = false) := by
      intro hs
      rcases hok.stopped hs with hp | hp <;> rw [hphase] at hp <;> cases hp
    have hfd : ({ c with phase := .head } : Conn).fd = c.fd := rfl
    have hok' : ConnOk (setIsInCoFunc s.inCoFunc c.cor true) { c with phase := .head } :=
      ⟨fun _ h0 => setIsInCoFunc_self _ h0, fun hs => absurd hs hnot, nofun, nofun⟩
    exact ⟨h.setClient hc hfd rfl (fun i hi => setIsInCoFunc_mono s.inCoFunc c.cor hi) hok',
      fun hp => hp.setClient fun i d hi => h.setIsInCoFunc_free hc hi⟩
  · rename_i hphase
    rw [if_neg (by rw [hok.parked hphase]; nofun)]
    exact ⟨h, id⟩
  · exact ⟨h, id⟩

theorem quiet_loopHead (h : Inv z s) (hc : c ∈ s.clients) (hphase : c.phase = .head) : Quiet z s (loopHead s c) := by
  have hok := h.conns c hc
  have hnot : ¬ (c.stop = true ∨ c.state = .Closed ∨ c.fdOpen = false) := by
    intro hs
    rcases hok.stopped hs with hp | hp <;> rw [hphase] at hp <;> cases hp
  unfold loopHead
  rw [if_neg fun hs => hnot (.inl hs)]
  refine quiet_setClient h hc rfl rfl ⟨fun _ => hok.entered ?_, fun hs => absurd hs hnot, nofun, nofun⟩
  rw [hphase]
  nofun

theorem quiet_serve (h : Inv z s) (hc : c ∈ s.clients) (hphase : c.phase = .round) :
    Quiet z s (s.setClient { c with phase := .head }) := by
  have hok := h.conns c hc
  refine quiet_setClient h hc rfl rfl ⟨fun _ => hok.entered (by rw [hphase]; nofun), fun hs => ?_, nofun, nofun⟩
  rcases hok.stopped hs with hp | hp <;> rw [hphase] at hp <;> cases hp

theorem quiet_close (h : Inv z s) (hc : c ∈ s.clients) (hphase : c.phase = .round) :
    Quiet z s (s.setClient { clearClient c with phase := .clearing }) := by
  have hok := h.conns c hc
  have hfd : (clearClient c).fd = c.fd := by unfold clearClient; split <;> rfl
  have hcor : (clearClient c).cor = c.cor := by unfold clearClient; split <;> rfl
  refine quiet_setClient h hc hfd hcor ⟨fun _ => ?_, fun _ => .inl rfl, nofun, nofun⟩
  show 0 ≤ (clearClient c).cor.index → s.inCoFunc (clearClient c).cor.index.toNat = true
  rw [hcor]
  exact hok.entered (by rw [hphase]; nofun)

theorem quiet_park (h : Inv z s) (hc : c ∈ s.clients) (hphase : c.phase = .clearing) :
    Quiet z s (s.setClient { c with canResume := false, phase := .parked }) := by
  have hok := h.conns c hc
  refine quiet_setClient h hc rfl rfl ⟨fun _ => hok.entered ?_, fun _ => .inr rfl, fun _ => rfl, nofun⟩
  rw [hphase]
  nofun

theorem quiet_shutdown (h : Inv z s) (hc : c ∈ s.clients) : Quiet z s (s.setClient (shutdownConnection c)) := by
  have hok := h.conns c hc
  unfold shutdownConnection
  split
  · exact quiet_setClient h hc rfl rfl hok
  · refine quiet_setClient h hc rfl rfl ⟨hok.entered, fun hs => hok.stopped ?_, hok.parked, hok.running⟩
    rcases hs with hs | hs | hs
    · exact .inl hs
    · cases hs
    · exact .inr (.inr hs)

/-! ## Destroying a connection -/

theorem mem_others {d : Conn} : d ∈ s.others fd ↔ d ∈ s.clients ∧ d.fd ≠ fd := by
  unfold Server.others
  rw [List.mem_filter, decide_eq_true_iff]

/-- The coroutines that stay handed out are all but the one of the connection. -/
theorem Inv.mem_out (h : Inv z s) (hc : c ∈ s.clients) {d : Coroutine} :
    d ∈ (s.destroy z c).out ↔ d ∈ s.out ∧ d ≠ c.cor := by
  have hnodup : s.out.Nodup := List.Nodup.of_map _ h.pool.stackPtrs
  obtain ⟨hcors, -, hdisj⟩ := List.nodup_append.1 hnodup
  constructor
  · intro hd
    rcases List.mem_append.1 hd with hd | hd
    · obtain ⟨e, he, rfl⟩ := List.mem_map.1 hd
      obtain ⟨he, hfd⟩ := mem_others.1 he
      refine ⟨List.mem_append_left _ (List.mem_map_of_mem he), fun heq => hfd ?_⟩
      rw [List.inj_on_of_nodup_map hcors he hc heq]
    · refine ⟨List.mem_append_right _ hd, ?_⟩
      exact fun heq => hdisj c.cor (List.mem_map_of_mem hc) d hd heq.symm
  · rintro ⟨hd, hne⟩
    rcases List.mem_append.1 hd with hd | hd
    · obtain ⟨e, he, rfl⟩ := List.mem_map.1 hd
      refine List.mem_append_left _ (List.mem_map_of_mem (mem_others.2 ⟨he, fun hfd => hne ?_⟩))
      rw [h.unique hc he hfd]
    · exact List.mem_append_right _ hd

/-- A connection that is closed has entered its function. -/
theorem ConnOk.inCoFunc {inCoFunc : Nat → Bool} (h : ConnOk inCoFunc c)
    (hclosed : c.state = .Closed ∨ c.fdOpen = false) (h0 : 0 ≤ c.cor.index) : inCoFunc c.cor.index.toNat = true := by
  refine h.entered ?_ h0
  rcases h.stopped (.inr hclosed) with hp | hp <;> rw [hp] <;> nofun

theorem Inv.destroy (h : Inv z s) (hc : c ∈ s.clients) (hclosed : c.state = .Closed ∨ c.fdOpen = false) :
    Inv z (s.destroy z c) := by
  have hhanded := h.handed hc
  have hsub : (s.destroy z c).out.Sublist s.out :=
    List.Sublist.append (List.Sublist.map _ List.filter_sublist) (List.Sublist.refl _)
  refine ⟨?_, fun i d hi => ?_, fun d hd => ?_, ?_, fun hov i hlt => ?_⟩
  · exact h.pool.back (List.mem_append_left _ (List.mem_map_of_mem hc)) hsub fun hmem =>
      ((h.mem_out hc).1 hmem).2 rfl
  · rcases CoroutinePool.returnCoroutine_slot h.pool.ok hhanded hi with ⟨hi, hne⟩ | ⟨-, -, hfree⟩
    · exact (h.mem_out hc).2 ⟨h.busy i d hi, hne⟩
    · cases hfree
  · exact h.conns d (mem_others.1 hd).1
  · exact h.fds.sublist (List.Sublist.map _ List.filter_sublist)
  · have hno := h.carved (CoroutinePool.returnCoroutine_overflow.1 hov) i hlt
    rw [← Bool.not_eq_true, CoroutinePool.available_iff] at hno ⊢
    rintro ⟨hf, d, hi⟩
    rcases CoroutinePool.returnCoroutine_slot h.pool.ok hhanded hi with ⟨hi, -⟩ | ⟨hi, -, -⟩
    · exact hno ⟨hf, d, hi⟩
    · -- the slot is free again, but the coroutine is in its function
      have hidx := (h.pool.ok.table i c.cor true hi).1
      have hin := (h.conns c hc).inCoFunc hclosed (by omega)
      rw [hidx, Int.toNat_natCast] at hin
      change s.inCoFunc i = false at hf
      rw [hin] at hf
      cases hf

/-- Destroying a connection keeps the property only where its coroutine is none of the table. -/
theorem givesBack_destroy (h : Inv z s) (hc : c ∈ s.clients) (hclosed : c.state = .Closed ∨ c.fdOpen = false)
    (hp : GivesBack z s) : GivesBack z (s.destroy z c) ↔ c.cor.index = -1 := by
  have hhanded := h.handed hc
  constructor
  · intro hp'
    by_contra hne
    obtain ⟨h0, -, hslot⟩ := hhanded.slot h.pool.ok hne
    have hin := (h.conns c hc).inCoFunc hclosed h0
    have hav := hp'.reusable _ _ (CoroutinePool.returnCoroutine_self h.pool.ok hslot)
    obtain ⟨hf, -⟩ := CoroutinePool.available_iff.1 hav
    change s.inCoFunc c.cor.index.toNat = false at hf
    rw [hin] at hf
    cases hf
  · intro hcarved
    refine ⟨fun i d hi => ?_, hp.pooled⟩
    rcases CoroutinePool.returnCoroutine_slot h.pool.ok hhanded hi with ⟨hi', -⟩ | ⟨hi', -, -⟩
    · obtain ⟨hf, -⟩ := CoroutinePool.available_iff.1 (hp.reusable i d hi')
      exact CoroutinePool.available_iff.2 ⟨hf, d, hi⟩
    · have hidx := (h.pool.ok.table i c.cor true hi').1
      omega

/-! ## Accepting a connection -/

theorem addNew_eq_some {start : Nat} (h : s.addNew z fd start = some s') :
    (∀ m ∈ s.pool.regions, Apart m.range (Memory.new z.stackSize z.poolSize start).range) ∧
      ∃ cor pool, s.pool.getCoroutineInstanse z s.inCoFunc start = some (cor, pool) ∧
        s' = { s with
          pool := pool
          clients := { fd := fd, cor := cor } :: s.clients
          overflowed := s.overflowed || (decide (cor.index = -1) && decide (s.clients.length < z.poolSize)) } := by
  unfold Server.addNew at h
  split at h
  · rename_i hap
    obtain ⟨⟨cor, pool⟩, hget, h⟩ := Option.map_eq_some_iff.1 h
    exact ⟨hap, cor, pool, hget, h.symm⟩
  · cases h

theorem Inv.addNew (h : Inv z s) (hfd : ∀ c ∈ s.clients, c.fd ≠ fd) {start : Nat}
    (hadd : s.addNew z fd start = some s') : Inv z s' := by
  obtain ⟨hap, cor, pool, hget, rfl⟩ := addNew_eq_some hadd
  have hnew : ConnOk s.inCoFunc { fd := fd, cor := cor } :=
    ⟨fun hp => absurd rfl hp, by simp, nofun, nofun⟩
  refine ⟨h.pool.get hap hget, fun i d hi => ?_, ?_, ?_, fun hov i hlt => ?_⟩
  · show d ∈ cor :: s.out
    rcases CoroutinePool.getCoroutineInstanse_cases hget with ⟨j, -, -, hslot, rfl⟩ | ⟨-, -, hsame, -⟩
    · rcases (CoroutinePool.set_slot hslot).1 hi with ⟨-, rfl, -⟩ | ⟨-, hi⟩
      · exact List.mem_cons_self
      · exact List.mem_cons_of_mem _ (h.busy i d hi)
    · change pool.freeCors[i]? = _ at hi
      rw [hsame] at hi
      exact List.mem_cons_of_mem _ (h.busy i d hi)
  · intro d hd
    rcases List.mem_cons.1 hd with rfl | hd
    · exact hnew
    · exact h.conns d hd
  · refine List.nodup_cons.2 ⟨fun hmem => ?_, h.fds⟩
    obtain ⟨d, hd, heq⟩ := List.mem_map.1 hmem
    exact hfd d hd heq
  · rcases CoroutinePool.getCoroutineInstanse_cases hget with ⟨j, hj, hav, -, rfl⟩ | ⟨hno, -, hsame, -⟩
    · -- a slot was available, so there is no further region
      rw [h.carved hov j hj] at hav
      cases hav
    · show pool.available s.inCoFunc i = false
      unfold CoroutinePool.available
      rw [hsame]
      exact hno i hlt

/-- With the property, a table that has nothing available has all its slots busy. -/
theorem GivesBack.le_length (hp : GivesBack z s) (h : Inv z s)
    (hno : ∀ i < z.poolSize, s.pool.available s.inCoFunc i = false) : z.poolSize ≤ s.clients.length + 1 := by
  have hbusy : ∀ i < z.poolSize, ∃ d ∈ s.out, s.pool.freeCors[i]? = some (d, true) := by
    intro i hi
    obtain ⟨⟨d, busy⟩, hd⟩ : ∃ slot, s.pool.freeCors[i]? = some slot :=
      ⟨_, List.getElem?_eq_getElem (h.pool.ok.length ▸ hi)⟩
    cases busy with
    | true => exact ⟨d, h.busy i d hd, hd⟩
    | false =>
      have hav := hp.reusable i d hd
      rw [hno i hi] at hav
      cases hav
  simpa [Server.out] using h.pool.ok.le_length hbusy

/-- Accepting a connection keeps the property but where it is the one that makes them as many as the
table has slots: the coroutine that accepts has one of these. -/
theorem givesBack_addNew (h : Inv z s) {start : Nat} (hinv : Inv z s') (hadd : s.addNew z fd start = some s') :
    GivesBack z s' ↔ GivesBack z s ∧ s.clients.length + 1 ≠ z.poolSize := by
  obtain ⟨-, cor, pool, hget, rfl⟩ := addNew_eq_some hadd
  rcases CoroutinePool.getCoroutineInstanse_cases hget with ⟨j, hj, hav, hslot, rfl⟩ | ⟨hno, hcarved, hsame, -⟩
  · have hidx := (h.pool.ok.table j cor false hslot).1
    have hroom : s.clients.length + 1 ≠ z.poolSize := by
      have hnil : s.pool.overflow = [] := by
        by_contra hov
        rw [h.carved hov j hj] at hav
        cases hav
      have hle := hinv.pool.length_le hnil
      simp only [Server.out, List.length_append, List.length_map, List.length_cons, List.length_nil] at hle
      omega
    have hpooled : decide (cor.index = -1) = false := decide_eq_false (by omega)
    constructor
    · intro hp
      refine ⟨⟨fun i d hi => ?_, ?_⟩, hroom⟩
      · by_cases hij : i = j
        · exact hij ▸ hav
        · have hav' := hp.reusable i d ((CoroutinePool.set_slot hslot).2 (.inr ⟨hij, hi⟩))
          obtain ⟨hf, -⟩ := CoroutinePool.available_iff.1 hav'
          exact CoroutinePool.available_iff.2 ⟨hf, d, hi⟩
      · have hov := hp.pooled
        change (s.overflowed || _) = false at hov
        rw [Bool.or_eq_false_iff] at hov
        exact hov.1
    · rintro ⟨hp, -⟩
      refine ⟨fun i d hi => ?_, ?_⟩
      · rcases (CoroutinePool.set_slot hslot).1 hi with ⟨-, -, hbusy⟩ | ⟨-, hi'⟩
        · cases hbusy
        · obtain ⟨hf, -⟩ := CoroutinePool.available_iff.1 (hp.reusable i d hi')
          exact CoroutinePool.available_iff.2 ⟨hf, d, hi⟩
      · show (s.overflowed || _) = false
        rw [hp.pooled, hpooled]
        rfl
  · have hreusable : (∀ (i : Nat) d, pool.freeCors[i]? = some (d, false) → pool.available s.inCoFunc i = true) ↔
        ∀ (i : Nat) d, s.pool.freeCors[i]? = some (d, false) → s.pool.available s.inCoFunc i = true := by
      unfold CoroutinePool.available
      rw [hsame]
    have hflag : (s.overflowed || (decide (cor.index = -1) && decide (s.clients.length < z.poolSize))) = false ↔
        s.overflowed = false ∧ z.poolSize ≤ s.clients.length := by
      rw [hcarved]
      simp
    constructor
    · intro hp
      obtain ⟨hov, hle⟩ := hflag.1 hp.pooled
      exact ⟨⟨hreusable.1 hp.reusable, hov⟩, by omega⟩
    · rintro ⟨hp, hne⟩
      have hle := hp.le_length h hno
      exact ⟨hreusable.2 hp.reusable, hflag.2 ⟨hp.pooled, by omega⟩⟩

/-! ## One step -/

/-- What a step does: it keeps the invariant, and the property exactly when it spares the table. -/
structure StepOk (z : PoolSizes) (s : Server) (a : Act) (s' : Server) : Prop where
  inv : Inv z s'
  gives : GivesBack z s → (GivesBack z s' ↔ Spares z s a)

theorem Quiet.stepOk (h : Quiet z s s') {a : Act} (hd : destroyed s a = none) (ha : accepting s a = none) :
    StepOk z s a s' := by
  refine ⟨h.inv, fun hp => ⟨fun _ => ⟨fun c hc => ?_, ?_⟩, fun _ => h.gives hp⟩⟩
  · rw [hd] at hc
    cases hc
  · rw [ha]
    nofun

theorem atPhase_eq_some {phase : CorPhase} {f : Conn → Server} (h : atPhase s fd phase f = some s') :
    ∃ c ∈ s.clients, c.phase = phase ∧ f c = s' := by
  obtain ⟨c, hc, h⟩ := Option.bind_eq_some_iff.1 h
  split at h
  · rename_i hphase
    cases h
    exact ⟨c, (client_mem hc).1, hphase, rfl⟩
  · cases h

theorem stepOk_accept (h : Inv z s) {start : Nat} (hstep : accept z s fd start = some s') :
    StepOk z s (.accept fd start) s' := by
  unfold accept at hstep
  split at hstep
  · rename_i hnone
    have hfd : ∀ c ∈ s.clients, c.fd ≠ fd := fun c hc heq => by
      simpa [heq] using List.find?_eq_none.1 hnone c hc
    have hothers : s.others fd = s.clients := List.filter_eq_self.2 fun c hc => decide_eq_true (hfd c hc)
    have hinv := h.addNew hfd hstep
    refine ⟨hinv, fun hp => ?_⟩
    rw [givesBack_addNew h hinv hstep]
    constructor
    · rintro ⟨-, hne⟩
      refine ⟨fun c hc => ?_, ?_⟩
      · rw [show destroyed s (.accept fd start) = none from hnone] at hc
        cases hc
      · show some ((s.others fd).length + 1) ≠ some z.poolSize
        rw [hothers]
        exact fun heq => hne (Option.some.inj heq)
    · intro hs
      exact ⟨hp, fun heq => hs.accepts (congrArg some (hothers.symm ▸ heq))⟩
  · rename_i c hc
    obtain ⟨hmem, rfl⟩ := client_mem hc
    split at hstep
    · cases hstep
    · -- the descriptor was closed: the connection is destroyed first
      rename_i hopen
      have hclosed : c.state = .Closed ∨ c.fdOpen = false := .inr (Bool.not_eq_true _ ▸ hopen)
      have hmid := h.destroy hmem hclosed
      have hinv := hmid.addNew (fun d hd => (mem_others.1 hd).2) hstep
      refine ⟨hinv, fun hp => ?_⟩
      rw [givesBack_addNew hmid hinv hstep, givesBack_destroy h hmem hclosed hp]
      constructor
      · rintro ⟨hcarved, hne⟩
        refine ⟨fun d hd => ?_, fun heq => hne (Option.some.inj heq)⟩
        rw [show destroyed s (.accept c.fd start) = some c from hc] at hd
        cases hd
        exact hcarved
      · intro hs
        exact ⟨hs.destroys c hc, fun heq => hs.accepts (congrArg some heq)⟩

theorem stepOk_clear (h : Inv z s) (hc : s.client fd = some c) :
    StepOk z s (.clear fd) (if c.state = .Closed then s.destroy z c else s) := by
  obtain ⟨hmem, -⟩ := client_mem hc
  have hdestroyed : destroyed s (.clear fd) = (some c).filter (·.state = .Closed) := congrArg (Option.filter _) hc
  split
  · rename_i hclosed
    rw [Option.filter_some, if_pos (decide_eq_true hclosed)] at hdestroyed
    refine ⟨h.destroy hmem (.inl hclosed), fun hp => ?_⟩
    rw [givesBack_destroy h hmem (.inl hclosed) hp]
    refine ⟨fun hcarved => ⟨fun d hd => ?_, nofun⟩, fun hs => hs.destroys c hdestroyed⟩
    rw [hdestroyed] at hd
    cases hd
    exact hcarved
  · rename_i hopen
    rw [Option.filter_some, if_neg (by simpa using hopen)] at hdestroyed
    have hq : Quiet z s s := ⟨h, id⟩
    exact hq.stepOk hdestroyed rfl

theorem stepOk_step (h : Inv z s) {a : Act} (hstep : step z s a = some s') : StepOk z s a s' := by
  cases a with
  | accept fd start => exact stepOk_accept h hstep
  | resume fd =>
    obtain ⟨c, hc, rfl⟩ := Option.map_eq_some_iff.1 hstep
    exact (quiet_resume h (client_mem hc).1).stepOk rfl rfl
  | head fd =>
    obtain ⟨c, hc, hphase, rfl⟩ := atPhase_eq_some hstep
    exact (quiet_loopHead h hc hphase).stepOk rfl rfl
  | serve fd =>
    obtain ⟨c, hc, hphase, rfl⟩ := atPhase_eq_some hstep
    exact (quiet_serve h hc hphase).stepOk rfl rfl
  | close fd =>
    obtain ⟨c, hc, hphase, rfl⟩ := atPhase_eq_some hstep
    exact (quiet_close h hc hphase).stepOk rfl rfl
  | park fd =>
    obtain ⟨c, hc, hphase, rfl⟩ := atPhase_eq_some hstep
    exact (quiet_park h hc hphase).stepOk rfl rfl
  | shutdown fd =>
    obtain ⟨c, hc, rfl⟩ := Option.map_eq_some_iff.1 hstep
    exact (quiet_shutdown h (client_mem hc).1).stepOk rfl rfl
  | clear fd =>
    obtain ⟨c, hc, rfl⟩ := Option.map_eq_some_iff.1 hstep
    exact stepOk_clear h hc

end

/-! ## Runs -/

/-- The accept coroutine has a slot of the table, and is in its function; the other slots are free. -/
theorem start_ok {z : PoolSizes} {base : Nat} {s : Server} (h : start z base = some s) : Inv z s ∧ GivesBack z s := by
  obtain ⟨⟨cor, pool⟩, hget, rfl⟩ := Option.map_eq_some_iff.1 h
  have hok := CoroutinePool.ok_new z base
  rcases CoroutinePool.getCoroutineInstanse_cases hget with ⟨i, hi, -, hslot, rfl⟩ | ⟨hno, -⟩
  · have hidx := (hok.table i cor false hslot).1
    have hh := CoroutinePool.hands_pooled hok hslot
    refine ⟨⟨⟨hh.ok, ?_, List.nodup_singleton _⟩, fun j d hj => ?_, fun c hc => absurd hc List.not_mem_nil, .nil,
      fun hov => absurd rfl hov⟩, fun j d hj => ?_, rfl⟩
    · intro d hd
      rw [List.mem_singleton.1 hd]
      exact hh.self
    · rcases (CoroutinePool.set_slot hslot).1 hj with ⟨-, rfl, -⟩ | ⟨-, hj⟩
      · exact List.mem_singleton_self _
      · cases CoroutinePool.new_free hj
    · rcases (CoroutinePool.set_slot hslot).1 hj with ⟨-, -, hbusy⟩ | ⟨hji, -⟩
      · cases hbusy
      · refine CoroutinePool.available_iff.2 ⟨?_, d, hj⟩
        show setIsInCoFunc (fun _ => false) cor true j = false
        unfold setIsInCoFunc
        rw [if_pos (by omega), update_of_ne]
        omega
  · -- the first slot is available
    have hlt : 0 < (CoroutinePool.new z base).freeCors.length := hok.length ▸ z.pool_pos
    have hfirst := List.getElem?_eq_getElem hlt
    have hav : (CoroutinePool.new z base).available (fun _ => false) 0 = true :=
      CoroutinePool.available_iff.2 ⟨rfl, _, hfirst.trans (by rw [← CoroutinePool.new_free hfirst])⟩
    rw [hno 0 z.pool_pos] at hav
    cases hav

/-- Closed connections give their coroutine back in the runs that destroy no connection with a coroutine
of the table, and accept none as the one that makes the connections as many as its slots. -/
theorem givesBack_iff {z : PoolSizes} {base : Nat} {s : Server} (h : start z base = some s) (as : List Act) :
    Lts.Always (step z) (GivesBack z) s as ↔ Lts.Along (step z) (Spares z) s as :=
  Lts.always_iff_along (I := Inv z) (fun _ _ _ hs hstep => (stepOk_step hs hstep).inv)
    (fun _ _ _ hs hp hstep => (stepOk_step hs hstep).gives hp) (start_ok h).1 (start_ok h).2

/-- Two coroutines in the table. -/
def twoPooled : PoolSizes := ⟨2, 32, by decide, by decide, by decide⟩

/-- A connection is accepted, answers one request and is shut down by the time wheel. -/
theorem givesBack_served : ∃ s, start twoPooled 1000 = some s ∧
    Lts.Always (step twoPooled) (GivesBack twoPooled) s
      [.accept 5 2000, .resume 5, .head 5, .serve 5, .shutdown 5] := by
  obtain ⟨s, hs, hfree⟩ : ∃ s, start twoPooled 1000 = some s ∧ Lts.Along (step twoPooled) (Spares twoPooled) s
      [.accept 5 2000, .resume 5, .head 5, .serve 5, .shutdown 5] := ⟨_, rfl, by decide⟩
  exact ⟨s, hs, (givesBack_iff hs _).2 hfree⟩

/-- A connection is accepted, closed by its peer and destroyed; its slot is not handed out again. -/
theorem not_givesBack_closed : ¬ ∀ (z : PoolSizes) (base : Nat) (s : Server) (as : List Act),
    start z base = some s → Lts.Always (step z) (GivesBack z) s as := by
  intro h
  have hrun : ∃ s s', start twoPooled 1000 = some s ∧
      Lts.run (step twoPooled) s [.accept 5 2000, .resume 5, .head 5, .close 5, .park 5, .clear 5] = some s' ∧
      s'.pool.freeCors[1]? = some (⟨1, 1032⟩, false) ∧ s'.pool.available s'.inCoFunc 1 = false :=
    ⟨_, _, rfl, rfl, rfl, rfl⟩
  obtain ⟨s, s', hs, hs', hslot, hno⟩ := hrun
  have hp := (h _ _ s _ hs).last hs'
  rw [hp.reusable 1 _ hslot] at hno
  cases hno

end Flconc.TcpServer
