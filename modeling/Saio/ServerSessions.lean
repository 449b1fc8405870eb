import Saio.CatchUp
import Saio.Machine
import Mathlib.Tactic

/-!
# One kernel behind all processes

The processes of a server share the kernel, and the rings, flags and counters
of the module.  Each process makes its calls in its own order, and the workers
of all sets execute them in an order of their own.

A server has the machine of all processes and the state of the one kernel.  In
every interleaving, carrying out the pending calls of all processes, in the
order in which they were made, leads to the kernel of processes without the
library, provided that these would ask for the same calls.  What was shown for
one process carries over because its share of the machine runs as if it were
alone, and because calls of different processes act on different sockets.
-/

namespace Saio

open FifoBank

variable {κ μ ω π ς : Type} {dep : Deployment κ μ} {access : FlagAccess}
  {apply : ω → μ → μ}

/-! ## A session without the rings of others -/

theorem System.RingMoves.only {sys moved : System κ μ}
    {base : ℤ → KernelWorker} {k : ℤ} {action : RingAction}
    (hset : dep.InSet k)
    (hmoves : System.RingMoves dep sys moved k action) :
    System.RingMoves dep (sys.only dep base) (moved.only dep base) k
      action where
  moved := by
    rw [System.only_ring hset, System.only_ring hset]
    exact hmoves.moved
  others := by
    intro n hn
    by_cases hin : dep.InSet n
    · rw [System.only_ring hin, System.only_ring hin]
      exact hmoves.others n hn
    · simp only [System.ring, System.only, if_neg hin]

namespace Session

variable {meaning : CallMeaning κ μ π ς} {base : ℤ → KernelWorker}
  {session next : Session κ μ ς}

def only (dep : Deployment κ μ) (base : ℤ → KernelWorker)
    (session : Session κ μ ς) : Session κ μ ς :=
  { session with
    proc := { session.proc with sys := session.proc.sys.only dep base } }

theorem only_queuedBy {sys : System κ μ} {action : SystemAction κ}
    (hcalls : sys.NonNegativeCalls dep action) :
    (sys.only dep base).queuedBy dep action = sys.queuedBy dep action := by
  cases action with
  | call source =>
      have hset : dep.InSet (dep.route source) :=
        dep.inSet_ringIndex hcalls
      simp only [System.queuedBy, System.only_inSegment,
        System.only_memory, System.prepared, System.only_ring hset]
  | _ => rfl

theorem only_directWrites (meaning : CallMeaning κ μ π ς)
    (sys later : System κ μ) (queued more : List (Queued κ μ))
    (kernel : ς) (action : ProcessAction κ ω) :
    meaning.directWrites ⟨sys.only dep base, queued⟩ kernel action
        ⟨later.only dep base, more⟩ =
      let written := meaning.directWrites ⟨sys, queued⟩ kernel action
        ⟨later, more⟩
      ⟨written.sys.only dep base, written.queued⟩ := by
  unfold CallMeaning.directWrites
  split
  next =>
    rw [System.only_inSegment]
    cases sys.inSegment <;> rfl
  next => rfl

/-- On non-negative descriptors a session reads and writes rings of its own
set only. -/
theorem only_step {action : SessionAction κ ω}
    (huser : session.proc.sys.user.InSet dep)
    (hscans : session.proc.sys.ScansInSet dep)
    (hcalls : session.NonNegativeCalls dep action) :
    (session.only dep base).step dep access apply meaning action =
      (session.step dep access apply meaning action).map
        (only dep base) := by
  cases action with
  | toggleRegion =>
      simp only [step, only, System.only_user]
      split <;> rfl
  | process action =>
      cases action with
      | store value =>
          simp only [step, Process.step, only, System.only_user]
          cases session.proc.sys.user <;> rfl
      | library action =>
          have hqueued : (session.proc.sys.only dep base).queuedBy dep
              action = _ := only_queuedBy hcalls
          have hsys : (session.proc.sys.only dep base).step dep access
              action = _ := System.only_step huser hscans hcalls
          simp only [step, Process.step, only, hsys, hqueued]
          cases session.proc.sys.step dep access action with
          | none => rfl
          | some later =>
              simp only [Option.map_some, only_directWrites]
              rfl

/-- A step leaves the rings of other sets as they are. -/
theorem step_frame {action : SessionAction κ ω}
    (huser : session.proc.sys.user.InSet dep)
    (hscans : session.proc.sys.ScansInSet dep)
    (hcalls : session.NonNegativeCalls dep action)
    (hstep : session.step dep access apply meaning action = some next)
    {k : ℤ} (hout : ¬ dep.InSet k) :
    next.proc.sys.workers k = session.proc.sys.workers k := by
  rcases step_system hstep with ⟨inner, rfl, hsys⟩ | ⟨_, hsame, _⟩
  · exact System.step_frame huser hscans hcalls hsys hout
  · rw [hsame]

theorem confined_afterStep {action : SessionAction κ ω}
    (hconfined : session.proc.sys.Confined dep)
    (hcalls : session.NonNegativeCalls dep action)
    (hstep : session.step dep access apply meaning action = some next) :
    next.proc.sys.Confined dep := by
  rcases step_system hstep with ⟨inner, rfl, hsys⟩ | ⟨_, hsame, huser⟩
  · exact hconfined.afterStep hcalls hsys
  · refine ⟨?_, ?_⟩
    · rw [huser]
      exact hconfined.user
    · unfold System.ScansFromFirst
      rw [hsame]
      exact hconfined.scans

end Session

/-! ## The server -/

structure Server (κ μ π ς : Type) where
  machine : Machine κ μ
  /-- The calls that each process has put on its rings. -/
  queued : ℕ → List (Queued κ μ)
  /-- What the queued calls of all processes ask for, each with its ring and
  its process, in the order in which they were made. -/
  asked : List (ℤ × ℕ × π)
  kernel : ς
  /-- The kernel of the processes without the library. -/
  unbatched : ς
  /-- The memory of each process without the library. -/
  plain : ℕ → μ

namespace Server

variable {meaning : ℕ → CallMeaning κ μ π ς}
  {server later final : Server κ μ π ς}
  {pages : ℤ → ℕ → ℕ → TableEntry} {memory : ℕ → μ} {k : ℤ}

/-- Process `id` with all rings and the kernel in view. -/
def session (server : Server κ μ π ς) (id : ℕ) : Session κ μ ς :=
  ⟨⟨server.machine.view id, server.queued id⟩, server.kernel,
    server.unbatched, server.plain id⟩

/-- Process `id` with the rings of its set, and the others as they were
registered. -/
def share (dep : Deployment κ μ) (pages : ℤ → ℕ → ℕ → TableEntry)
    (id : ℕ) (server : Server κ μ π ς) : Session κ μ ς :=
  (server.session id).only (dep.ofWorker id) fun k =>
    KernelWorker.register dep.toTableConfig (pages k)

/-- Process `id` has become `next`. -/
def become (meaning : ℕ → CallMeaning κ μ π ς)
    (server : Server κ μ π ς) (id : ℕ) (next : Session κ μ ς) :
    Server κ μ π ς where
  machine := ⟨next.proc.sys.workers,
    Function.update server.machine.sides id next.proc.sys.side⟩
  queued := Function.update server.queued id next.proc.queued
  asked := server.asked ++
    ((next.proc.askedLog (meaning id)).drop
      ((server.session id).proc.askedLog (meaning id)).length).map
      fun item => (item.1, id, item.2)
  kernel := next.kernel
  unbatched := next.unbatched
  plain := Function.update server.plain id next.plain

def step (dep : Deployment κ μ) (access : FlagAccess)
    (apply : ω → μ → μ) (meaning : ℕ → CallMeaning κ μ π ς)
    (server : Server κ μ π ς) (action : ℕ × SessionAction κ ω) :
    Option (Server κ μ π ς) :=
  if dep.HasRings action.1 then
    ((server.session action.1).step (dep.ofWorker action.1) access apply
      (meaning action.1) action.2).map (server.become meaning action.1)
  else none

def init (dep : Deployment κ μ) (pages : ℤ → ℕ → ℕ → TableEntry)
    (memory : ℕ → μ) (kernel : ς) : Server κ μ π ς where
  machine := Machine.init dep pages memory
  queued := fun _ => []
  asked := []
  kernel := kernel
  unbatched := kernel
  plain := memory

/-- How many entries of each ring are executed. -/
def executedCount (server : Server κ μ π ς) (k : ℤ) : ℕ :=
  (server.machine.workers k).ring.executed.length

/-- What the pending calls of all processes ask for, in the order of the
calls. -/
def pendingLog (server : Server κ μ π ς) : List (ℤ × ℕ × π) :=
  waiting server.executedCount server.asked

/-- What a call of a process does to the kernel. -/
def effect (meaning : ℕ → CallMeaning κ μ π ς) (ask : ℕ × π) :
    ς → ς :=
  (meaning ask.1).effect ask.2

theorem share_init (dep : Deployment κ μ)
    (pages : ℤ → ℕ → ℕ → TableEntry) (memory : ℕ → μ) (kernel : ς)
    (id : ℕ) :
    (init dep pages memory kernel : Server κ μ π ς).share dep pages id =
      Session.init (dep.ofWorker id) pages (memory id) kernel := by
  have hsys := Machine.share_init dep pages memory id
  unfold share Session.only session init Session.init Process.init
  simp only
  rw [← hsys]
  rfl

/-! ## The shares of a step -/

section Shares

variable {id : ℕ} {action : SessionAction κ ω} {next : Session κ μ ς}

theorem step_become
    (hstep : server.step dep access apply meaning (id, action) =
      some later) :
    ∃ next, (server.session id).step (dep.ofWorker id) access apply
        (meaning id) action = some next ∧
      later = server.become meaning id next := by
  obtain ⟨_, hstep⟩ := Option.ite_none_right_eq_some.mp hstep
  obtain ⟨next, hnext, hlater⟩ := Option.map_eq_some_iff.mp hstep
  exact ⟨next, hnext, hlater.symm⟩

theorem share_become_self :
    (server.become meaning id next).share dep pages id =
      next.only (dep.ofWorker id) fun k =>
        KernelWorker.register dep.toTableConfig (pages k) := by
  simp only [share, session, become, Machine.view, Function.update_self]
  rfl

/-- The process takes the step in its share. -/
theorem share_step
    (hconfined : (server.share dep pages id).proc.sys.Confined
      (dep.ofWorker id))
    (hcalls : (server.session id).NonNegativeCalls (dep.ofWorker id)
      action)
    (hnext : (server.session id).step (dep.ofWorker id) access apply
      (meaning id) action = some next) :
    (server.share dep pages id).step (dep.ofWorker id) access apply
      (meaning id) action =
        some ((server.become meaning id next).share dep pages id) := by
  have hlocal : (server.share dep pages id).step (dep.ofWorker id) access
      apply (meaning id) action = _ :=
    Session.only_step hconfined.user hconfined.scansInSet hcalls
  rw [hlocal, hnext, share_become_self]
  rfl

theorem workers_frame
    (hconfined : (server.share dep pages id).proc.sys.Confined
      (dep.ofWorker id))
    (hcalls : (server.session id).NonNegativeCalls (dep.ofWorker id)
      action)
    (hnext : (server.session id).step (dep.ofWorker id) access apply
      (meaning id) action = some next)
    (hout : ¬ (dep.ofWorker id).InSet k) :
    next.proc.sys.workers k = server.machine.workers k := by
  have huser : (server.session id).proc.sys.user.InSet
      (dep.ofWorker id) := hconfined.user
  exact Session.step_frame huser hconfined.scansInSet hcalls hnext hout

/-- The other processes do not see it. -/
theorem share_foreign
    (hconfined : (server.share dep pages id).proc.sys.Confined
      (dep.ofWorker id))
    (hcalls : (server.session id).NonNegativeCalls (dep.ofWorker id)
      action)
    (hnext : (server.session id).step (dep.ofWorker id) access apply
      (meaning id) action = some next) {q : ℕ} (hq : q ≠ id) :
    ((server.become meaning id next).share dep pages q).proc =
      (server.share dep pages q).proc := by
  simp only [share, session, become, Session.only, Machine.view,
    Function.update_of_ne hq, System.only, UserSide.system]
  congr 2
  funext k
  split
  next hset =>
    apply workers_frame hconfined hcalls hnext
    intro hown
    exact hq (dep.ofWorker_disjoint hset hown)
  next => rfl

theorem executedCount_of_inSet (hset : (dep.ofWorker id).InSet k)
    (htracked : (server.share dep pages id).proc.Tracked
      (dep.ofWorker id)) :
    server.executedCount k =
      (server.share dep pages id).proc.executedCount k := by
  have hring : (server.share dep pages id).proc.sys.ring k =
      (server.machine.workers k).ring := System.only_ring hset
  rw [htracked.executedCount_eq, hring]
  rfl

end Shares

/-! ## The logs -/

/-- The log of all calls holds, ring by ring, the log of the process that the
ring belongs to. -/
structure Logged (dep : Deployment κ μ)
    (meaning : ℕ → CallMeaning κ μ π ς) (server : Server κ μ π ς) :
    Prop where
  owner : ∀ item ∈ server.asked, (dep.ofWorker item.2.1).InSet item.1
  own : ∀ id, ∀ item ∈ (server.session id).proc.askedLog (meaning id),
    (dep.ofWorker id).InSet item.1
  lanes : ∀ id k, (dep.ofWorker id).InSet k →
    lane k server.asked =
      (lane k ((server.session id).proc.askedLog (meaning id))).map
        (Prod.mk id)

theorem init_logged (dep : Deployment κ μ)
    (pages : ℤ → ℕ → ℕ → TableEntry) (memory : ℕ → μ) (kernel : ς) :
    (init dep pages memory kernel).Logged dep meaning where
  owner := by simp [init]
  own := by simp [init, session, Process.askedLog]
  lanes := fun _ _ _ => rfl

theorem askedLog_become {id q : ℕ} {next : Session κ μ ς}
    (hq : q ≠ id) :
    ((server.become meaning id next).session q).proc.askedLog
        (meaning q) =
      (server.session q).proc.askedLog (meaning q) := by
  simp only [Process.askedLog, session, become, Function.update_of_ne hq]

theorem askedLog_become_self {id : ℕ} {next : Session κ μ ς} :
    ((server.become meaning id next).session id).proc.askedLog
        (meaning id) = next.proc.askedLog (meaning id) := by
  simp only [Process.askedLog, session, become, Function.update_self]

namespace Logged

variable {id : ℕ} {next : Session κ μ ς} {ask : π}

theorem of_same (hlogged : server.Logged dep meaning)
    (hlog : next.proc.askedLog (meaning id) =
      (server.session id).proc.askedLog (meaning id)) :
    (server.become meaning id next).asked = server.asked ∧
      (server.become meaning id next).Logged dep meaning := by
  have hasked : (server.become meaning id next).asked = server.asked := by
    simp [become, hlog]
  have hsame : ∀ q,
      ((server.become meaning id next).session q).proc.askedLog
          (meaning q) =
        (server.session q).proc.askedLog (meaning q) := by
    intro q
    by_cases hq : q = id
    · rw [hq, askedLog_become_self, hlog]
    · exact askedLog_become hq
  refine ⟨hasked, ?_, ?_, ?_⟩
  · rw [hasked]
    exact hlogged.owner
  · intro q
    rw [hsame q]
    exact hlogged.own q
  · intro q k hset
    rw [hasked, hsame q]
    exact hlogged.lanes q k hset

theorem afterSend (hlogged : server.Logged dep meaning) {n : ℤ}
    (hset : (dep.ofWorker id).InSet n)
    (hlog : next.proc.askedLog (meaning id) =
      (server.session id).proc.askedLog (meaning id) ++ [(n, ask)]) :
    (server.become meaning id next).asked =
        server.asked ++ [(n, id, ask)] ∧
      (server.become meaning id next).Logged dep meaning := by
  have hasked : (server.become meaning id next).asked =
      server.asked ++ [(n, id, ask)] := by
    simp [become, hlog]
  refine ⟨hasked, ?_, ?_, ?_⟩
  · intro item hmem
    rw [hasked, List.mem_append, List.mem_singleton] at hmem
    rcases hmem with hbefore | rfl
    · exact hlogged.owner item hbefore
    · exact hset
  · intro q item hmem
    by_cases hq : q = id
    · subst q
      rw [askedLog_become_self, hlog, List.mem_append,
        List.mem_singleton] at hmem
      rcases hmem with hbefore | rfl
      · exact hlogged.own id item hbefore
      · exact hset
    · rw [askedLog_become hq] at hmem
      exact hlogged.own q item hmem
  · intro q k hk
    rw [hasked, lane_append, hlogged.lanes q k hk]
    by_cases hq : q = id
    · subst q
      rw [askedLog_become_self, hlog, lane_append, List.map_append]
      by_cases hring : n = k
      · subst n
        simp
      · simp [lane_singleton_of_ne hring]
    · have hring : n ≠ k := by
        rintro rfl
        exact hq (dep.ofWorker_disjoint hk hset)
      rw [askedLog_become hq, lane_singleton_of_ne hring,
        List.append_nil]

/-- A call in the log of all calls is one in the log of its process. -/
theorem mem_askedLog (hlogged : server.Logged dep meaning)
    {item : ℤ × ℕ × π} (hmem : item ∈ server.asked) :
    (item.1, item.2.2) ∈
      (server.session item.2.1).proc.askedLog (meaning item.2.1) := by
  obtain ⟨n, q, value⟩ := item
  have hset := hlogged.owner _ hmem
  have hlane : (q, value) ∈ lane n server.asked := mem_lane.mpr hmem
  rw [hlogged.lanes q n hset, List.mem_map] at hlane
  obtain ⟨other, hother, hpair⟩ := hlane
  obtain ⟨_, rfl⟩ := Prod.mk.inj hpair
  exact mem_lane.mp hother

end Logged

/-! ## One step -/

/-- Calls on different sockets of a process commute, and so do calls of
different processes. -/
structure Separate (dep : Deployment κ μ)
    (meaning : ℕ → CallMeaning κ μ π ς) (socket : π → ℤ) : Prop where
  sockets : ∀ id, (meaning id).BySocket (dep.ofWorker id) socket
  processes : ∀ p q, p ≠ q → ∀ first second,
    Function.Commute ((meaning p).effect first)
      ((meaning q).effect second)

/-- Carrying out the pending calls of all processes leads to the kernel of
direct calls. -/
structure Settled (dep : Deployment κ μ)
    (pages : ℤ → ℕ → ℕ → TableEntry)
    (meaning : ℕ → CallMeaning κ μ π ς) (server : Server κ μ π ς) :
    Prop where
  tracked : ∀ id, (server.share dep pages id).proc.Tracked
    (dep.ofWorker id)
  confined : ∀ id, (server.share dep pages id).proc.sys.Confined
    (dep.ofWorker id)
  logged : server.Logged dep meaning
  settles : Settles (effect meaning) server.executedCount server.asked
    server.kernel server.unbatched

theorem init_settled (dep : Deployment κ μ)
    (pages : ℤ → ℕ → ℕ → TableEntry) (memory : ℕ → μ) (kernel : ς) :
    (init dep pages memory kernel).Settled dep pages meaning where
  tracked := by
    intro id
    rw [share_init]
    exact Process.init_tracked _ pages (memory id)
  confined := by
    intro id
    rw [share_init]
    exact System.initWorker_confined _ pages (memory id)
  logged := init_logged dep pages memory kernel
  settles := rfl

namespace Settled

variable {socket : π → ℤ} {id : ℕ} {action : SessionAction κ ω}
  {next : Session κ μ ς}

theorem executedCount_le (hsettled : server.Settled dep pages meaning)
    (hset : (dep.ofWorker id).InSet k) :
    server.executedCount k ≤ (lane k server.asked).length := by
  rw [executedCount_of_inSet hset (hsettled.tracked id),
    hsettled.logged.lanes id k hset, List.length_map]
  exact (hsettled.tracked id).executedCount_le k

/-- A pending call is one of its process. -/
theorem mem_pendingLog (hsettled : server.Settled dep pages meaning)
    {item : ℤ × ℕ × π} (hmem : item ∈ server.pendingLog) :
    (item.1, item.2.2) ∈
      (server.session item.2.1).proc.pendingLog (meaning item.2.1) := by
  obtain ⟨n, q, value⟩ := item
  have hset := hsettled.logged.owner _ (mem_of_mem_waiting hmem)
  have hdrop := mem_waiting_iff.mp hmem
  rw [hsettled.logged.lanes q n hset,
    executedCount_of_inSet hset (hsettled.tracked q), ← List.map_drop,
    List.mem_map] at hdrop
  obtain ⟨other, hother, hpair⟩ := hdrop
  obtain ⟨_, rfl⟩ := Prod.mk.inj hpair
  exact mem_waiting_iff.mpr hother

/-- Pending calls of different rings commute. -/
theorem lanesCommute (hsettled : server.Settled dep pages meaning)
    (hseparate : Separate dep meaning socket) :
    LanesCommute (effect meaning) server.executedCount server.asked := by
  rintro ⟨n, p, value⟩ hfirst ⟨m, q, other⟩ hsecond hne
  by_cases hpq : p = q
  · subst q
    apply (hseparate.sockets p).commute
    exact (hseparate.sockets p).socket_ne_of_asked (hsettled.tracked p)
      (hsettled.logged.mem_askedLog (mem_of_mem_waiting hfirst))
      (hsettled.logged.mem_askedLog (mem_of_mem_waiting hsecond)) hne
  · exact hseparate.processes p q hpq value other

/-- A call outside a segment commutes with the pending calls of all
processes. -/
theorem direct_commutes (hsettled : server.Settled dep pages meaning)
    (hseparate : Separate dep meaning socket) {ask : π}
    (hidle : ∀ pending ∈ (server.session id).proc.pendingLog (meaning id),
      socket pending.2 ≠ socket ask) :
    ∀ other ∈ waiting server.executedCount server.asked,
      Function.Commute (effect meaning other.2)
        (effect meaning (id, ask)) := by
  rintro ⟨n, q, value⟩ hmem
  by_cases hq : q = id
  · subst q
    exact (hseparate.sockets id).commute _ _
      (hidle _ (hsettled.mem_pendingLog hmem))
  · exact hseparate.processes q id hq value ask

/-- The memory behind the pending entries of a process is intact in its
share. -/
theorem share_intact (hsettled : server.Settled dep pages meaning)
    (hintact : (server.session id).proc.Intact (meaning id).read
      (meaning id).meant) :
    (server.share dep pages id).proc.Intact (meaning id).read
      (meaning id).meant := by
  rintro n m call ⟨hcall, hpending⟩
  have hset : (dep.ofWorker id).InSet n := by
    apply hsettled.logged.own id (n, (meaning id).meant call.source
      call.memory)
    apply mem_lane.mp
    rw [Process.askedLog_lane]
    exact List.mem_map_of_mem (List.mem_of_getElem? hcall)
  have hring : (server.share dep pages id).proc.sys.ring n =
      (server.session id).proc.sys.ring n := System.only_ring hset
  rw [hring] at hpending
  exact hintact n m call ⟨hcall, hpending⟩

theorem share_noOverrun (hsettled : server.Settled dep pages meaning)
    (hsafe : (server.session id).NoOverrun (dep.ofWorker id) action) :
    (server.share dep pages id).NoOverrun (dep.ofWorker id) action := by
  cases action with
  | toggleRegion => trivial
  | process action =>
      cases action with
      | store value => trivial
      | library action =>
          have huser : (server.session id).proc.sys.user.InSet
              (dep.ofWorker id) := (hsettled.confined id).user
          exact System.only_noOverrun huser hsafe

theorem tracked_become (hsettled : server.Settled dep pages meaning)
    (hsafe : (server.session id).NoOverrun (dep.ofWorker id) action)
    (hcalls : (server.session id).NonNegativeCalls (dep.ofWorker id)
      action)
    (hnext : (server.session id).step (dep.ofWorker id) access apply
      (meaning id) action = some next) (q : ℕ) :
    ((server.become meaning id next).share dep pages q).proc.Tracked
      (dep.ofWorker q) := by
  by_cases hq : q = id
  · subst q
    exact Session.tracked_afterStep (hsettled.tracked id)
      (hsettled.share_noOverrun hsafe)
      (share_step (hsettled.confined id) hcalls hnext)
  · rw [share_foreign (hsettled.confined id) hcalls hnext hq]
    exact hsettled.tracked q

theorem confined_become (hsettled : server.Settled dep pages meaning)
    (hcalls : (server.session id).NonNegativeCalls (dep.ofWorker id)
      action)
    (hnext : (server.session id).step (dep.ofWorker id) access apply
      (meaning id) action = some next) (q : ℕ) :
    ((server.become meaning id next).share dep pages
      q).proc.sys.Confined (dep.ofWorker q) := by
  by_cases hq : q = id
  · subst q
    have hlocal : (server.share dep pages id).NonNegativeCalls
        (dep.ofWorker id) action := hcalls
    exact Session.confined_afterStep (hsettled.confined id) hlocal
      (share_step (hsettled.confined id) hcalls hnext)
  · rw [share_foreign (hsettled.confined id) hcalls hnext hq]
    exact hsettled.confined q

/-- What is executed by a step is executed in the share of its process. -/
theorem executedCount_become
    (hsettled : server.Settled dep pages meaning)
    (hsafe : (server.session id).NoOverrun (dep.ofWorker id) action)
    (hcalls : (server.session id).NonNegativeCalls (dep.ofWorker id)
      action)
    (hnext : (server.session id).step (dep.ofWorker id) access apply
      (meaning id) action = some next) (k : ℤ) :
    (server.become meaning id next).executedCount k =
      if (dep.ofWorker id).InSet k then
        ((server.become meaning id next).share dep pages
          id).proc.executedCount k
      else server.executedCount k := by
  split
  next hset =>
    exact executedCount_of_inSet hset
      (hsettled.tracked_become hsafe hcalls hnext id)
  next hout =>
    have hsame : next.proc.sys.workers k = server.machine.workers k :=
      workers_frame (hsettled.confined id) hcalls hnext hout
    exact congrArg (fun worker : KernelWorker =>
      worker.ring.executed.length) hsame

theorem counts_of_same (hsettled : server.Settled dep pages meaning)
    (hsafe : (server.session id).NoOverrun (dep.ofWorker id) action)
    (hcalls : (server.session id).NonNegativeCalls (dep.ofWorker id)
      action)
    (hnext : (server.session id).step (dep.ofWorker id) access apply
      (meaning id) action = some next)
    (hexecuted : next.proc.sys.executed =
      (server.session id).proc.sys.executed) :
    (server.become meaning id next).executedCount =
      server.executedCount := by
  funext k
  rw [hsettled.executedCount_become hsafe hcalls hnext k]
  split
  next hset =>
    rw [executedCount_of_inSet hset (hsettled.tracked id),
      share_become_self]
    exact congrFun (Process.executedCount_of_same hexecuted) k
  next => rfl

theorem counts_of_execute (hsettled : server.Settled dep pages meaning)
    (hsafe : (server.session id).NoOverrun (dep.ofWorker id) action)
    (hcalls : (server.session id).NonNegativeCalls (dep.ofWorker id)
      action)
    (hnext : (server.session id).step (dep.ofWorker id) access apply
      (meaning id) action = some next) {n : ℤ} {entry : SysCall}
    {held : μ} (hn : (dep.ofWorker id).InSet n)
    (hexecuted : next.proc.sys.executed =
      (server.session id).proc.sys.executed ++ [⟨n, entry, held⟩]) :
    (server.become meaning id next).executedCount =
      Function.update server.executedCount n
        (server.executedCount n + 1) := by
  have hcounts : next.proc.executedCount = _ :=
    Process.executedCount_of_execute hexecuted
  funext k
  rw [hsettled.executedCount_become hsafe hcalls hnext k,
    share_become_self]
  have hown : ∀ m, (dep.ofWorker id).InSet m →
      server.executedCount m =
        (server.session id).proc.executedCount m := by
    intro m hm
    exact executedCount_of_inSet hm (hsettled.tracked id)
  by_cases hring : k = n
  · subst k
    rw [if_pos hn, Function.update_self, hown n hn]
    exact (congrFun hcounts n).trans (Function.update_self _ _ _)
  · rw [Function.update_of_ne hring]
    split
    next hset =>
      rw [hown k hset]
      exact (congrFun hcounts k).trans
        (Function.update_of_ne hring _ _)
    next => rfl

/-- The entry that a worker executes is the first pending call of its ring. -/
theorem front_of_execute (hsettled : server.Settled dep pages meaning)
    (hshares : dep.SharesEntries) {n : ℤ} (hset : (dep.ofWorker id).InSet n)
    (hintact : (server.session id).proc.Intact (meaning id).read
      (meaning id).meant)
    (hmoves : System.RingMoves (dep.ofWorker id)
      (server.session id).proc.sys next.proc.sys n .execute) :
    (lane n server.asked)[server.executedCount n]? =
      some (id, (meaning id).read
        ((server.session id).proc.sys.ring n).cursorEntry.call
        (server.session id).proc.sys.memory) := by
  have hring : (server.share dep pages id).proc.sys.ring n =
      (server.session id).proc.sys.ring n := System.only_ring hset
  have hlocal : System.RingMoves (dep.ofWorker id)
      (server.share dep pages id).proc.sys
      (next.only (dep.ofWorker id) fun k =>
        KernelWorker.register dep.toTableConfig (pages k)).proc.sys n
      .execute := hmoves.only hset
  have hfront : (lane n ((server.share dep pages id).proc.askedLog
      (meaning id)))[(server.share dep pages
        id).proc.executedCount n]? = some _ :=
    (hsettled.tracked id).asked_of_execute hshares
      (hsettled.share_intact hintact) hlocal
  rw [hring] at hfront
  rw [executedCount_of_inSet hset (hsettled.tracked id),
    hsettled.logged.lanes id n hset, List.getElem?_map]
  exact congrArg (Option.map (Prod.mk id)) hfront

theorem afterStep (hsettled : server.Settled dep pages meaning)
    (hshares : dep.SharesEntries)
    (hseparate : Separate dep meaning socket)
    (hsafe : (server.session id).NoOverrun (dep.ofWorker id) action)
    (hcalls : (server.session id).NonNegativeCalls (dep.ofWorker id)
      action)
    (hintact : (server.session id).proc.Intact (meaning id).read
      (meaning id).meant)
    (halike : (server.session id).Alike (meaning id) action)
    (hidle : (server.session id).SocketIdle (meaning id) socket action)
    (hstep : server.step dep access apply meaning (id, action) =
      some later) :
    later.Settled dep pages meaning := by
  obtain ⟨next, hnext, rfl⟩ := step_become hstep
  have htracked := hsettled.tracked_become hsafe hcalls hnext
  have hconfined := hsettled.confined_become hcalls hnext
  cases Session.step_move hnext with
  | queued source hsegment hexecuted hqueued hkernel hunbatched =>
      have hsame : (meaning id).meant source (server.session id).plain =
        _ := halike
      have hset : (dep.ofWorker id).InSet
          ((dep.ofWorker id).route source) :=
        (dep.ofWorker id).inSet_ringIndex hcalls
      obtain ⟨hasked, hlogged⟩ := hsettled.logged.afterSend hset
        (Process.askedLog_of_queued hqueued)
      refine ⟨htracked, hconfined, hlogged, ?_⟩
      rw [hasked, hsettled.counts_of_same hsafe hcalls hnext hexecuted]
      simp only [become, hkernel, hunbatched, hsame]
      exact hsettled.settles.afterSend (hsettled.executedCount_le hset) _
  | direct source hsegment hexecuted hqueued hkernel hunbatched =>
      have hsame : (meaning id).meant source (server.session id).plain =
        _ := halike
      obtain ⟨hasked, hlogged⟩ :=
        hsettled.logged.of_same (Process.askedLog_of_same hqueued)
      refine ⟨htracked, hconfined, hlogged, ?_⟩
      rw [hasked, hsettled.counts_of_same hsafe hcalls hnext hexecuted]
      simp only [become, hkernel, hunbatched, hsame]
      exact hsettled.settles.afterDirect
        (hsettled.direct_commutes hseparate (hidle hsegment))
  | executed n _ _ hmoves hexecuted hqueued hkernel hunbatched =>
      obtain ⟨_, hproc, _⟩ := Session.step_process hnext
      have hset : (dep.ofWorker id).InSet n :=
        (System.step_worker (Process.step_library hproc).1).1
      obtain ⟨hasked, hlogged⟩ :=
        hsettled.logged.of_same (Process.askedLog_of_same hqueued)
      refine ⟨htracked, hconfined, hlogged, ?_⟩
      rw [hasked,
        hsettled.counts_of_execute hsafe hcalls hnext hset hexecuted]
      simp only [become, hkernel, hunbatched]
      exact hsettled.settles.afterTake (hsettled.lanesCommute hseparate)
        (hsettled.front_of_execute hshares hset hintact hmoves)
  | other _ hexecuted hqueued hkernel hunbatched =>
      obtain ⟨hasked, hlogged⟩ :=
        hsettled.logged.of_same (Process.askedLog_of_same hqueued)
      refine ⟨htracked, hconfined, hlogged, ?_⟩
      rw [hasked, hsettled.counts_of_same hsafe hcalls hnext hexecuted]
      simp only [become, hkernel, hunbatched]
      exact hsettled.settles

/-- Nothing is pending once no process is inside a call and every cursor has
reached its tail. -/
theorem eq_of_drained (hsettled : server.Settled dep pages meaning)
    (houtside : ∀ id, (server.machine.sides id).user.Outside)
    (hdrained : ∀ k, (server.machine.workers k).ring.cursor =
      (server.machine.workers k).ring.table.tail) :
    server.kernel = server.unbatched := by
  apply hsettled.settles.eq_of_taken
  intro k
  by_cases hnil : lane k server.asked = []
  · rw [hnil]
    exact Nat.zero_le _
  · -- the ring belongs to the process that has made a call on it
    obtain ⟨⟨id, value⟩, hmem⟩ := List.exists_mem_of_ne_nil _ hnil
    have hset := hsettled.logged.owner _ (mem_lane.mp hmem)
    have htracked := hsettled.tracked id
    have hring : (server.share dep pages id).proc.sys.ring k =
        (server.machine.workers k).ring := System.only_ring hset
    have hlog : (server.session id).proc.askedLog (meaning id) =
        (server.share dep pages id).proc.askedLog (meaning id) := rfl
    have hcursor := (htracked.good k).executed_length_of_cursor (by
      rw [hring]
      exact hdrained k)
    rw [hsettled.logged.lanes id k hset, List.length_map, hlog,
      Process.askedLog_lane, List.length_map,
      htracked.length_of_outside (houtside id),
      executedCount_of_inSet hset htracked, htracked.executedCount_eq,
      hcursor]

end Settled

/-! ## Whole runs -/

/-- The process that takes the step overruns no ring, makes its calls on
non-negative descriptors, has left the memory behind its pending entries
intact, asks for what it would ask for without the library, and calls outside a
segment only on sockets without a pending call. -/
def Proper (dep : Deployment κ μ) (meaning : ℕ → CallMeaning κ μ π ς)
    (socket : π → ℤ) (server : Server κ μ π ς)
    (action : ℕ × SessionAction κ ω) : Prop :=
  (server.session action.1).NoOverrun (dep.ofWorker action.1) action.2 ∧
    (server.session action.1).NonNegativeCalls (dep.ofWorker action.1)
      action.2 ∧
    (server.session action.1).proc.Intact (meaning action.1).read
      (meaning action.1).meant ∧
    (server.session action.1).Alike (meaning action.1) action.2 ∧
    (server.session action.1).SocketIdle (meaning action.1) socket
      action.2

instance [DecidableEq π] (dep : Deployment κ μ)
    (meaning : ℕ → CallMeaning κ μ π ς) (socket : π → ℤ)
    (server : Server κ μ π ς) (action : ℕ × SessionAction κ ω) :
    Decidable (server.Proper dep meaning socket action) :=
  inferInstanceAs (Decidable (_ ∧ _ ∧ _ ∧ _ ∧ _))

/-- In every interleaving of all processes and all workers under one
configuration, carrying out the pending calls in the order in which they were
made leads to the kernel of processes without the library, and the two kernels
agree whenever the rings are drained. -/
theorem server_kernel_as_unbatched {socket : π → ℤ} {kernel : ς}
    {actions : List (ℕ × SessionAction κ ω)}
    (hshares : dep.SharesEntries)
    (hseparate : Separate dep meaning socket)
    (hrun : Transition.run (step dep access apply meaning)
      (init dep pages memory kernel) actions = some final)
    (hmeet : Transition.StepsMeet (step dep access apply meaning)
      (Proper dep meaning socket) (init dep pages memory kernel)
      actions) :
    perform (effect meaning) (final.pendingLog.map Prod.snd)
        final.kernel = final.unbatched ∧
      ((∀ id, (final.machine.sides id).user.Outside) →
        (∀ k, (final.machine.workers k).ring.cursor =
          (final.machine.workers k).ring.table.tail) →
        final.kernel = final.unbatched) := by
  have hsettled : final.Settled dep pages meaning := by
    refine Transition.run_invariant ?_
      (init_settled dep pages memory kernel) hrun hmeet
    rintro server ⟨id, action⟩ later hsettled
      ⟨hsafe, hcalls, hintact, halike, hidle⟩ hstep
    exact hsettled.afterStep hshares hseparate hsafe hcalls hintact halike
      hidle hstep
  exact ⟨hsettled.settles, hsettled.eq_of_drained⟩

/-- The writes of all processes, recorded by process and descriptor. -/
def serverRecords (id : ℕ) : CallMeaning RedisCall Unit (List ℤ)
    (ℕ → ℤ → List (List ℤ)) where
  read := redisRecords.read
  meant := redisRecords.meant
  effect := fun ask log =>
    Function.update log id (recordAt firstArg ask (log id))
  writes := fun _ _ memory => memory

theorem serverRecords_separate (cfg : SetConfig) (arch : Architecture) :
    Separate ⟨cfg, redis arch⟩ serverRecords firstArg where
  sockets := by
    intro id
    refine ⟨fun _ _ => rfl, ?_⟩
    intro first second hne log
    have hcommute := recordAt_commute hne (log id)
    simp only [serverRecords, Function.update_self,
      Function.update_idem]
    rw [hcommute]
  processes := by
    intro p q hpq first second log
    simp only [serverRecords, Function.update_of_ne hpq,
      Function.update_of_ne (Ne.symm hpq)]
    rw [Function.update_comm hpq]

/-- Two processes queue a write to descriptor 4 each, the later one is executed
first, and the first process makes a write outside its segment. -/
def crossedWrites : List (ℕ × SessionAction RedisCall Empty) :=
  (Machine.alternatingWrites.map fun action =>
      (action.1, .process (.library action.2))) ++
    [(0, .toggleRegion), (0, .process (.library (.call ⟨6, 128, 2⟩)))]

theorem crossedWrites_as_unbatched :
    ∃ final,
      Transition.run
        (step ⟨oneWorkerSet, redis .x86⟩ .atomic noStore serverRecords)
        (init ⟨oneWorkerSet, redis .x86⟩ (fun _ => blankMemory)
          (fun _ => ()) fun _ _ => []) crossedWrites = some final ∧
      final.pendingLog = [(0, 0, [4, 64, 7])] ∧
      final.kernel 1 4 = [[4, 96, 3]] ∧
      final.kernel 0 4 = [] ∧ final.kernel 0 6 = [[6, 128, 2]] ∧
      perform (effect serverRecords) (final.pendingLog.map Prod.snd)
        final.kernel = final.unbatched := by
  have hfacts :
      (Transition.run
        (step ⟨oneWorkerSet, redis .x86⟩ .atomic noStore serverRecords)
        (init ⟨oneWorkerSet, redis .x86⟩ (fun _ => blankMemory)
          (fun _ => ()) fun _ _ => []) crossedWrites).map
        (fun final => (final.pendingLog, final.kernel 1 4,
          final.kernel 0 4, final.kernel 0 6)) =
        some ([(0, 0, [4, 64, 7])], [[4, 96, 3]], [],
          [[6, 128, 2]]) := by
    decide +kernel
  obtain ⟨final, hrun, hfinal⟩ := Option.map_eq_some_iff.mp hfacts
  simp only [Prod.mk.injEq] at hfinal
  obtain ⟨hpending, hfirst, hsecond, hdirect⟩ := hfinal
  exact ⟨final, hrun, hpending, hfirst, hsecond, hdirect,
    (server_kernel_as_unbatched (by decide) (serverRecords_separate _ _)
      hrun (by decide +kernel)).1⟩

end Server

end Saio
