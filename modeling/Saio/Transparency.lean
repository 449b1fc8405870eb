import Saio.CallHistory
import Saio.DelayedEffects
import Saio.Wrappers
import Mathlib.Tactic

/-!
# The kernel behind the library

A program linked with the wrappers asks for the same system calls as without
them, only later and in another order: a call inside a segment takes effect
when a worker executes its entry, a call outside a segment at once, and
`toggle_region` enters or leaves a segment without a flush.

This file adds the state of the kernel to a process.  A session also keeps the
program without the library, which makes the same stores and all its calls
directly: its memory, which differs from that of the process as soon as a call
that was assumed to succeed would have written something else, and its kernel.
As long as the worker finds the entries where the wrappers fill them, no ring
is overrun, no memory behind a pending entry is disturbed, the calls that
overtake each other commute, and both programs ask for the same calls, carrying
out the pending calls in program order leads from the one kernel to the other.
-/

namespace Saio

open FifoBank

/-- What a call asks of a kernel with states `ς`. -/
structure CallMeaning (κ μ π ς : Type) where
  /-- What an entry asks for when it is executed in a memory. -/
  read : SysCall → μ → π
  /-- What a call asks for when it is made directly. -/
  meant : κ → μ → π
  effect : π → ς → ς
  /-- What a direct call writes to the memory of its caller. -/
  writes : κ → ς → μ → μ

structure Session (κ μ ς : Type) where
  proc : Process κ μ
  kernel : ς
  /-- The kernel of the program without the library. -/
  unbatched : ς
  /-- The memory of the program without the library. -/
  plain : μ

inductive SessionAction (κ ω : Type)
  | process (action : ProcessAction κ ω)
  | toggleRegion

variable {κ μ ω π ς : Type} {dep : Deployment κ μ} {access : FlagAccess}
  {apply : ω → μ → μ} {meaning : CallMeaning κ μ π ς}

namespace SessionAction

def IsCall : SessionAction κ ω → Prop
  | .process (.library (.call _)) => True
  | _ => False

instance (action : SessionAction κ ω) : Decidable action.IsCall :=
  match action with
  | .process (.library (.call _)) => isTrue trivial
  | .process (.store _) | .process (.library .batchStart)
  | .process (.library .batchFlush) | .process (.library .user)
  | .process (.library (.worker _ _ _)) | .toggleRegion =>
      isFalse id

theorem IsCall.eq_call {action : SessionAction κ ω}
    (hcall : action.IsCall) :
    ∃ source, action = .process (.library (.call source)) := by
  unfold IsCall at hcall
  split at hcall
  next source => exact ⟨source, rfl⟩
  next => exact hcall.elim

end SessionAction

namespace CallMeaning

/-- The call that a program with this memory makes in a step. -/
def asked (meaning : CallMeaning κ μ π ς) (memory : μ) :
    ProcessAction κ ω → List π
  | .library (.call source) => [meaning.meant source memory]
  | _ => []

theorem asked_of_not_call (meaning : CallMeaning κ μ π ς)
    (memory : μ) {action : ProcessAction κ ω}
    (hother : ∀ source, action ≠ .library (.call source)) :
    meaning.asked memory action = [] := by
  unfold asked
  split
  next source => exact absurd rfl (hother source)
  next => rfl

/-- What the kernel carries out in a step: the entry that a worker has
executed, or a call outside a segment. -/
def carriedOut (meaning : CallMeaning κ μ π ς) (proc : Process κ μ)
    (action : ProcessAction κ ω) (next : Process κ μ) : List π :=
  (next.sys.executed.drop proc.sys.executed.length).map
      (fun record => meaning.read record.entry record.memory) ++
    if proc.sys.inSegment then []
    else meaning.asked proc.sys.memory action

/-- The memory after a step of a program that makes its calls directly. -/
def plainAfter (meaning : CallMeaning κ μ π ς) (apply : ω → μ → μ)
    (kernel : ς) (memory : μ) : ProcessAction κ ω → μ
  | .store value => apply value memory
  | .library (.call source) => meaning.writes source kernel memory
  | .library _ => memory

/-- A call outside a segment has written to the memory of its caller. -/
def directWrites (meaning : CallMeaning κ μ π ς) (proc : Process κ μ)
    (kernel : ς) (action : ProcessAction κ ω) (next : Process κ μ) :
    Process κ μ :=
  match action with
  | .library (.call source) =>
      if proc.sys.inSegment then next
      else
        { next with
          sys := { next.sys with
            memory := meaning.writes source kernel next.sys.memory } }
  | _ => next

theorem directWrites_of_inside (meaning : CallMeaning κ μ π ς)
    {proc : Process κ μ} {action : ProcessAction κ ω}
    (hinside : ∀ source, action = .library (.call source) →
      proc.sys.inSegment = true) (kernel : ς) (next : Process κ μ) :
    meaning.directWrites proc kernel action next = next := by
  unfold directWrites
  split
  next source => rw [if_pos (hinside source rfl)]
  next => rfl

theorem directWrites_outside (meaning : CallMeaning κ μ π ς)
    {proc : Process κ μ} (hsegment : proc.sys.inSegment = false)
    (source : κ) (kernel : ς) (next : Process κ μ) :
    meaning.directWrites proc kernel
        (.library (.call source) : ProcessAction κ ω) next =
      { next with
        sys := { next.sys with
          memory := meaning.writes source kernel next.sys.memory } } := by
  simp [directWrites, hsegment]

/-- Direct calls leave the memory of their caller alone. -/
def WritesNothing (meaning : CallMeaning κ μ π ς) : Prop :=
  ∀ source kernel memory, meaning.writes source kernel memory = memory

theorem WritesNothing.directWrites_eq (hwrites : meaning.WritesNothing)
    (proc : Process κ μ) (kernel : ς) (action : ProcessAction κ ω)
    (next : Process κ μ) :
    meaning.directWrites proc kernel action next = next := by
  unfold directWrites
  split
  next =>
    split
    next => rfl
    next => rw [hwrites]
  next => rfl

end CallMeaning

namespace Process

variable {proc next : Process κ μ}

/-- `in_segment ^= 1`. -/
def toggleRegion (proc : Process κ μ) : Process κ μ :=
  { proc with
    sys := { proc.sys with inSegment := !proc.sys.inSegment } }

/-- How many entries of each ring are executed. -/
def executedCount (proc : Process κ μ) (k : ℤ) : ℕ :=
  (lane k proc.sys.taken).length

/-- What the queued calls ask for, in program order. -/
def askedLog (meaning : CallMeaning κ μ π ς) (proc : Process κ μ) :
    List (ℤ × π) :=
  proc.queued.map fun call =>
    (call.ring, meaning.meant call.source call.memory)

/-- What the pending calls ask for, in program order. -/
def pendingLog (meaning : CallMeaning κ μ π ς) (proc : Process κ μ) :
    List (ℤ × π) :=
  waiting proc.executedCount (proc.askedLog meaning)

theorem askedLog_of_same (hqueued : next.queued = proc.queued) :
    next.askedLog meaning = proc.askedLog meaning := by
  unfold askedLog
  rw [hqueued]

theorem askedLog_of_queued {call : Queued κ μ}
    (hqueued : next.queued = proc.queued ++ [call]) :
    next.askedLog meaning = proc.askedLog meaning ++
      [(call.ring, meaning.meant call.source call.memory)] := by
  unfold askedLog
  rw [hqueued, List.map_append]
  rfl

theorem askedLog_lane (proc : Process κ μ) (k : ℤ) :
    lane k (proc.askedLog meaning) =
      (proc.queuedOn k).map fun call =>
        meaning.meant call.source call.memory :=
  lane_map k Queued.ring _ proc.queued

theorem Tracked.executedCount_eq (htracked : proc.Tracked dep) (k : ℤ) :
    proc.executedCount k = (proc.sys.ring k).executed.length := by
  rw [htracked.recorded.executed_eq k]
  rfl

theorem Tracked.executedCount_le (htracked : proc.Tracked dep) (k : ℤ) :
    proc.executedCount k ≤ (lane k (proc.askedLog meaning)).length := by
  rw [htracked.executedCount_eq, askedLog_lane, List.length_map]
  exact htracked.executed_le_queued k

/-- A worker executes the first waiting call of its ring, and finds what the
call asked for. -/
theorem Tracked.asked_of_execute (htracked : proc.Tracked dep)
    (hshares : dep.SharesEntries)
    (hintact : proc.Intact meaning.read meaning.meant) {k : ℤ}
    (hmoves : System.RingMoves dep proc.sys next.sys k .execute) :
    (lane k (proc.askedLog meaning))[proc.executedCount k]? =
      some (meaning.read (proc.sys.ring k).cursorEntry.call
        proc.sys.memory) := by
  obtain ⟨call, hcall, hentry⟩ := htracked.front_of_execute hshares hmoves
  rw [hentry, hintact k _ call ⟨hcall, le_rfl⟩,
    htracked.executedCount_eq, askedLog_lane, List.getElem?_map, hcall]
  rfl

theorem Tracked.asked_firstRing (htracked : proc.Tracked dep)
    (hratio : dep.ratio = 1) {item : ℤ × π}
    (hmem : item ∈ proc.askedLog meaning) : item.1 = dep.firstRing := by
  obtain ⟨call, hcall, rfl⟩ := List.mem_map.mp hmem
  obtain ⟨_, _, hroute⟩ := htracked.mem_queuedOn hcall
  simp [hroute, Deployment.route, Deployment.ringIndex, hratio]

theorem Tracked.pending_sameRing (htracked : proc.Tracked dep)
    (hratio : dep.ratio = 1) {first second : ℤ × π}
    (hfirst : first ∈ proc.pendingLog meaning)
    (hsecond : second ∈ proc.pendingLog meaning) :
    first.1 = second.1 := by
  rw [htracked.asked_firstRing hratio (mem_of_mem_waiting hfirst),
    htracked.asked_firstRing hratio (mem_of_mem_waiting hsecond)]

theorem executedCount_of_same
    (hexecuted : next.sys.executed = proc.sys.executed) :
    next.executedCount = proc.executedCount := by
  unfold executedCount System.taken
  rw [hexecuted]

theorem executedCount_of_execute {k : ℤ} {entry : SysCall} {memory : μ}
    (hexecuted : next.sys.executed =
      proc.sys.executed ++ [⟨k, entry, memory⟩]) :
    next.executedCount =
      Function.update proc.executedCount k
        (proc.executedCount k + 1) := by
  funext n
  unfold executedCount System.taken
  rw [hexecuted, List.map_append, lane_append, List.length_append]
  by_cases hring : n = k
  · subst n
    rw [Function.update_self, List.map_singleton, lane_singleton_self]
    rfl
  · rw [Function.update_of_ne hring, List.map_singleton,
      lane_singleton_of_ne (Ne.symm hring)]
    rfl

theorem Waiting.pending {g : ℕ} {call : Queued κ μ}
    (hwaiting : proc.Waiting g call) :
    ∃ n, proc.Pending call.ring n call := by
  refine ⟨_, getElem?_lane_take (g := g) ?_, ?_⟩
  · rw [List.getElem?_map, hwaiting.1]
    rfl
  · rw [← List.map_take]
    exact hwaiting.2

theorem intact_iff_waiting {read : SysCall → μ → π}
    {meant : κ → μ → π} :
    proc.Intact read meant ↔
      ∀ g call, proc.Waiting g call →
        read call.entry proc.sys.memory =
          meant call.source call.memory := by
  constructor
  · intro hintact g call hwaiting
    obtain ⟨n, hpending⟩ := hwaiting.pending
    exact hintact call.ring n call hpending
  · intro hall k n call hpending
    obtain ⟨g, hwaiting⟩ := hpending.waiting
    exact hall g call hwaiting

instance [DecidableEq π] (read : SysCall → μ → π)
    (meant : κ → μ → π) : Decidable (proc.Intact read meant) :=
  decidable_of_iff' _ intact_iff_waiting

/-- No entry has been queued or executed. -/
structure SameEntries (proc next : Process κ μ) : Prop where
  workers_eq : next.sys.workers = proc.sys.workers
  executed_eq : next.sys.executed = proc.sys.executed
  queued_eq : next.queued = proc.queued

namespace SameEntries

theorem pending (hsame : proc.SameEntries next) {k : ℤ} {n : ℕ}
    {call : Queued κ μ} (hpending : next.Pending k n call) :
    proc.Pending k n call := by
  unfold Pending queuedOn System.ring at *
  rwa [hsame.queued_eq, hsame.workers_eq] at hpending

theorem waiting (hsame : proc.SameEntries next) {g : ℕ}
    {call : Queued κ μ} (hwaiting : next.Waiting g call) :
    proc.Waiting g call := by
  unfold Waiting System.ring at *
  rwa [hsame.queued_eq, hsame.workers_eq] at hwaiting

theorem conveys {read : SysCall → μ → π} {meant : κ → μ → π}
    (hsame : proc.SameEntries next) (hconveys : proc.Conveys read meant) :
    next.Conveys read meant := by
  intro k
  unfold sentLog meantLog
  rw [hsame.executed_eq, hsame.queued_eq]
  exact hconveys k

end SameEntries

/-- No entry has been queued or executed, and no memory written. -/
structure Unchanged (proc next : Process κ μ) : Prop extends
    SameEntries proc next where
  memory_eq : next.sys.memory = proc.sys.memory

theorem Unchanged.intact {read : SysCall → μ → π} {meant : κ → μ → π}
    (hsame : proc.Unchanged next) (hintact : proc.Intact read meant) :
    next.Intact read meant := by
  intro k n call hpending
  rw [hsame.memory_eq]
  exact hintact k n call (hsame.toSameEntries.pending hpending)

theorem Tracked.toggleRegion (htracked : proc.Tracked dep) :
    proc.toggleRegion.Tracked dep := by
  refine htracked.of_sameLog ?_ htracked.good rfl rfl
  exact htracked.recorded.afterQuiet (fun _ => rfl) rfl rfl (Or.inl rfl)

/-- The rings hold entries, not the memory behind them. -/
theorem Tracked.withMemory (htracked : proc.Tracked dep) (memory : μ) :
    ({ proc with sys := { proc.sys with memory := memory } } :
      Process κ μ).Tracked dep := by
  refine htracked.of_sameLog ?_ htracked.good rfl rfl
  exact htracked.recorded.afterQuiet (fun _ => rfl) rfl rfl (Or.inl rfl)

end Process

namespace Session

variable {session next final : Session κ μ ς}

def step (dep : Deployment κ μ) (access : FlagAccess)
    (apply : ω → μ → μ) (meaning : CallMeaning κ μ π ς)
    (session : Session κ μ ς) :
    SessionAction κ ω → Option (Session κ μ ς)
  | .process action =>
      match session.proc.step dep access apply action with
      | none => none
      | some next =>
          some {
            proc := meaning.directWrites session.proc session.kernel
              action next
            kernel := perform meaning.effect
              (meaning.carriedOut session.proc action next)
              session.kernel
            unbatched := perform meaning.effect
              (meaning.asked session.plain action) session.unbatched
            plain := meaning.plainAfter apply session.unbatched
              session.plain action }
  | .toggleRegion =>
      match session.proc.sys.user with
      | .ready => some { session with proc := session.proc.toggleRegion }
      | _ => none

def init (dep : Deployment κ μ) (pages : ℤ → ℕ → ℕ → TableEntry)
    (memory : μ) (kernel : ς) : Session κ μ ς :=
  ⟨Process.init dep pages memory, kernel, kernel, memory⟩

def NoOverrun (dep : Deployment κ μ) (session : Session κ μ ς) :
    SessionAction κ ω → Prop
  | .process action => session.proc.NoOverrun dep action
  | .toggleRegion => True

instance (dep : Deployment κ μ) (session : Session κ μ ς)
    (action : SessionAction κ ω) :
    Decidable (session.NoOverrun dep action) :=
  match action with
  | .process action =>
      inferInstanceAs (Decidable (session.proc.NoOverrun dep action))
  | .toggleRegion => inferInstanceAs (Decidable True)

/-- The program asks for the same call with the library and without it. -/
def Alike (meaning : CallMeaning κ μ π ς) (session : Session κ μ ς) :
    SessionAction κ ω → Prop
  | .process (.library (.call source)) =>
      meaning.meant source session.plain =
        meaning.meant source session.proc.sys.memory
  | _ => True

instance [DecidableEq π] (meaning : CallMeaning κ μ π ς)
    (session : Session κ μ ς) (action : SessionAction κ ω) :
    Decidable (session.Alike meaning action) :=
  match action with
  | .process (.library (.call _)) => inferInstanceAs (Decidable (_ = _))
  | .process (.store _) | .process (.library .batchStart)
  | .process (.library .batchFlush) | .process (.library .user)
  | .process (.library (.worker _ _ _)) | .toggleRegion =>
      inferInstanceAs (Decidable True)

/-- The step overruns no ring, the memory behind the pending entries is
intact, both programs ask for the same call, and calls commute with those they
may be overtaken by: the pending ones of different rings with each other, and a
call outside a segment with all pending ones. -/
structure Undisturbed (dep : Deployment κ μ)
    (meaning : CallMeaning κ μ π ς) (session : Session κ μ ς)
    (action : SessionAction κ ω) : Prop where
  noOverrun : session.NoOverrun dep action
  intact : session.proc.Intact meaning.read meaning.meant
  alike : session.Alike meaning action
  rings : LanesCommute meaning.effect session.proc.executedCount
    (session.proc.askedLog meaning)
  direct : ∀ source, action = .process (.library (.call source)) →
    session.proc.sys.inSegment = false →
      ∀ pending ∈ session.proc.pendingLog meaning,
        Function.Commute (meaning.effect pending.2)
          (meaning.effect (meaning.meant source session.proc.sys.memory))

theorem step_process {action : ProcessAction κ ω}
    (hstep : session.step dep access apply meaning (.process action) =
      some next) :
    ∃ later, session.proc.step dep access apply action = some later ∧
      next.proc = meaning.directWrites session.proc session.kernel action
        later ∧
      next.kernel = perform meaning.effect
        (meaning.carriedOut session.proc action later) session.kernel ∧
      next.unbatched = perform meaning.effect
        (meaning.asked session.plain action) session.unbatched ∧
      next.plain = meaning.plainAfter apply session.unbatched
        session.plain action := by
  simp only [step] at hstep
  split at hstep
  next => simp at hstep
  next later hproc =>
    cases hstep
    exact ⟨later, hproc, rfl, rfl, rfl, rfl⟩

/-- Calls inside a segment and all other steps are those of the process. -/
theorem step_inside {action : ProcessAction κ ω}
    (hinside : ∀ source, action = .library (.call source) →
      session.proc.sys.inSegment = true)
    (hstep : session.step dep access apply meaning (.process action) =
      some next) :
    session.proc.step dep access apply action = some next.proc := by
  obtain ⟨later, hproc, hnext, _⟩ := step_process hstep
  rw [hnext, meaning.directWrites_of_inside hinside]
  exact hproc

theorem step_of_writesNothing {action : ProcessAction κ ω}
    (hwrites : meaning.WritesNothing)
    (hstep : session.step dep access apply meaning (.process action) =
      some next) :
    session.proc.step dep access apply action = some next.proc := by
  obtain ⟨later, hproc, hnext, _⟩ := step_process hstep
  rw [hnext, hwrites.directWrites_eq]
  exact hproc

/-- A call outside a segment goes to the kernel, which writes its answer to
the memory. -/
theorem step_outside {source : κ}
    (hsegment : session.proc.sys.inSegment = false)
    (hstep : session.step dep access apply meaning
      (.process (.library (.call source)) : SessionAction κ ω) =
        some next) :
    session.proc.SameEntries next.proc ∧
      next.proc.sys.user = session.proc.sys.user ∧
      next.proc.sys.memory =
        meaning.writes source session.kernel session.proc.sys.memory := by
  obtain ⟨later, hproc, hnext, _⟩ := step_process hstep
  obtain ⟨hsys, hqueued⟩ := Process.step_library hproc
  have hsame := System.call_direct hsegment (System.step_call hsys).2
  rw [System.queuedBy, hsegment, if_neg (by simp),
    List.append_nil] at hqueued
  rw [hnext, meaning.directWrites_outside hsegment]
  refine ⟨⟨?_, ?_, hqueued⟩, ?_, ?_⟩
  all_goals simp only [hsame]

theorem step_toggleRegion
    (hstep : session.step dep access apply meaning
      (.toggleRegion : SessionAction κ ω) = some next) :
    next = { session with proc := session.proc.toggleRegion } := by
  simp only [step] at hstep
  split at hstep
  next => exact (Option.some.inj hstep).symm
  next => simp at hstep

theorem tracked_afterStep {action : SessionAction κ ω}
    (htracked : session.proc.Tracked dep)
    (hsafe : session.NoOverrun dep action)
    (hstep : session.step dep access apply meaning action = some next) :
    next.proc.Tracked dep := by
  cases action with
  | toggleRegion =>
      rw [step_toggleRegion hstep]
      exact htracked.toggleRegion
  | process action =>
      obtain ⟨later, hproc, hnext, _⟩ := step_process hstep
      have hlater := htracked.afterStep hproc hsafe
      rw [hnext]
      unfold CallMeaning.directWrites
      split
      next =>
        split
        next => exact hlater
        next => exact hlater.withMemory _
      next => exact hlater

/-- A step of a session changes nothing but the segment, is a call outside a
segment, or is one of the process in which a call is made inside a segment. -/
theorem step_cases {action : SessionAction κ ω}
    (htracked : session.proc.Tracked dep)
    (hsafe : session.NoOverrun dep action)
    (hstep : session.step dep access apply meaning action =
      some next) :
    next.proc.Tracked dep ∧
      (action = .toggleRegion ∧ session.proc.Unchanged next.proc ∨
        (∃ source, action = .process (.library (.call source)) ∧
          session.proc.sys.inSegment = false ∧
          session.proc.SameEntries next.proc ∧
          next.proc.sys.memory = meaning.writes source session.kernel
            session.proc.sys.memory) ∨
        ∃ inner, action = .process inner ∧
          (∀ source, inner = .library (.call source) →
            session.proc.sys.inSegment = true) ∧
          session.proc.step dep access apply inner =
            some next.proc) := by
  refine ⟨tracked_afterStep htracked hsafe hstep, ?_⟩
  cases action with
  | toggleRegion =>
      rw [step_toggleRegion hstep]
      exact Or.inl ⟨rfl, ⟨rfl, rfl, rfl⟩, rfl⟩
  | process inner =>
      right
      by_cases hdirect : ∃ source, inner = .library (.call source) ∧
          session.proc.sys.inSegment = false
      · obtain ⟨source, rfl, hsegment⟩ := hdirect
        obtain ⟨hsame, _, hmemory⟩ := step_outside hsegment hstep
        exact Or.inl ⟨source, rfl, hsegment, hsame, hmemory⟩
      · have hinside : ∀ source, inner = .library (.call source) →
            session.proc.sys.inSegment = true := by
          intro source hsource
          by_contra hnot
          exact hdirect ⟨source, hsource, by simpa using hnot⟩
        exact Or.inr ⟨inner, rfl, hinside, step_inside hinside hstep⟩

/-- What a step does to the queued calls and to the two kernels. -/
inductive Move (dep : Deployment κ μ) (meaning : CallMeaning κ μ π ς)
    (session : Session κ μ ς) : SessionAction κ ω → Session κ μ ς → Prop
  | queued {next : Session κ μ ς} (source : κ)
      (hsegment : session.proc.sys.inSegment = true)
      (hexecuted : next.proc.sys.executed = session.proc.sys.executed)
      (hqueued : next.proc.queued = session.proc.queued ++
        [⟨source, dep.route source,
          (session.proc.sys.prepared dep source).1,
          session.proc.sys.memory⟩])
      (hkernel : next.kernel = session.kernel)
      (hunbatched : next.unbatched =
        meaning.effect (meaning.meant source session.plain)
          session.unbatched) :
      Move dep meaning session (.process (.library (.call source))) next
  | direct {next : Session κ μ ς} (source : κ)
      (hsegment : session.proc.sys.inSegment = false)
      (hexecuted : next.proc.sys.executed = session.proc.sys.executed)
      (hqueued : next.proc.queued = session.proc.queued)
      (hkernel : next.kernel =
        meaning.effect (meaning.meant source session.proc.sys.memory)
          session.kernel)
      (hunbatched : next.unbatched =
        meaning.effect (meaning.meant source session.plain)
          session.unbatched) :
      Move dep meaning session (.process (.library (.call source))) next
  | executed {next : Session κ μ ς} (k : ℤ) (expired : Bool) (sysret : ℤ)
      (hmoves : System.RingMoves dep session.proc.sys next.proc.sys k
        .execute)
      (hexecuted : next.proc.sys.executed = session.proc.sys.executed ++
        [⟨k, (session.proc.sys.ring k).cursorEntry.call,
          session.proc.sys.memory⟩])
      (hqueued : next.proc.queued = session.proc.queued)
      (hkernel : next.kernel =
        meaning.effect
          (meaning.read (session.proc.sys.ring k).cursorEntry.call
            session.proc.sys.memory) session.kernel)
      (hunbatched : next.unbatched = session.unbatched) :
      Move dep meaning session
        (.process (.library (.worker k expired sysret))) next
  | other {action : SessionAction κ ω} {next : Session κ μ ς}
      (hcall : ∀ source, action ≠ .process (.library (.call source)))
      (hexecuted : next.proc.sys.executed = session.proc.sys.executed)
      (hqueued : next.proc.queued = session.proc.queued)
      (hkernel : next.kernel = session.kernel)
      (hunbatched : next.unbatched = session.unbatched) :
      Move dep meaning session action next

theorem carriedOut_of_sameExecuted {proc later : Process κ μ}
    {action : ProcessAction κ ω}
    (hexecuted : later.sys.executed = proc.sys.executed) :
    meaning.carriedOut proc action later =
      if proc.sys.inSegment then []
      else meaning.asked proc.sys.memory action := by
  simp [CallMeaning.carriedOut, hexecuted]

theorem move_of_call {source : κ}
    (hstep : session.step dep access apply meaning
      (.process (.library (.call source))) = some next) :
    Move dep meaning session
      (.process (.library (.call source)) : SessionAction κ ω) next := by
  obtain ⟨later, hproc, hnext, hkernel, hunbatched, _⟩ :=
    step_process hstep
  obtain ⟨hsys, hqueued⟩ := Process.step_library hproc
  obtain ⟨_, hcall⟩ := System.step_call hsys
  cases hsegment : session.proc.sys.inSegment with
  | true =>
      rw [meaning.directWrites_of_inside fun _ _ => hsegment] at hnext
      obtain ⟨_, _, _, hexecuted, _⟩ :=
        System.call_queued hsegment hcall
      rw [carriedOut_of_sameExecuted hexecuted, hsegment] at hkernel
      rw [System.queuedBy, hsegment, if_pos rfl] at hqueued
      rw [← hnext] at hexecuted hqueued
      exact .queued source hsegment hexecuted hqueued hkernel hunbatched
  | false =>
      obtain ⟨hsame, _⟩ := step_outside hsegment hstep
      have hexecuted : later.sys.executed = session.proc.sys.executed := by
        rw [System.call_direct hsegment hcall]
      rw [carriedOut_of_sameExecuted hexecuted, hsegment] at hkernel
      exact .direct source hsegment hsame.executed_eq hsame.queued_eq
        hkernel hunbatched

theorem move_of_process {action : ProcessAction κ ω}
    (hother : ∀ source, action ≠ .library (.call source))
    (hstep : session.step dep access apply meaning (.process action) =
      some next) :
    Move dep meaning session (.process action) next := by
  have hproc : session.proc.step dep access apply action =
      some next.proc :=
    step_inside (fun source hcall => absurd hcall (hother source)) hstep
  obtain ⟨later, hlater, _, hkernel, hunbatched, _⟩ := step_process hstep
  obtain rfl := Option.some.inj (hproc.symm.trans hlater)
  rw [meaning.asked_of_not_call _ hother] at hunbatched
  unfold CallMeaning.carriedOut at hkernel
  rw [meaning.asked_of_not_call _ hother, ite_self,
    List.append_nil] at hkernel
  have hcall : ∀ source, SessionAction.process action ≠
      .process (.library (.call source)) := by simpa using hother
  cases action with
  | store value =>
      obtain ⟨_, hnext⟩ := Process.step_store hproc
      rw [hnext, List.drop_length] at hkernel
      refine .other hcall ?_ ?_ hkernel hunbatched
      · rw [hnext]
      · rw [hnext]
  | library action =>
      cases Process.step_traffic hproc with
      | other _ hexecuted _ _ hqueued =>
          rw [hexecuted, List.drop_length] at hkernel
          exact .other hcall hexecuted hqueued hkernel hunbatched
      | execute k expired sysret hmoves _ hexecuted _ _ hqueued =>
          rw [hexecuted, List.drop_left] at hkernel
          exact .executed k expired sysret hmoves hexecuted hqueued
            hkernel hunbatched
      | call source => exact absurd rfl (hother source)

theorem step_move {action : SessionAction κ ω}
    (hstep : session.step dep access apply meaning action = some next) :
    Move dep meaning session action next := by
  cases action with
  | toggleRegion =>
      rw [step_toggleRegion hstep]
      exact .other (by simp) rfl rfl rfl rfl
  | process action =>
      by_cases hcall : ∃ source, action = .library (.call source)
      · obtain ⟨source, rfl⟩ := hcall
        exact move_of_call hstep
      · exact move_of_process
          (fun source haction => hcall ⟨source, haction⟩) hstep

/-! ## One step -/

/-- Carrying out the pending calls in program order leads to the kernel of the
program without the library. -/
structure Settled (dep : Deployment κ μ)
    (meaning : CallMeaning κ μ π ς) (session : Session κ μ ς) :
    Prop where
  tracked : session.proc.Tracked dep
  settles : Settles meaning.effect session.proc.executedCount
    (session.proc.askedLog meaning) session.kernel session.unbatched

theorem init_settled (dep : Deployment κ μ)
    (pages : ℤ → ℕ → ℕ → TableEntry) (memory : μ) (kernel : ς) :
    (init dep pages memory kernel).Settled dep meaning where
  tracked := Process.init_tracked dep pages memory
  settles := rfl

theorem Settled.afterStep (hsettled : session.Settled dep meaning)
    (hshares : dep.SharesEntries) {action : SessionAction κ ω}
    (hundisturbed : session.Undisturbed dep meaning action)
    (hstep : session.step dep access apply meaning action = some next) :
    next.Settled dep meaning := by
  refine ⟨tracked_afterStep hsettled.tracked hundisturbed.noOverrun
    hstep, ?_⟩
  cases step_move hstep with
  | queued source _ hexecuted hqueued hkernel hunbatched =>
      have halike : meaning.meant source session.plain = _ :=
        hundisturbed.alike
      rw [Process.askedLog_of_queued hqueued, hkernel, hunbatched, halike,
        Process.executedCount_of_same hexecuted]
      exact hsettled.settles.afterSend
        (hsettled.tracked.executedCount_le (dep.route source)) _
  | direct source hsegment hexecuted hqueued hkernel hunbatched =>
      have halike : meaning.meant source session.plain = _ :=
        hundisturbed.alike
      rw [Process.askedLog_of_same hqueued, hkernel, hunbatched, halike,
        Process.executedCount_of_same hexecuted]
      exact hsettled.settles.afterDirect
        (hundisturbed.direct source rfl hsegment)
  | executed k _ _ hmoves hexecuted hqueued hkernel hunbatched =>
      rw [Process.askedLog_of_same hqueued, hkernel, hunbatched,
        Process.executedCount_of_execute hexecuted]
      exact hsettled.settles.afterTake hundisturbed.rings
        (hsettled.tracked.asked_of_execute hshares hundisturbed.intact
          hmoves)
  | other _ hexecuted hqueued hkernel hunbatched =>
      rw [Process.askedLog_of_same hqueued, hkernel, hunbatched,
        Process.executedCount_of_same hexecuted]
      exact hsettled.settles

/-! ## Whole runs -/

/-- Nothing is pending once no call is in progress and every cursor has
reached its tail. -/
theorem Settled.eq_of_drained (hsettled : session.Settled dep meaning)
    (houtside : session.proc.sys.user.Outside)
    (hdrained : ∀ k, (session.proc.sys.ring k).cursor =
      (session.proc.sys.ring k).table.tail) :
    session.kernel = session.unbatched := by
  apply hsettled.settles.eq_of_taken
  intro k
  have htracked := hsettled.tracked
  have hcursor :=
    (htracked.good k).executed_length_of_cursor (hdrained k)
  rw [Process.askedLog_lane, List.length_map,
    htracked.length_of_outside houtside, htracked.executedCount_eq,
    hcursor]

/-- An invariant of the process alone. -/
def ProcMeets (invariant : Process κ μ → Prop)
    (session : Session κ μ ς) : Prop :=
  invariant session.proc

/-- The kernel is settled, and the session meets the invariant. -/
structure SettledIn (invariant : Session κ μ ς → Prop)
    (dep : Deployment κ μ) (meaning : CallMeaning κ μ π ς)
    (session : Session κ μ ς) : Prop where
  inside : invariant session
  settled : session.Settled dep meaning

/-- Settled kernels of a run, from an invariant under which no allowed step
disturbs a pending call. -/
theorem settled_of_run
    {invariant : Session κ μ ς → Prop}
    {condition : Session κ μ ς → SessionAction κ ω → Prop}
    (hshares : dep.SharesEntries)
    (hundisturbed : ∀ session action,
      SettledIn invariant dep meaning session →
        condition session action →
          session.Undisturbed dep meaning action)
    (hpreserved : ∀ session action next,
      SettledIn invariant dep meaning session →
        condition session action →
          session.step dep access apply meaning action = some next →
            invariant next)
    {pages : ℤ → ℕ → ℕ → TableEntry} {memory : μ} {kernel : ς}
    {actions : List (SessionAction κ ω)}
    (hstart : invariant (init dep pages memory kernel))
    (hrun : Transition.run (step dep access apply meaning)
      (init dep pages memory kernel) actions = some final)
    (hmeet : Transition.StepsMeet (step dep access apply meaning)
      condition (init dep pages memory kernel) actions) :
    final.Settled dep meaning := by
  have hboth : SettledIn invariant dep meaning final := by
    refine Transition.run_invariant ?_
      ⟨hstart, init_settled dep pages memory kernel⟩ hrun hmeet
    intro session action next hboth hcondition hstep
    exact ⟨hpreserved session action next hboth hcondition hstep,
      hboth.settled.afterStep hshares
        (hundisturbed session action hboth hcondition) hstep⟩
  exact hboth.settled

end Session

/-! ## Kernels in which sockets are independent -/

/-- Every call acts on the socket by which it is routed, and calls on
different sockets commute. -/
structure CallMeaning.BySocket (dep : Deployment κ μ)
    (meaning : CallMeaning κ μ π ς) (socket : π → ℤ) : Prop where
  routed : ∀ source memory,
    socket (meaning.meant source memory) = dep.wrapper.descriptor source
  commute : ∀ first second, socket first ≠ socket second →
    Function.Commute (meaning.effect first) (meaning.effect second)

theorem CallMeaning.BySocket.ring_of_asked {socket : π → ℤ}
    (hsockets : meaning.BySocket dep socket) {proc : Process κ μ}
    (htracked : proc.Tracked dep) {item : ℤ × π}
    (hmem : item ∈ proc.askedLog meaning) :
    item.1 = dep.ringIndex (socket item.2) := by
  obtain ⟨call, hcall, rfl⟩ := List.mem_map.mp hmem
  obtain ⟨_, _, hroute⟩ := htracked.mem_queuedOn hcall
  rw [hroute, hsockets.routed]
  rfl

/-- Calls of different rings are on different sockets. -/
theorem CallMeaning.BySocket.socket_ne_of_asked {socket : π → ℤ}
    (hsockets : meaning.BySocket dep socket) {proc : Process κ μ}
    (htracked : proc.Tracked dep) {first second : ℤ × π}
    (hfirst : first ∈ proc.askedLog meaning)
    (hsecond : second ∈ proc.askedLog meaning)
    (hne : first.1 ≠ second.1) : socket first.2 ≠ socket second.2 := by
  intro hsame
  apply hne
  rw [hsockets.ring_of_asked htracked hfirst,
    hsockets.ring_of_asked htracked hsecond, hsame]

namespace Session

variable {session next final : Session κ μ ς} {socket : π → ℤ}

/-- A call outside a segment finds no pending call on its socket. -/
def SocketIdle (meaning : CallMeaning κ μ π ς) (socket : π → ℤ)
    (session : Session κ μ ς) : SessionAction κ ω → Prop
  | .process (.library (.call source)) =>
      session.proc.sys.inSegment = false →
        ∀ pending ∈ session.proc.pendingLog meaning,
          socket pending.2 ≠
            socket (meaning.meant source session.proc.sys.memory)
  | _ => True

instance (meaning : CallMeaning κ μ π ς) (socket : π → ℤ)
    (session : Session κ μ ς) (action : SessionAction κ ω) :
    Decidable (session.SocketIdle meaning socket action) :=
  match action with
  | .process (.library (.call _)) =>
      inferInstanceAs (Decidable (_ → ∀ pending ∈ _, _))
  | .process (.store _) | .process (.library .batchStart)
  | .process (.library .batchFlush) | .process (.library .user)
  | .process (.library (.worker _ _ _)) | .toggleRegion =>
      inferInstanceAs (Decidable True)

theorem undisturbed_of_bySocket
    (hsockets : meaning.BySocket dep socket)
    (htracked : session.proc.Tracked dep) {action : SessionAction κ ω}
    (hsafe : session.NoOverrun dep action)
    (hintact : session.proc.Intact meaning.read meaning.meant)
    (halike : session.Alike meaning action)
    (hidle : session.SocketIdle meaning socket action) :
    session.Undisturbed dep meaning action where
  noOverrun := hsafe
  intact := hintact
  alike := halike
  rings := by
    intro first hfirst second hsecond hne
    apply hsockets.commute
    exact hsockets.socket_ne_of_asked htracked
      (mem_of_mem_waiting hfirst) (mem_of_mem_waiting hsecond) hne
  direct := by
    rintro source rfl hsegment pending hmem
    exact hsockets.commute _ _ (hidle hsegment pending hmem)

/-- A call outside a segment finds no pending call at all. -/
def PendingFree (meaning : CallMeaning κ μ π ς)
    (session : Session κ μ ς) : SessionAction κ ω → Prop
  | .process (.library (.call _)) =>
      session.proc.sys.inSegment = false →
        session.proc.pendingLog meaning = []
  | _ => True

instance (meaning : CallMeaning κ μ π ς) (session : Session κ μ ς)
    (action : SessionAction κ ω) :
    Decidable (session.PendingFree meaning action) :=
  match action with
  | .process (.library (.call _)) => inferInstanceAs (Decidable (_ → _))
  | .process (.store _) | .process (.library .batchStart)
  | .process (.library .batchFlush) | .process (.library .user)
  | .process (.library (.worker _ _ _)) | .toggleRegion =>
      inferInstanceAs (Decidable True)

/-- One ring executes its calls in program order, whatever they do. -/
theorem undisturbed_of_oneRing (hratio : dep.ratio = 1)
    (htracked : session.proc.Tracked dep) {action : SessionAction κ ω}
    (hsafe : session.NoOverrun dep action)
    (hintact : session.proc.Intact meaning.read meaning.meant)
    (halike : session.Alike meaning action)
    (hfree : session.PendingFree meaning action) :
    session.Undisturbed dep meaning action where
  noOverrun := hsafe
  intact := hintact
  alike := halike
  rings := by
    intro first hfirst second hsecond hne
    exact absurd (htracked.pending_sameRing hratio hfirst hsecond) hne
  direct := by
    rintro source rfl hsegment pending hmem
    rw [hfree hsegment] at hmem
    exact absurd hmem List.not_mem_nil

/-- Carrying out the pending calls in program order leads to the kernel of the
program without the library, and the two kernels agree whenever the rings are
drained. -/
theorem kernel_as_unbatched
    {pages : ℤ → ℕ → ℕ → TableEntry} {memory : μ} {kernel : ς}
    {actions : List (SessionAction κ ω)}
    (hshares : dep.SharesEntries)
    (hsockets : meaning.BySocket dep socket)
    (hrun : Transition.run (step dep access apply meaning)
      (init dep pages memory kernel) actions = some final)
    (hmeet : Transition.StepsMeet (step dep access apply meaning)
      (fun session action => session.NoOverrun dep action ∧
        session.proc.Intact meaning.read meaning.meant ∧
        session.Alike meaning action ∧
        session.SocketIdle meaning socket action)
      (init dep pages memory kernel) actions) :
    perform meaning.effect
        ((final.proc.pendingLog meaning).map Prod.snd) final.kernel =
        final.unbatched ∧
      (final.proc.sys.user.Outside →
        (∀ k, (final.proc.sys.ring k).cursor =
          (final.proc.sys.ring k).table.tail) →
        final.kernel = final.unbatched) := by
  have hsettled : final.Settled dep meaning := by
    refine Transition.run_invariant ?_
      (init_settled dep pages memory kernel) hrun hmeet
    rintro session action next hsettled ⟨hsafe, hintact, halike, hidle⟩
      hstep
    exact hsettled.afterStep hshares (undisturbed_of_bySocket hsockets
      hsettled.tracked hsafe hintact halike hidle) hstep
  exact ⟨hsettled.settles, hsettled.eq_of_drained⟩

end Session

/-! ## A kernel that records the calls of each socket -/

def recordAt (socket : π → ℤ) (ask : π) (log : ℤ → List π) :
    ℤ → List π :=
  Function.update log (socket ask) (log (socket ask) ++ [ask])

theorem recordAt_commute {socket : π → ℤ} {first second : π}
    (hne : socket first ≠ socket second) :
    Function.Commute (recordAt socket first)
      (recordAt socket second) := by
  intro log
  unfold recordAt
  rw [Function.update_of_ne hne, Function.update_of_ne (Ne.symm hne),
    Function.update_comm hne]

/-- The first argument of a call. -/
def firstArg (args : List ℤ) : ℤ := args.headD 0

/-- The writes of redis, recorded by their descriptors. -/
def redisRecords : CallMeaning RedisCall Unit (List ℤ)
    (ℤ → List (List ℤ)) where
  read := fun entry _ => entry.args
  meant := fun source _ => [source.fd, source.buf, source.count]
  effect := recordAt firstArg
  writes := fun _ _ memory => memory

theorem redisRecords_bySocket (cfg : SetConfig) (arch : Architecture) :
    redisRecords.BySocket ⟨cfg, redis arch⟩ firstArg where
  routed := fun _ _ => rfl
  commute := by
    intro first second hne
    exact recordAt_commute hne

namespace Session

def twoRedis : Deployment RedisCall Unit := ⟨twoWorkerSet, redis .x86⟩

/-- Two writes are queued, a third one is made outside the segment, and the
second one is executed before the first. -/
def overtakenWrites : List (SessionAction RedisCall Empty) :=
  (SystemAction.segmentStart twoWorkerSet ++
      SystemAction.wholeCall (RedisCall.mk 4 64 7) ++
      SystemAction.wholeCall (RedisCall.mk 5 96 3)).map
      (fun action => .process (.library action)) ++
    [.toggleRegion, .process (.library (.call ⟨6, 128, 2⟩))] ++
    (SystemAction.workerSteps 1 false 3).map
      fun action => .process (.library action)

theorem overtakenWrites_as_unbatched :
    ∃ final,
      Transition.run (step twoRedis .atomic noStore redisRecords)
        (init twoRedis (fun _ => blankMemory) () fun _ => [])
        overtakenWrites = some final ∧
      final.proc.pendingLog redisRecords = [(0, [4, 64, 7])] ∧
      final.kernel 5 = [[5, 96, 3]] ∧ final.kernel 4 = [] ∧
      perform redisRecords.effect
        ((final.proc.pendingLog redisRecords).map Prod.snd)
        final.kernel = final.unbatched := by
  have hrun :
      Transition.run (step twoRedis .atomic noStore redisRecords)
        (init twoRedis (fun _ => blankMemory) () fun _ => [])
        overtakenWrites = some _ := rfl
  exact ⟨_, hrun, by decide +kernel, by decide +kernel,
    by decide +kernel,
    (kernel_as_unbatched (by decide) (redisRecords_bySocket _ _) hrun
      (by decide +kernel)).1⟩

end Session

end Saio
