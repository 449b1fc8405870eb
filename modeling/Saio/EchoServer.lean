import Saio.CallHistory
import Saio.ByteCopy
import Saio.DescriptorOrder
import Mathlib.Tactic

/-!
# The epoll echo server on the echo wrapper

The server receives every message into one buffer and sends it back from
there.  Inside a segment the `send` only queues an entry that points to the
buffer, and the next `recv` may overwrite the bytes before a worker has sent
them.

The bytes sent to each client are a beginning of the bytes received from it as
long as every `recv` that returns bytes finds all issued entries executed and
each ring is drained in order.
-/

namespace Saio

open FifoBank

def maxEvents : ℕ := 1024

def maxMessageLen : ℕ := 91280

/-- What `epoll_wait` reports: the listening socket or a client. -/
inductive EpollEvent
  | listener
  | client (fd : ℤ)

/-- Where the loop of `main` stands; the events are those still to be
handled. -/
inductive EchoPc
  | waiting
  | woken (events : List EpollEvent)
  | handling (events : List EpollEvent)
  | sending (fd : ℤ) (count : ℕ) (events : List EpollEvent)

/-- `main` is between `batch_start` and `batch_flush`. -/
def EchoPc.InLoop : EchoPc → Prop
  | .waiting => False
  | .woken _ => False
  | _ => True

def EchoPc.Idle : EchoPc → Prop
  | .sending _ _ _ => False
  | _ => True

structure EchoServer where
  proc : Process EchoCall EchoMemory
  pc : EchoPc
  received : List (ℤ × List UInt8)

/-- The calls that `main` makes, with their outcomes, and the steps of the
library and of the workers.  A `recv` that returns no bytes is one that
returned zero or an error. -/
inductive EchoAction
  | epollWait (events : List EpollEvent)
  | batchStart
  | accept
  | recv (bytes : List UInt8)
  | send
  | batchFlush
  | user
  | worker (k : ℤ) (expired : Bool) (sysret : ℤ)

def UserPc.isReady {κ : Type} : UserPc κ → Bool
  | .ready => true
  | _ => false

def SetConfig.echo (cfg : SetConfig) (arch : Architecture) :
    Deployment EchoCall EchoMemory :=
  ⟨cfg, Saio.echo arch⟩

namespace EchoServer

variable {cfg : SetConfig} {arch : Architecture} {access : FlagAccess}
  {buffer : ℕ} {server next final : EchoServer}

def processStep (cfg : SetConfig) (arch : Architecture)
    (access : FlagAccess) (buffer : ℕ)
    (proc : Process EchoCall EchoMemory) :
    ProcessAction EchoCall (List UInt8) →
      Option (Process EchoCall EchoMemory) :=
  proc.step (cfg.echo arch) access
    fun bytes memory => memcpy memory buffer bytes

def continueAt (server : EchoServer) (pc : EchoPc) :
    Option (Process EchoCall EchoMemory) → Option EchoServer
  | none => none
  | some proc => some { server with proc := proc, pc := pc }

/-- The loop of `main`.  The system calls that are not wrapped change neither
the rings nor the buffer. -/
def step (cfg : SetConfig) (arch : Architecture) (access : FlagAccess)
    (buffer : ℕ) (server : EchoServer) :
    EchoAction → Option EchoServer
  | .epollWait events =>
      match server.pc with
      | .waiting =>
          if server.proc.sys.user.isReady ∧ events.length ≤ maxEvents then
            some { server with pc := .woken events }
          else none
      | _ => none
  | .batchStart =>
      match server.pc with
      | .woken events =>
          server.continueAt (.handling events)
            (processStep cfg arch access buffer server.proc
              (.library .batchStart))
      | _ => none
  | .accept =>
      match server.pc with
      | .handling (.listener :: rest) =>
          if server.proc.sys.user.isReady then
            some { server with pc := .handling rest }
          else none
      | _ => none
  | .recv bytes =>
      match server.pc with
      | .handling (.client fd :: rest) =>
          if bytes = [] then
            if server.proc.sys.user.isReady then
              some { server with pc := .handling rest }
            else none
          else if bytes.length ≤ maxMessageLen then
            ({ server with
                received := server.received ++ [(fd, bytes)] } :
                EchoServer).continueAt (.sending fd bytes.length rest)
              (processStep cfg arch access buffer server.proc
                (.store bytes))
          else none
      | _ => none
  | .send =>
      match server.pc with
      | .sending fd count rest =>
          server.continueAt (.handling rest)
            (processStep cfg arch access buffer server.proc
              (.library (.call ⟨fd, buffer, count, 0⟩)))
      | _ => none
  | .batchFlush =>
      match server.pc with
      | .handling [] =>
          server.continueAt .waiting
            (processStep cfg arch access buffer server.proc
              (.library .batchFlush))
      | _ => none
  | .user =>
      server.continueAt server.pc
        (processStep cfg arch access buffer server.proc
          (.library .user))
  | .worker k expired sysret =>
      server.continueAt server.pc
        (processStep cfg arch access buffer server.proc
          (.library (.worker k expired sysret)))

def init (cfg : SetConfig) (arch : Architecture)
    (pages : ℤ → ℕ → ℕ → TableEntry) (memory : EchoMemory) :
    EchoServer where
  proc := Process.init (cfg.echo arch) pages memory
  pc := .waiting
  received := []

/-- Only a step of the library can advance a tail. -/
def NoOverrun (cfg : SetConfig) (arch : Architecture)
    (server : EchoServer) : EchoAction → Prop
  | .user => server.proc.sys.NoOverrun (cfg.echo arch) .user
  | _ => True

def AllExecuted (server : EchoServer) : Prop :=
  ∀ record ∈ server.proc.sys.issued,
    (server.proc.sys.ring record.ring).executed.length =
      (server.proc.sys.ring record.ring).issued.length

/-- A step that does not receive over bytes still to be sent. -/
def BufferFree (server : EchoServer) : EchoAction → Prop
  | .recv bytes => bytes = [] ∨ server.AllExecuted
  | _ => True

instance (cfg : SetConfig) (arch : Architecture)
    (server : EchoServer) (action : EchoAction) :
    Decidable (server.NoOverrun cfg arch action) :=
  match action with
  | .user =>
      inferInstanceAs (Decidable
        (server.proc.sys.NoOverrun (cfg.echo arch) .user))
  | .epollWait _ | .batchStart | .accept | .recv _ | .send
  | .batchFlush | .worker _ _ _ => inferInstanceAs (Decidable True)

instance (server : EchoServer) : Decidable server.AllExecuted :=
  inferInstanceAs (Decidable (∀ record ∈ _, _))

instance (server : EchoServer) (action : EchoAction) :
    Decidable (server.BufferFree action) :=
  match action with
  | .recv bytes =>
      inferInstanceAs (Decidable (bytes = [] ∨ server.AllExecuted))
  | .epollWait _ | .batchStart | .accept | .send | .batchFlush
  | .user | .worker _ _ _ => inferInstanceAs (Decidable True)

def sentBytes (entry : SysCall) (memory : EchoMemory) : List UInt8 :=
  match entry.args with
  | [_, buf, len, _, _, _] => readBytes memory buf.toNat len.toNat
  | _ => []

def meantBytes (source : EchoCall) (memory : EchoMemory) :
    List UInt8 :=
  readBytes memory source.buf source.len

/-- The bytes transmitted to a client, each `sendto` in full. -/
def transmitted (server : EchoServer) (client : ℤ) : List UInt8 :=
  (server.proc.sys.executed.filter fun record =>
    record.entry.args.head? = some client).flatMap fun record =>
      sentBytes record.entry record.memory

def receivedFrom (server : EchoServer) (client : ℤ) : List UInt8 :=
  (server.received.filter fun message =>
    message.1 = client).flatMap Prod.snd

/-! ## Inversion of the loop -/

inductive Move (cfg : SetConfig) (arch : Architecture)
    (access : FlagAccess) (buffer : ℕ) (server : EchoServer) :
    EchoAction → EchoServer → Prop
  | outside {action : EchoAction} (pc : EchoPc)
      (hbefore : server.pc.Idle) (hafter : pc.Idle)
      (hloop : pc.InLoop → server.pc.InLoop) :
      Move cfg arch access buffer server action
        { server with pc := pc }
  | library {action : EchoAction} (called : SystemAction EchoCall)
      (proc : Process EchoCall EchoMemory) (pc : EchoPc)
      (hcalled : ∀ source, called ≠ .call source)
      (hsafe : server.NoOverrun cfg arch action →
        server.proc.sys.NoOverrun (cfg.echo arch) called)
      (hproc : processStep cfg arch access buffer server.proc
        (.library called) = some proc)
      (hpc : pc = server.pc ∧ proc.sys.inSegment =
          server.proc.sys.inSegment ∨
        server.pc.Idle ∧ pc.Idle ∧
          (pc.InLoop → proc.sys.inSegment = true)) :
      Move cfg arch access buffer server action
        { server with proc := proc, pc := pc }
  | recv (bytes : List UInt8) (fd : ℤ) (rest : List EpollEvent)
      (proc : Process EchoCall EchoMemory)
      (hpc : server.pc = .handling (.client fd :: rest))
      (hbytes : bytes ≠ [])
      (hproc : processStep cfg arch access buffer server.proc
        (.store bytes) = some proc) :
      Move cfg arch access buffer server (.recv bytes)
        { proc := proc
          pc := .sending fd bytes.length rest
          received := server.received ++ [(fd, bytes)] }
  | send (fd : ℤ) (count : ℕ) (rest : List EpollEvent)
      (proc : Process EchoCall EchoMemory)
      (hpc : server.pc = .sending fd count rest)
      (hproc : processStep cfg arch access buffer server.proc
        (.library (.call ⟨fd, buffer, count, 0⟩)) = some proc) :
      Move cfg arch access buffer server .send
        { server with proc := proc, pc := .handling rest }

theorem continueAt_eq_some {pc : EchoPc}
    {outcome : Option (Process EchoCall EchoMemory)}
    (hstep : server.continueAt pc outcome = some next) :
    ∃ proc, outcome = some proc ∧
      next = { server with proc := proc, pc := pc } := by
  cases outcome with
  | none => simp [continueAt] at hstep
  | some proc => exact ⟨proc, rfl, (Option.some.inj hstep).symm⟩

theorem noOverrun_of_ne_user {sys : System EchoCall EchoMemory}
    {action : SystemAction EchoCall} (hne : action ≠ .user) :
    sys.NoOverrun (cfg.echo arch) action := by
  intro idx hmem
  unfold System.advancedRing at hmem
  split at hmem
  next => contradiction
  next => simp at hmem

theorem step_move {action : EchoAction}
    (hstep : server.step cfg arch access buffer action = some next) :
    Move cfg arch access buffer server action next := by
  cases action with
  | epollWait events =>
      simp only [step] at hstep
      split at hstep
      next hpc =>
        split at hstep
        next =>
          cases hstep
          exact .outside _ (by rw [hpc]; trivial) trivial
            (by rw [hpc]; exact id)
        next => simp at hstep
      next => simp at hstep
  | batchStart =>
      simp only [step] at hstep
      split at hstep
      next events hpc =>
        obtain ⟨proc, hproc, rfl⟩ := continueAt_eq_some hstep
        have hsys := (Process.step_library hproc).1
        have hnext := (System.step_batchStart hsys).2
        exact .library .batchStart proc _ (by simp)
          (fun _ => noOverrun_of_ne_user (by simp)) hproc
          (Or.inr ⟨by rw [hpc]; trivial, trivial,
            fun _ => by rw [hnext]; rfl⟩)
      next => simp at hstep
  | accept =>
      simp only [step] at hstep
      split at hstep
      next rest hpc =>
        split at hstep
        next =>
          cases hstep
          exact .outside _ (by rw [hpc]; trivial) trivial
            (by rw [hpc]; exact id)
        next => simp at hstep
      next => simp at hstep
  | recv bytes =>
      simp only [step] at hstep
      split at hstep
      next fd rest hpc =>
        split at hstep
        next =>
          split at hstep
          next =>
            cases hstep
            exact .outside _ (by rw [hpc]; trivial) trivial
              (by rw [hpc]; exact id)
          next => simp at hstep
        next hbytes =>
          split at hstep
          next =>
            obtain ⟨proc, hproc, rfl⟩ := continueAt_eq_some hstep
            exact .recv bytes fd rest proc hpc hbytes hproc
          next => simp at hstep
      next => simp at hstep
  | send =>
      simp only [step] at hstep
      split at hstep
      next fd count rest hpc =>
        obtain ⟨proc, hproc, rfl⟩ := continueAt_eq_some hstep
        exact .send fd count rest proc hpc hproc
      next => simp at hstep
  | batchFlush =>
      simp only [step] at hstep
      split at hstep
      next hpc =>
        obtain ⟨proc, hproc, rfl⟩ := continueAt_eq_some hstep
        exact .library .batchFlush proc _ (by simp)
          (fun _ => noOverrun_of_ne_user (by simp)) hproc
          (Or.inr ⟨by rw [hpc]; trivial, trivial, fun h => h.elim⟩)
      next => simp at hstep
  | user =>
      obtain ⟨proc, hproc, rfl⟩ := continueAt_eq_some hstep
      have hsegment :=
        System.userStep_inSegment (Process.step_library hproc).1
      exact .library .user proc _ (by simp) id hproc
        (Or.inl ⟨rfl, hsegment⟩)
  | worker k expired sysret =>
      obtain ⟨proc, hproc, rfl⟩ := continueAt_eq_some hstep
      have hworker :=
        (System.step_worker (Process.step_library hproc).1).2
      exact .library (.worker k expired sysret) proc _ (by simp)
        (fun _ => noOverrun_of_ne_user (by simp)) hproc
        (Or.inl ⟨rfl, (System.workerStep_frame hworker).inSegment_eq⟩)

/-- A step without overrun keeps the calls in the rings accounted for. -/
theorem Move.tracked {action : EchoAction}
    (htracked : server.proc.Tracked (cfg.echo arch))
    (hsafe : server.NoOverrun cfg arch action)
    (hmove : Move cfg arch access buffer server action next) :
    next.proc.Tracked (cfg.echo arch) := by
  cases hmove with
  | outside _ _ _ _ => exact htracked
  | library _ _ _ _ hoverrun hproc _ =>
      exact htracked.afterStep hproc (hoverrun hsafe)
  | recv _ _ _ _ _ _ hproc => exact htracked.afterStep hproc trivial
  | send _ _ _ _ _ hproc =>
      exact htracked.afterStep hproc (noOverrun_of_ne_user (by simp))

theorem run_tracked {pages : ℤ → ℕ → ℕ → TableEntry}
    {memory : EchoMemory} {actions : List EchoAction}
    (hrun : Transition.run (step cfg arch access buffer)
      (init cfg arch pages memory) actions = some final)
    (hsafe : Transition.StepsMeet (step cfg arch access buffer)
      (NoOverrun cfg arch) (init cfg arch pages memory) actions) :
    final.proc.Tracked (cfg.echo arch) := by
  have hkept : ∀ (server : EchoServer) (action : EchoAction)
      (next : EchoServer), server.proc.Tracked (cfg.echo arch) →
      server.NoOverrun cfg arch action →
      server.step cfg arch access buffer action = some next →
      next.proc.Tracked (cfg.echo arch) :=
    fun _ _ _ htracked hclear hstep =>
      (step_move hstep).tracked htracked hclear
  exact Transition.run_invariant hkept
    (Process.init_tracked _ pages memory) hrun hsafe

/-! ## The buffer between two messages -/

/-- The message received and not yet handed to `send`. -/
def unsent (buffer : ℕ) (server : EchoServer) :
    List (ℤ × List UInt8) :=
  match server.pc with
  | .sending fd count _ =>
      [(fd, readBytes server.proc.sys.memory buffer count)]
  | _ => []

theorem unsent_of_idle (hidle : server.pc.Idle) :
    server.unsent buffer = [] := by
  unfold unsent
  cases hpc : server.pc with
  | sending fd count rest =>
      rw [hpc] at hidle
      exact hidle.elim
  | _ => rfl

/-- The messages as the queued calls found them in the buffer. -/
def echoed (server : EchoServer) : List (ℤ × List UInt8) :=
  server.proc.queued.map fun call =>
    (call.source.sockfd, meantBytes call.source call.memory)

structure Echoes (cfg : SetConfig) (arch : Architecture)
    (buffer : ℕ) (server : EchoServer) : Prop where
  tracked : server.proc.Tracked (cfg.echo arch)
  segment : server.pc.InLoop → server.proc.sys.inSegment = true
  conveys : server.proc.sys.DrainsInOrder →
    server.proc.Conveys sentBytes meantBytes
  received_eq : server.received = server.echoed ++ server.unsent buffer
  intact : server.proc.Intact sentBytes meantBytes

theorem sentBytes_sendtoEntry (source : EchoCall)
    (memory : EchoMemory) :
    sentBytes
        (sendtoEntry arch source.sockfd source.buf source.len
          source.flags) memory =
      meantBytes source memory := by
  simp [sentBytes, sendtoEntry, meantBytes]

theorem init_echoes (pages : ℤ → ℕ → ℕ → TableEntry)
    (memory : EchoMemory) :
    (init cfg arch pages memory).Echoes cfg arch buffer where
  tracked := Process.init_tracked _ pages memory
  segment := fun h => h.elim
  conveys := fun _ => Process.init_conveys _ pages memory
  received_eq := rfl
  intact := Process.init_intact _ pages memory

namespace Echoes

theorem entry_eq (hechoes : server.Echoes cfg arch buffer)
    {k : ℤ} {n : ℕ} {call : Queued EchoCall EchoMemory}
    (hget : (server.proc.queuedOn k)[n]? = some call) :
    call.entry = sendtoEntry arch call.source.sockfd call.source.buf
      call.source.len call.source.flags :=
  (hechoes.tracked.built k n call hget).2

theorem of_sameBuffer (hechoes : server.Echoes cfg arch buffer)
    (htracked : next.proc.Tracked (cfg.echo arch))
    (hconveys : next.proc.sys.DrainsInOrder →
      next.proc.Conveys sentBytes meantBytes)
    (hintact : next.proc.Intact sentBytes meantBytes)
    (hsegment : next.pc.InLoop → next.proc.sys.inSegment = true)
    (hreceived : next.received = server.received)
    (hunsent : next.unsent buffer = server.unsent buffer)
    (hqueued : next.proc.queued = server.proc.queued) :
    next.Echoes cfg arch buffer where
  tracked := htracked
  segment := hsegment
  conveys := hconveys
  received_eq := by
    unfold echoed
    rw [hreceived, hunsent, hqueued]
    exact hechoes.received_eq
  intact := hintact

theorem unsent_eq
    (hpc : next.pc = server.pc ∨ server.pc.Idle ∧ next.pc.Idle)
    (hmemory : next.proc.sys.memory = server.proc.sys.memory) :
    next.unsent buffer = server.unsent buffer := by
  rcases hpc with hsame | ⟨hbefore, hafter⟩
  · unfold unsent
    rw [hsame, hmemory]
  · rw [unsent_of_idle hbefore, unsent_of_idle hafter]

/-- If the rings are drained in order up to the next state, the executed
entries go on sending what was meant. -/
theorem conveys_afterTraffic (hechoes : server.Echoes cfg arch buffer)
    {proc : Process EchoCall EchoMemory}
    {action : ProcessAction EchoCall (List UInt8)}
    (htraffic : Process.Traffic (cfg.echo arch)
      (fun bytes memory => memcpy memory buffer bytes) server.proc action
      proc)
    (htracked : proc.Tracked (cfg.echo arch))
    (horder : proc.sys.DrainsInOrder) :
    proc.Conveys sentBytes meantBytes := by
  have hbefore :=
    hechoes.tracked.drainsInOrder_before htracked htraffic horder
  exact (hechoes.conveys hbefore).afterTraffic hechoes.tracked htracked
    horder hechoes.intact htraffic

theorem afterLibrary (hechoes : server.Echoes cfg arch buffer)
    {called : SystemAction EchoCall}
    {proc : Process EchoCall EchoMemory} {pc : EchoPc}
    (hcalled : ∀ source, called ≠ .call source)
    (hsafe : server.proc.sys.NoOverrun (cfg.echo arch) called)
    (hproc : processStep cfg arch access buffer server.proc
      (.library called) = some proc)
    (hpc : pc = server.pc ∧ proc.sys.inSegment =
        server.proc.sys.inSegment ∨
      server.pc.Idle ∧ pc.Idle ∧
        (pc.InLoop → proc.sys.inSegment = true)) :
    ({ server with proc := proc, pc := pc } : EchoServer).Echoes cfg
      arch buffer := by
  have htraffic := Process.step_traffic hproc
  have htracked := hechoes.tracked.afterStep hproc hsafe
  have hconveys := hechoes.conveys_afterTraffic htraffic htracked
  have hsame : proc.sys.memory = server.proc.sys.memory ∧
      proc.queued = server.proc.queued := by
    cases htraffic with
    | other _ _ _ hmemory hqueued => exact ⟨hmemory, hqueued⟩
    | execute _ _ _ _ _ _ _ hmemory hqueued => exact ⟨hmemory, hqueued⟩
    | call source _ _ _ _ _ _ _ _ => exact absurd rfl (hcalled source)
  have hintact : proc.Intact sentBytes meantBytes := by
    refine hechoes.intact.afterTraffic htraffic hechoes.tracked htracked
      ?_ ?_
    · intro k n call _ _
      rw [hsame.1]
    · intro source haction _
      exact absurd (ProcessAction.library.inj haction) (hcalled source)
  refine hechoes.of_sameBuffer htracked hconveys hintact ?_ rfl ?_
    hsame.2
  · intro hloop
    rcases hpc with ⟨hpc, hsegment⟩ | ⟨_, _, hsegment⟩
    · rw [hsegment]
      apply hechoes.segment
      rw [← hpc]
      exact hloop
    · exact hsegment hloop
  · refine unsent_eq ?_ hsame.1
    exact hpc.imp (fun h => h.1) (fun h => ⟨h.1, h.2.1⟩)

/-- With all entries executed no queued call looks at the buffer any more. -/
theorem executed_of_allExecuted (hechoes : server.Echoes cfg arch buffer)
    (hready : server.proc.sys.user = .ready)
    (hall : server.AllExecuted) {k : ℤ} {n : ℕ}
    {call : Queued EchoCall EchoMemory}
    (hget : (server.proc.queuedOn k)[n]? = some call) :
    n < (server.proc.sys.ring k).executed.length := by
  have houtside : server.proc.sys.user.Outside := by
    rw [hready]
    trivial
  have hmem : (k, call) ∈ server.proc.queued.map fun other =>
      (other.ring, other) :=
    mem_lane.mp (List.mem_of_getElem? hget)
  obtain ⟨other, hother, heq⟩ := List.mem_map.mp hmem
  obtain ⟨rfl, rfl⟩ := Prod.mk.inj heq
  have hissued : Process.toIssued other ∈ server.proc.sys.issued := by
    rw [← System.called_of_outside houtside, ← hechoes.tracked.called_eq]
    exact List.mem_map_of_mem hother
  have hexecuted := hall _ hissued
  change (server.proc.sys.ring other.ring).executed.length = _
    at hexecuted
  rw [hexecuted, ← hechoes.tracked.length_of_outside houtside]
  exact (List.getElem?_eq_some_iff.mp hget).1

theorem afterRecv (hechoes : server.Echoes cfg arch buffer)
    {bytes : List UInt8} {fd : ℤ} {rest : List EpollEvent}
    {proc : Process EchoCall EchoMemory}
    (hfree : server.AllExecuted)
    (hpc : server.pc = .handling (.client fd :: rest))
    (hproc : processStep cfg arch access buffer server.proc
      (.store bytes) = some proc) :
    ({ proc := proc
       pc := .sending fd bytes.length rest
       received := server.received ++ [(fd, bytes)] } :
        EchoServer).Echoes cfg arch buffer := by
  have htracked := hechoes.tracked.afterStep hproc trivial
  obtain ⟨hready, rfl⟩ := Process.step_store hproc
  constructor
  · exact htracked
  · intro _
    apply hechoes.segment
    rw [hpc]
    trivial
  · exact hechoes.conveys
  · have hbefore := hechoes.received_eq
    rw [unsent_of_idle (by rw [hpc]; trivial), List.append_nil]
      at hbefore
    change server.received ++ [(fd, bytes)] = server.echoed ++
      [(fd, readBytes (memcpy server.proc.sys.memory buffer bytes)
        buffer bytes.length)]
    rw [hbefore, readBytes_memcpy_self]
  · intro k n call hpending
    have hdone :=
      hechoes.executed_of_allExecuted hready hfree hpending.1
    exact absurd hpending.2 (Nat.not_le.mpr hdone)

theorem afterSend (hechoes : server.Echoes cfg arch buffer)
    {fd : ℤ} {count : ℕ} {rest : List EpollEvent}
    {proc : Process EchoCall EchoMemory}
    (hpc : server.pc = .sending fd count rest)
    (hproc : processStep cfg arch access buffer server.proc
      (.library (.call ⟨fd, buffer, count, 0⟩)) = some proc) :
    ({ server with proc := proc, pc := .handling rest } :
      EchoServer).Echoes cfg arch buffer := by
  have hsegment : server.proc.sys.inSegment = true :=
    hechoes.segment (by rw [hpc]; trivial)
  obtain ⟨hsys, hqueued⟩ := Process.step_library hproc
  obtain ⟨hready, hcall⟩ := System.step_call hsys
  obtain ⟨_, hmemory, _, hexecuted, _⟩ :=
    System.call_queued hsegment hcall
  have htraffic := Process.step_traffic hproc
  have htracked := hechoes.tracked.afterStep hproc
    (noOverrun_of_ne_user (by simp))
  have hconveys := hechoes.conveys_afterTraffic htraffic htracked
  rw [System.queuedBy, if_pos hsegment] at hqueued
  have hsame : proc.sys.memory = server.proc.sys.memory := hmemory
  constructor
  · exact htracked
  · intro _
    rw [System.call_inSegment hcall]
    exact hsegment
  · exact hconveys
  · have hbefore := hechoes.received_eq
    unfold unsent at hbefore
    rw [hpc] at hbefore
    change server.received = proc.queued.map _ ++ []
    rw [hqueued, List.map_append, List.append_nil]
    exact hbefore
  · refine hechoes.intact.afterTraffic htraffic hechoes.tracked htracked
      ?_ ?_
    · intro k n call _ _
      rw [hsame]
    · intro source _ _
      exact sentBytes_sendtoEntry _ _

theorem afterOutside (hechoes : server.Echoes cfg arch buffer)
    {pc : EchoPc} (hbefore : server.pc.Idle) (hafter : pc.Idle)
    (hloop : pc.InLoop → server.pc.InLoop) :
    ({ server with pc := pc } : EchoServer).Echoes cfg arch buffer :=
  hechoes.of_sameBuffer hechoes.tracked hechoes.conveys hechoes.intact
    (fun hin => hechoes.segment (hloop hin)) rfl
    (unsent_eq (Or.inr ⟨hbefore, hafter⟩) rfl) rfl

theorem afterMove (hechoes : server.Echoes cfg arch buffer)
    {action : EchoAction}
    (hsafe : server.NoOverrun cfg arch action ∧ server.BufferFree action)
    (hmove : Move cfg arch access buffer server action next) :
    next.Echoes cfg arch buffer := by
  cases hmove with
  | outside pc hbefore hafter hloop =>
      exact hechoes.afterOutside hbefore hafter hloop
  | library called proc pc hcalled hoverrun hproc hpc =>
      exact hechoes.afterLibrary hcalled (hoverrun hsafe.1) hproc hpc
  | recv bytes fd rest proc hpc hbytes hproc =>
      exact hechoes.afterRecv (hsafe.2.resolve_left hbytes) hpc hproc
  | send fd count rest proc hpc hproc =>
      exact hechoes.afterSend hpc hproc

theorem confined (hechoes : server.Echoes cfg arch buffer)
    (client : ℤ) :
    Confined (fun item : SysCall × List UInt8 =>
        item.1.args.head? = some client)
      ((cfg.echo arch).ringIndex client)
      (server.proc.meantLog meantBytes) := by
  intro item hmem hclient
  obtain ⟨call, hcall, rfl⟩ := List.mem_map.mp hmem
  obtain ⟨n, hget, hring⟩ := hechoes.tracked.mem_queuedOn hcall
  change call.entry.args.head? = some client at hclient
  rw [hechoes.entry_eq hget] at hclient
  have hsame : call.source.sockfd = client := Option.some.inj hclient
  change call.ring = _
  rw [hring, ← hsame]
  rfl

theorem sentLog_filter (client : ℤ) :
    (((server.proc.sentLog sentBytes).map Prod.snd).filter fun item =>
        item.1.args.head? = some client).map Prod.snd =
      (server.proc.sys.executed.filter fun record =>
        record.entry.args.head? = some client).map fun record =>
          sentBytes record.entry record.memory := by
  unfold Process.sentLog
  rw [List.map_map, List.filter_map, List.map_map]
  rfl

theorem echoed_filter (hechoes : server.Echoes cfg arch buffer)
    (client : ℤ) :
    (((server.proc.meantLog meantBytes).map Prod.snd).filter fun item =>
        item.1.args.head? = some client).map Prod.snd =
      (server.echoed.filter fun message =>
        message.1 = client).map Prod.snd := by
  have hentries : ∀ call ∈ server.proc.queued,
      call.entry.args.head? = some call.source.sockfd := by
    intro call hcall
    obtain ⟨n, hget, _⟩ := hechoes.tracked.mem_queuedOn hcall
    rw [hechoes.entry_eq hget]
    rfl
  unfold Process.meantLog echoed
  rw [List.map_map, List.filter_map, List.filter_map, List.map_map,
    List.map_map]
  have hfilter : server.proc.queued.filter
        ((fun item : SysCall × List UInt8 =>
          decide (item.1.args.head? = some client)) ∘ Prod.snd ∘
            fun call => (call.ring, call.entry,
              meantBytes call.source call.memory)) =
      server.proc.queued.filter
        ((fun message : ℤ × List UInt8 =>
          decide (message.1 = client)) ∘ fun call =>
            (call.source.sockfd, meantBytes call.source call.memory)) := by
    apply List.filter_congr
    intro call hcall
    simp [hentries call hcall]
  rw [hfilter]
  rfl

theorem transmitted_prefix (hechoes : server.Echoes cfg arch buffer)
    (horder : server.proc.sys.DrainsInOrder) (client : ℤ) :
    server.transmitted client <+: server.receivedFrom client := by
  have hsent :
      ((server.proc.sentLog sentBytes).map Prod.snd).filter (fun item =>
          item.1.args.head? = some client) <+:
        ((server.proc.meantLog meantBytes).map Prod.snd).filter fun item =>
          item.1.args.head? = some client :=
    (hechoes.conveys horder).bank.filter_prefix_of_confined
      (hechoes.confined client)
  have hechoed : server.echoed <+: server.received := by
    rw [hechoes.received_eq]
    exact List.prefix_append _ _
  have hmessages :
      ((server.proc.sys.executed.filter fun record =>
          record.entry.args.head? = some client).map fun record =>
            sentBytes record.entry record.memory) <+:
        (server.received.filter fun message =>
          message.1 = client).map Prod.snd := by
    have hmap := hsent.map Prod.snd
    have hreceived := (hechoed.filter fun message =>
      message.1 = client).map Prod.snd
    rw [sentLog_filter client] at hmap
    rw [← hechoes.echoed_filter client] at hreceived
    exact hmap.trans hreceived
  unfold transmitted receivedFrom
  rw [List.flatMap_def, List.flatMap_def]
  exact hmessages.flatten

end Echoes

/-- The bytes transmitted to each client are a beginning of those received
from it, as long as every `recv` that returns bytes finds the buffer free and
each ring is drained in order. -/
theorem transmitted_prefix_received
    {pages : ℤ → ℕ → ℕ → TableEntry} {memory : EchoMemory}
    {actions : List EchoAction}
    (hrun : Transition.run (step cfg arch access buffer)
      (init cfg arch pages memory) actions = some final)
    (hsafe : Transition.StepsMeet (step cfg arch access buffer)
      (fun server action => server.NoOverrun cfg arch action ∧
        server.BufferFree action)
      (init cfg arch pages memory) actions)
    (horder : final.proc.sys.DrainsInOrder) (client : ℤ) :
    final.transmitted client <+: final.receivedFrom client := by
  have hechoes : final.Echoes cfg arch buffer :=
    Transition.run_invariant
      (fun _ _ _ hbefore hmeets hstep =>
        hbefore.afterMove hmeets (step_move hstep))
      (init_echoes pages memory) hrun hsafe
  exact hechoes.transmitted_prefix horder client

def twoClients : List EchoAction :=
  [.epollWait [.client 4, .client 5, .client 4], .batchStart,
    .user, .user, .user, .user, .user]

/-- The worker sends the first message before the second is received; the
first client hangs up while the second message is still to be sent. -/
def sentInTime : List EchoAction :=
  twoClients ++
    [.recv [97], .send, .user, .user,
      .worker 0 false 0, .worker 0 false 0, .worker 0 false 1,
      .recv [98], .send, .user, .user, .recv []]

theorem sentInTime_transmitted :
    ∃ final,
      Transition.run (step oneWorkerSet .x86 .atomic 16)
        (init oneWorkerSet .x86 (fun _ => blankMemory) fun _ => 0)
        sentInTime = some final ∧
      final.transmitted 4 = [97] ∧
      final.transmitted 4 <+: final.receivedFrom 4 := by
  have hrun :
      Transition.run (step oneWorkerSet .x86 .atomic 16)
        (init oneWorkerSet .x86 (fun _ => blankMemory) fun _ => 0)
        sentInTime = some _ := rfl
  have horder := (run_tracked hrun (by decide)).good.drainsInOrder
    (by decide)
  exact ⟨_, hrun, rfl,
    transmitted_prefix_received hrun (by decide) horder 4⟩

/-- The second message is received before the worker has sent the first. -/
def overwritten : List EchoAction :=
  twoClients ++
    [.recv [97], .send, .user, .user,
      .recv [98], .send, .user, .user,
      .worker 0 false 0, .worker 0 false 0, .worker 0 false 1]

/-- The first client is sent what the second one wrote. -/
theorem overwritten_crosses_clients :
    ∃ final,
      Transition.run (step oneWorkerSet .x86 .atomic 16)
        (init oneWorkerSet .x86 (fun _ => blankMemory) fun _ => 0)
        overwritten = some final ∧
      Transition.StepsMeet (step oneWorkerSet .x86 .atomic 16)
        (NoOverrun oneWorkerSet .x86)
        (init oneWorkerSet .x86 (fun _ => blankMemory) fun _ => 0)
        overwritten ∧
      final.proc.sys.DrainsInOrder ∧
      final.receivedFrom 4 = [97] ∧
      final.transmitted 4 = [98] ∧
      ¬ final.transmitted 4 <+: final.receivedFrom 4 := by
  have hrun :
      Transition.run (step oneWorkerSet .x86 .atomic 16)
        (init oneWorkerSet .x86 (fun _ => blankMemory) fun _ => 0)
        overwritten = some _ := rfl
  have hsafe :
      Transition.StepsMeet (step oneWorkerSet .x86 .atomic 16)
        (NoOverrun oneWorkerSet .x86)
        (init oneWorkerSet .x86 (fun _ => blankMemory) fun _ => 0)
        overwritten := by
    decide
  have horder := (run_tracked hrun hsafe).good.drainsInOrder (by decide)
  refine ⟨_, hrun, hsafe, horder, rfl, rfl, ?_⟩
  change ¬ [98] <+: [97]
  decide

end EchoServer

end Saio
