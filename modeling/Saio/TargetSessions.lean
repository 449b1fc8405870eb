import Saio.Transparency
import Saio.OffsetCells
import Saio.PoolWrites
import Mathlib.Tactic

/-!
# The kernel behind three targets

For a target the conditions of a session come down to what its application has
to observe.  The wrapper of lighttpd copies the offset of each transfer and
advances the caller's offset at once by the whole count; the two programs go on
alike if the kernel would have sent that many bytes.  redis hands over the
caller's pointer, and must not write to a buffer as long as a write from it is
pending.  nginx with one worker per process executes all calls in program
order, so nothing is asked of the kernel; its pool has to hold one block more
than the ring has entries.
-/

namespace Saio

open FifoBank

variable {ς : Type} {cfg : SetConfig} {arch : Architecture}
  {access : FlagAccess}

/-! ## lighttpd -/

inductive LightyAsk
  | shutdown (fd how : ℤ)
  | transfer (range : FileRange)
  | other (entry : SysCall)
  deriving DecidableEq

/-- The socket that the kernel acts on. -/
def LightyAsk.socket : LightyAsk → ℤ
  | .shutdown fd _ => fd
  | .transfer range => range.outFd
  | .other entry => firstArg entry.args

def lightyRead (arch : Architecture) (entry : SysCall)
    (memory : LightyMemory) : LightyAsk :=
  if entry.sysnum = EscaCall.shutdown.number arch then
    match entry.args with
    | [fd, how] => .shutdown fd how
    | _ => .other entry
  else if entry.sysnum = EscaCall.sendfile.number arch then
    match entry.args with
    | [outFd, inFd, cell, count] =>
        .transfer ⟨outFd, inFd, memory cell, count⟩
    | _ => .other entry
  else .other entry

def lightyMeant (source : LightyCall) (memory : LightyMemory) :
    LightyAsk :=
  match source with
  | .shutdown fd how => .shutdown fd how
  | .sendfile64 outFd inFd offset count =>
      .transfer ⟨outFd, inFd, memory offset, count⟩

/-- A direct transfer advances the caller's offset by what has been sent. -/
def lightyWrites (sent : LightyAsk → ς → ℤ) (source : LightyCall)
    (kernel : ς) (memory : LightyMemory) : LightyMemory :=
  match source with
  | .shutdown _ _ => memory
  | .sendfile64 outFd inFd offset count =>
      let result :=
        sent (.transfer ⟨outFd, inFd, memory offset, count⟩) kernel
      if 0 < result then
        storeOffset memory offset (memory offset + result)
      else memory

/-- The kernel has sent `sent ask` bytes, or returned an error. -/
def lightyMeaning (arch : Architecture) (effect : LightyAsk → ς → ς)
    (sent : LightyAsk → ς → ℤ) :
    CallMeaning LightyCall LightyMemory LightyAsk ς where
  read := lightyRead arch
  meant := lightyMeant
  effect := effect
  writes := lightyWrites sent

/-- The kernel would send all of a transfer. -/
def LightyCall.Completes (sent : LightyAsk → ς → ℤ) (kernel : ς)
    (memory : LightyMemory) : LightyCall → Prop
  | .shutdown _ _ => True
  | .sendfile64 outFd inFd offset count =>
      sent (.transfer ⟨outFd, inFd, memory offset, count⟩) kernel = count

instance (sent : LightyAsk → ς → ℤ) (kernel : ς) (memory : LightyMemory)
    (source : LightyCall) :
    Decidable (source.Completes sent kernel memory) :=
  match source with
  | .shutdown _ _ => inferInstanceAs (Decidable True)
  | .sendfile64 _ _ _ _ => inferInstanceAs (Decidable (_ = _))

section Lighty

variable {offArr : ℤ} {effect : LightyAsk → ς → ς}
  {sent : LightyAsk → ς → ℤ} {memory : LightyMemory}
  {session next final : Session LightyCall LightyMemory ς}

/-- The calls are valid, and the application stores outside the library. -/
def SessionAction.Proper (offArr : ℤ) :
    SessionAction LightyCall (ℤ × ℤ) → Prop
  | .process (.library (.call source)) => source.Valid offArr
  | .process (.store value) => ¬ InOffArr offArr value.1
  | _ => True

instance (offArr : ℤ) (action : SessionAction LightyCall (ℤ × ℤ)) :
    Decidable (action.Proper offArr) :=
  match action with
  | .process (.library (.call source)) =>
      inferInstanceAs (Decidable (source.Valid offArr))
  | .process (.store _) => inferInstanceAs (Decidable (¬ _))
  | .process (.library .batchStart) | .process (.library .batchFlush)
  | .process (.library .user) | .process (.library (.worker _ _ _))
  | .toggleRegion => inferInstanceAs (Decidable True)

/-- A queued call would complete if it were made directly. -/
def Session.Completes (sent : LightyAsk → ς → ℤ)
    (session : Session LightyCall LightyMemory ς) :
    SessionAction LightyCall (ℤ × ℤ) → Prop
  | .process (.library (.call source)) =>
      session.proc.sys.inSegment = true →
        source.Completes sent session.unbatched session.plain
  | _ => True

instance (sent : LightyAsk → ς → ℤ)
    (session : Session LightyCall LightyMemory ς)
    (action : SessionAction LightyCall (ℤ × ℤ)) :
    Decidable (session.Completes sent action) :=
  match action with
  | .process (.library (.call _)) => inferInstanceAs (Decidable (_ → _))
  | .process (.store _) | .process (.library .batchStart)
  | .process (.library .batchFlush) | .process (.library .user)
  | .process (.library (.worker _ _ _)) | .toggleRegion =>
      inferInstanceAs (Decidable True)

theorem OffsetsKept.of_sameEntries
    {proc later : Process LightyCall LightyMemory}
    (hkept : OffsetsKept cfg arch offArr proc)
    (hlimits : cfg.WithinLimits)
    (htracked : later.Tracked (cfg.lighty arch offArr))
    (hsame : proc.SameEntries later)
    (hcells : ∀ address, InOffArr offArr address →
      later.sys.memory address = proc.sys.memory address) :
    OffsetsKept cfg arch offArr later where
  tracked := htracked
  valid := by
    rw [hsame.queued_eq]
    exact hkept.valid
  intact := by
    intro k n call hafter
    have hpending := hsame.pending hafter
    rw [← hkept.intact k n call hpending]
    apply rangeRead_congr
    intro cell hcell
    apply hcells
    rw [hkept.cell_eq hpending.1 hcell]
    exact cellAt_inOffArr hlimits (hkept.ring_inSet hpending.1)
  conveys := hsame.conveys hkept.conveys

theorem lightyWrites_of_ne {source : LightyCall} {kernel : ς}
    {address : ℤ} (hne : ∀ outFd inFd offset count,
      source = .sendfile64 outFd inFd offset count → address ≠ offset) :
    lightyWrites sent source kernel memory address = memory address := by
  cases source with
  | shutdown fd how => rfl
  | sendfile64 outFd inFd offset count =>
      simp only [lightyWrites]
      split
      next => exact storeOffset_of_ne (hne outFd inFd offset count rfl)
      next => rfl

/-- A valid call writes outside the library. -/
theorem lightyWrites_inside {source : LightyCall} {kernel : ς}
    {address : ℤ} (hvalid : source.Valid offArr)
    (hinside : InOffArr offArr address) :
    lightyWrites sent source kernel memory address = memory address := by
  apply lightyWrites_of_ne
  rintro outFd inFd offset count rfl rfl
  exact hvalid.2.2.1 hinside

/-- The wrapper does to the caller's memory what a complete call does. -/
theorem lightyWrites_of_completes {source : LightyCall} {kernel : ς}
    (hvalid : source.Valid offArr)
    (hcompletes : source.Completes sent kernel memory) :
    lightyWrites sent source kernel memory =
      source.advanced memory := by
  cases source with
  | shutdown fd how => rfl
  | sendfile64 outFd inFd offset count =>
      have hresult : sent (.transfer ⟨outFd, inFd, memory offset, count⟩)
          kernel = count := hcompletes
      have hcount : 0 ≤ count := hvalid.2.2.2
      simp only [lightyWrites, LightyCall.advanced, hresult]
      split
      next => rfl
      next hzero =>
        have hnone : count = 0 := by omega
        funext address
        by_cases haddress : address = offset
        · rw [haddress, storeOffset_self, hnone, add_zero]
        · rw [storeOffset_of_ne haddress]

theorem OffsetsKept.afterSession
    (hkept : OffsetsKept cfg arch offArr session.proc)
    (hshares : cfg.SharesEntries) (hlimits : cfg.WithinLimits)
    {action : SessionAction LightyCall (ℤ × ℤ)}
    (hsafe : session.NoOverrun (cfg.lighty arch offArr) action)
    (hproper : action.Proper offArr)
    (hstep : session.step (cfg.lighty arch offArr) access storeAt
      (lightyMeaning arch effect sent) action = some next) :
    OffsetsKept cfg arch offArr next.proc := by
  obtain ⟨htracked, ⟨rfl, hsame⟩ | ⟨source, rfl, _, hsame, hmemory⟩ |
    ⟨inner, rfl, hinside, hproc⟩⟩ :=
      Session.step_cases hkept.tracked hsafe hstep
  · exact hkept.of_sameEntries hlimits htracked hsame.toSameEntries
      fun _ _ => by rw [hsame.memory_eq]
  · refine hkept.of_sameEntries hlimits htracked hsame ?_
    intro address hinside
    rw [hmemory]
    exact lightyWrites_inside hproper hinside
  · refine hkept.afterStep hshares hlimits hsafe ?_ hproc
    cases inner with
    | store value => exact hproper
    | library action =>
        cases action with
        | call source => exact ⟨hinside source rfl, hproper⟩
        | _ => trivial

/-- The pending transfers are intact, and outside the library the memory is
that of the program without it. -/
structure LightyKept (cfg : SetConfig) (arch : Architecture)
    (offArr : ℤ) (session : Session LightyCall LightyMemory ς) :
    Prop where
  offsets : OffsetsKept cfg arch offArr session.proc
  plain_eq : ∀ address, ¬ InOffArr offArr address →
    session.plain address = session.proc.sys.memory address

namespace LightyKept

theorem meant_eq (hkept : LightyKept cfg arch offArr session)
    {source : LightyCall} (hvalid : source.Valid offArr) :
    lightyMeant source session.plain =
      lightyMeant source session.proc.sys.memory := by
  cases source with
  | shutdown fd how => rfl
  | sendfile64 outFd inFd offset count =>
      simp only [lightyMeant, hkept.plain_eq offset hvalid.2.2.1]

theorem alike (hkept : LightyKept cfg arch offArr session)
    {action : SessionAction LightyCall (ℤ × ℤ)}
    (hproper : action.Proper offArr) :
    session.Alike (lightyMeaning arch effect sent) action := by
  unfold Session.Alike
  split
  next source => exact hkept.meant_eq hproper
  next => trivial

/-- Both programs advance the offset of a call outside a segment alike, since
no pending call has anything to do with its socket. -/
theorem writes_eq
    (hkept : LightyKept cfg arch offArr session)
    (hsettled : session.Settled (cfg.lighty arch offArr)
      (lightyMeaning arch effect sent))
    (hsent : ∀ first second : LightyAsk, first.socket ≠ second.socket →
      ∀ state, sent first (effect second state) = sent first state)
    {source : LightyCall} (hvalid : source.Valid offArr)
    (hidle : ∀ pending ∈
      session.proc.pendingLog (lightyMeaning arch effect sent),
        pending.2.socket ≠
          (lightyMeant source session.proc.sys.memory).socket)
    {address : ℤ} (houtside : ¬ InOffArr offArr address) :
    lightyWrites sent source session.unbatched session.plain address =
      lightyWrites sent source session.kernel session.proc.sys.memory
        address := by
  have hsettles : perform effect
      ((session.proc.pendingLog (lightyMeaning arch effect sent)).map
        Prod.snd) session.kernel = session.unbatched := hsettled.settles
  have hsame : sent (lightyMeant source session.proc.sys.memory)
        session.unbatched =
      sent (lightyMeant source session.proc.sys.memory)
        session.kernel := by
    rw [← hsettles]
    refine result_perform ?_ session.kernel
    intro other hmem state
    obtain ⟨pending, hpending, rfl⟩ := List.mem_map.mp hmem
    exact hsent _ _ (hidle pending hpending).symm state
  cases source with
  | shutdown fd how => exact hkept.plain_eq address houtside
  | sendfile64 outFd inFd offset count =>
      have hoffset := hkept.plain_eq offset hvalid.2.2.1
      simp only [lightyMeant] at hsame
      simp only [lightyWrites, hoffset, hsame]
      split
      next =>
        by_cases haddress : address = offset
        · rw [haddress, storeOffset_self, storeOffset_self]
        · rw [storeOffset_of_ne haddress, storeOffset_of_ne haddress]
          exact hkept.plain_eq address houtside
      next => exact hkept.plain_eq address houtside

/-- The library and the workers write to the caller's memory what the complete
calls would have written. -/
theorem plain_afterProcess
    (hkept : LightyKept cfg arch offArr session)
    (hshares : cfg.SharesEntries) (hlimits : cfg.WithinLimits)
    {action : ProcessAction LightyCall (ℤ × ℤ)}
    (hproper : SessionAction.Proper offArr (.process action))
    (hcompletes : session.Completes sent (.process action))
    (hinside : ∀ source, action = .library (.call source) →
      session.proc.sys.inSegment = true)
    {later : Process LightyCall LightyMemory}
    (hproc : session.proc.step (cfg.lighty arch offArr) access storeAt
      action = some later) {address : ℤ}
    (houtside : ¬ InOffArr offArr address) :
    (lightyMeaning arch effect sent).plainAfter storeAt session.unbatched
        session.plain action address = later.sys.memory address := by
  have hplain := hkept.plain_eq address houtside
  cases action with
  | store value =>
      obtain ⟨_, rfl⟩ := Process.step_store hproc
      change storeOffset _ _ _ _ = storeOffset _ _ _ _
      by_cases haddress : address = value.1
      · rw [haddress, storeOffset_self, storeOffset_self]
      · rw [storeOffset_of_ne haddress, storeOffset_of_ne haddress]
        exact hplain
  | library action =>
      by_cases hcall : ∃ source, action = .call source
      · obtain ⟨source, rfl⟩ := hcall
        have hvalid : source.Valid offArr := hproper
        have hsegment := hinside source rfl
        obtain ⟨hsys, _⟩ := Process.step_library hproc
        obtain ⟨hready, hqueued⟩ := System.step_call hsys
        rw [(System.call_queued hsegment hqueued).2.1,
          hkept.offsets.prepared_outside hlimits hvalid hready houtside]
        refine (congrFun (lightyWrites_of_completes hvalid
          (hcompletes hsegment)) address).trans ?_
        cases source with
        | shutdown fd how => exact hplain
        | sendfile64 outFd inFd offset count =>
            simp only [LightyCall.advanced,
              hkept.plain_eq offset hvalid.2.2.1]
            by_cases haddress : address = offset
            · rw [haddress, storeOffset_self, storeOffset_self]
            · rw [storeOffset_of_ne haddress,
                storeOffset_of_ne haddress]
              exact hplain
      · have hother : ∀ source, action ≠ .call source :=
          fun source haction => hcall ⟨source, haction⟩
        rw [(hkept.offsets.outside_kept hshares hlimits hother
          hproc).2 address houtside, ← hplain]
        cases action with
        | call source => exact absurd rfl (hother source)
        | _ => rfl

theorem afterSession (hkept : LightyKept cfg arch offArr session)
    (hshares : cfg.SharesEntries) (hlimits : cfg.WithinLimits)
    (hsettled : session.Settled (cfg.lighty arch offArr)
      (lightyMeaning arch effect sent))
    (hsent : ∀ first second : LightyAsk, first.socket ≠ second.socket →
      ∀ state, sent first (effect second state) = sent first state)
    {action : SessionAction LightyCall (ℤ × ℤ)}
    (hsafe : session.NoOverrun (cfg.lighty arch offArr) action)
    (hproper : action.Proper offArr)
    (hcompletes : session.Completes sent action)
    (hidle : session.SocketIdle (lightyMeaning arch effect sent)
      LightyAsk.socket action)
    (hstep : session.step (cfg.lighty arch offArr) access storeAt
      (lightyMeaning arch effect sent) action = some next) :
    LightyKept cfg arch offArr next where
  offsets :=
    hkept.offsets.afterSession hshares hlimits hsafe hproper hstep
  plain_eq := by
    intro address houtside
    obtain ⟨_, ⟨rfl, _⟩ | ⟨source, rfl, hsegment, _, hmemory⟩ |
      ⟨inner, rfl, hinside, hproc⟩⟩ :=
        Session.step_cases hkept.offsets.tracked hsafe hstep
    · rw [Session.step_toggleRegion hstep]
      exact hkept.plain_eq address houtside
    · obtain ⟨_, _, _, _, _, hplain⟩ := Session.step_process hstep
      rw [hplain, hmemory]
      exact hkept.writes_eq hsettled hsent hproper (hidle hsegment)
        houtside
    · obtain ⟨_, _, _, _, _, hplain⟩ := Session.step_process hstep
      rw [hplain]
      exact hkept.plain_afterProcess hshares hlimits hproper hcompletes
        hinside hproc houtside

end LightyKept

end Lighty

/-! ## redis -/

/-- The wrapper in a process whose memory it neither reads nor writes. -/
def Wrapper.within {κ μ : Type} (wrapper : Wrapper κ Unit) :
    Wrapper κ μ where
  descriptor := wrapper.descriptor
  prepare := fun cfg source memory idx i j =>
    ((wrapper.prepare cfg source () idx i j).1, memory)
  perform := fun _ _ memory => memory

def SetConfig.redis (cfg : SetConfig) (arch : Architecture) :
    Deployment RedisCall (ℕ → UInt8) :=
  ⟨cfg, (Saio.redis arch).within⟩

/-- The socket and the bytes of a write. -/
def redisRead (entry : SysCall) (memory : ℕ → UInt8) :
    ℤ × List UInt8 :=
  match entry.args with
  | [fd, buf, count] => (fd, readBytes memory buf.toNat count.toNat)
  | _ => (firstArg entry.args, [])

def redisMeant (source : RedisCall) (memory : ℕ → UInt8) :
    ℤ × List UInt8 :=
  (source.fd, readBytes memory source.buf.toNat source.count.toNat)

def redisMeaning (effect : ℤ × List UInt8 → ς → ς) :
    CallMeaning RedisCall (ℕ → UInt8) (ℤ × List UInt8) ς where
  read := redisRead
  meant := redisMeant
  effect := effect
  writes := fun _ _ memory => memory

def storeBytes (value : ℕ × List UInt8) (memory : ℕ → UInt8) :
    ℕ → UInt8 :=
  memcpy memory value.1 value.2

section Redis

variable {effect : ℤ × List UInt8 → ς → ς} {memory : ℕ → UInt8}
  {proc later : Process RedisCall (ℕ → UInt8)}
  {session next final : Session RedisCall (ℕ → UInt8) ς}

/-- The application does not store to the buffer of a pending write. -/
def Process.BuffersKept (proc : Process RedisCall (ℕ → UInt8)) :
    ProcessAction RedisCall (ℕ × List UInt8) → Prop
  | .store value => ∀ g call, proc.Waiting g call →
      Apart (call.source.buf.toNat, call.source.count.toNat)
        (value.1, value.2.length)
  | _ => True

instance (proc : Process RedisCall (ℕ → UInt8))
    (action : ProcessAction RedisCall (ℕ × List UInt8)) :
    Decidable (proc.BuffersKept action) :=
  match action with
  | .store _ =>
      inferInstanceAs (Decidable (∀ g call, proc.Waiting g call →
        (_ ≤ _ ∨ _ ≤ _)))
  | .library _ => inferInstanceAs (Decidable True)

def Session.BuffersKept (session : Session RedisCall (ℕ → UInt8) ς) :
    SessionAction RedisCall (ℕ × List UInt8) → Prop
  | .process action => session.proc.BuffersKept action
  | .toggleRegion => True

instance (session : Session RedisCall (ℕ → UInt8) ς)
    (action : SessionAction RedisCall (ℕ × List UInt8)) :
    Decidable (session.BuffersKept action) :=
  match action with
  | .process action =>
      inferInstanceAs (Decidable (session.proc.BuffersKept action))
  | .toggleRegion => inferInstanceAs (Decidable True)

/-- The bytes of every pending write are those of its call. -/
structure BytesKept (cfg : SetConfig) (arch : Architecture)
    (proc : Process RedisCall (ℕ → UInt8)) : Prop where
  tracked : proc.Tracked (cfg.redis arch)
  intact : proc.Intact redisRead redisMeant

/-- The library leaves the memory of redis alone. -/
structure RedisKept (cfg : SetConfig) (arch : Architecture)
    (session : Session RedisCall (ℕ → UInt8) ς) : Prop where
  bytes : BytesKept cfg arch session.proc
  plain_eq : session.plain = session.proc.sys.memory

theorem init_bytesKept (pages : ℤ → ℕ → ℕ → TableEntry)
    (memory : ℕ → UInt8) :
    BytesKept cfg arch (Process.init (cfg.redis arch) pages memory) where
  tracked := Process.init_tracked _ pages memory
  intact := Process.init_intact _ pages memory

namespace BytesKept

theorem entry_eq (hkept : BytesKept cfg arch proc) {k : ℤ} {n : ℕ}
    {call : Queued RedisCall (ℕ → UInt8)}
    (hget : (proc.queuedOn k)[n]? = some call) :
    call.entry = writeEntry arch call.source.fd call.source.buf
      call.source.count :=
  (hkept.tracked.built k n call hget).2

/-- Only a store of the application changes the memory. -/
theorem bytes_kept (hkept : BytesKept cfg arch proc)
    {action : ProcessAction RedisCall (ℕ × List UInt8)}
    (hbuffers : proc.BuffersKept action)
    (htraffic : Process.Traffic (cfg.redis arch) storeBytes proc action
      later) {k : ℤ} {n : ℕ} {call : Queued RedisCall (ℕ → UInt8)}
    (hpending : proc.Pending k n call) :
    redisRead call.entry later.sys.memory =
      redisRead call.entry proc.sys.memory := by
  cases htraffic with
  | other _ _ _ hmemory _ => rw [hmemory]
  | execute _ _ _ _ _ _ _ hmemory _ =>
      rw [hmemory]
      rfl
  | call source _ _ _ _ _ _ hmemory _ =>
      rw [hmemory]
      rfl
  | store value _ =>
      obtain ⟨g, hwaiting⟩ := hpending.waiting
      rw [hkept.entry_eq hpending.1]
      exact congrArg (Prod.mk call.source.fd)
        (readBytes_memcpy_of_disjoint (hbuffers g call hwaiting))

theorem afterStep (hkept : BytesKept cfg arch proc)
    {action : ProcessAction RedisCall (ℕ × List UInt8)}
    (hsafe : proc.NoOverrun (cfg.redis arch) action)
    (hbuffers : proc.BuffersKept action)
    (hproc : proc.step (cfg.redis arch) access storeBytes action =
      some later) :
    BytesKept cfg arch later := by
  have htracked := hkept.tracked.afterStep hproc hsafe
  have htraffic := Process.step_traffic hproc
  refine ⟨htracked, hkept.intact.afterTraffic htraffic
    hkept.tracked htracked ?_ ?_⟩
  · intro k n call hpending _
    exact hkept.bytes_kept hbuffers htraffic hpending
  · intro source _ _
    rfl

end BytesKept

theorem redisMeaning_writesNothing :
    (redisMeaning effect).WritesNothing :=
  fun _ _ _ => rfl

/-- Only the stores of the application reach the memory. -/
theorem redis_memory_afterStep
    {action : ProcessAction RedisCall (ℕ × List UInt8)}
    (hproc : proc.step (cfg.redis arch) access storeBytes action =
      some later) (kernel : ς) :
    later.sys.memory = (redisMeaning effect).plainAfter storeBytes kernel
      proc.sys.memory action := by
  have hlibrary : ∀ action : SystemAction RedisCall,
      (redisMeaning effect).plainAfter storeBytes kernel proc.sys.memory
        (.library action) = proc.sys.memory := by
    intro action
    cases action <;> rfl
  cases Process.step_traffic hproc with
  | other _ _ _ hmemory _ => rw [hmemory, hlibrary]
  | execute _ _ _ _ _ _ _ hmemory _ => exact hmemory
  | call source _ _ _ _ _ _ hmemory _ => exact hmemory
  | store value _ => rfl

namespace RedisKept

theorem init (pages : ℤ → ℕ → ℕ → TableEntry) (memory : ℕ → UInt8)
    (kernel : ς) :
    RedisKept cfg arch
      (Session.init (cfg.redis arch) pages memory kernel) where
  bytes := init_bytesKept pages memory
  plain_eq := rfl

theorem alike (hkept : RedisKept cfg arch session)
    (action : SessionAction RedisCall (ℕ × List UInt8)) :
    session.Alike (redisMeaning effect) action := by
  unfold Session.Alike
  split
  next => rw [hkept.plain_eq]
  next => trivial

theorem afterSession (hkept : RedisKept cfg arch session)
    {action : SessionAction RedisCall (ℕ × List UInt8)}
    (hsafe : session.NoOverrun (cfg.redis arch) action)
    (hbuffers : session.BuffersKept action)
    (hstep : session.step (cfg.redis arch) access storeBytes
      (redisMeaning effect) action = some next) :
    RedisKept cfg arch next := by
  cases action with
  | toggleRegion =>
      rw [Session.step_toggleRegion hstep]
      exact ⟨⟨hkept.bytes.tracked.toggleRegion, hkept.bytes.intact⟩,
        hkept.plain_eq⟩
  | process action =>
      have hproc :=
        Session.step_of_writesNothing redisMeaning_writesNothing hstep
      obtain ⟨_, _, _, _, _, hplain⟩ := Session.step_process hstep
      refine ⟨hkept.bytes.afterStep hsafe hbuffers hproc, ?_⟩
      rw [hplain, hkept.plain_eq]
      exact (redis_memory_afterStep hproc session.unbatched).symm

end RedisKept

theorem redisMeaning_bySocket
    (heffect : ∀ first second : ℤ × List UInt8, first.1 ≠ second.1 →
      Function.Commute (effect first) (effect second)) :
    (redisMeaning effect).BySocket (cfg.redis arch) Prod.fst where
  routed := fun _ _ => rfl
  commute := heffect

/-- The kernel of redis is the one of direct writes up to the pending ones, as
long as no buffer is reused before its write is executed. -/
theorem redis_kernel_as_unbatched
    {pages : ℤ → ℕ → ℕ → TableEntry} {kernel : ς}
    {actions : List (SessionAction RedisCall (ℕ × List UInt8))}
    (hshares : cfg.SharesEntries)
    (heffect : ∀ first second : ℤ × List UInt8, first.1 ≠ second.1 →
      Function.Commute (effect first) (effect second))
    (hrun : Transition.run
      (Session.step (cfg.redis arch) access storeBytes
        (redisMeaning effect))
      (Session.init (cfg.redis arch) pages memory kernel) actions =
        some final)
    (hmeet : Transition.StepsMeet
      (Session.step (cfg.redis arch) access storeBytes
        (redisMeaning effect))
      (fun session action =>
        session.NoOverrun (cfg.redis arch) action ∧
        session.BuffersKept action ∧
        session.SocketIdle (redisMeaning effect) Prod.fst action)
      (Session.init (cfg.redis arch) pages memory kernel) actions) :
    perform effect
        ((final.proc.pendingLog (redisMeaning effect)).map Prod.snd)
        final.kernel = final.unbatched ∧
      (final.proc.sys.user.Outside →
        (∀ k, (final.proc.sys.ring k).cursor =
          (final.proc.sys.ring k).table.tail) →
        final.kernel = final.unbatched) := by
  have hsettled : final.Settled (cfg.redis arch)
      (redisMeaning effect) := by
    refine Session.settled_of_run hshares ?_ ?_
      (RedisKept.init pages memory kernel) hrun hmeet
    · rintro session action hboth ⟨hsafe, _, hidle⟩
      exact Session.undisturbed_of_bySocket
        (redisMeaning_bySocket heffect) hboth.settled.tracked hsafe
        hboth.inside.bytes.intact (hboth.inside.alike action) hidle
    · rintro session action next hboth ⟨hsafe, hbuffers, _⟩ hstep
      exact hboth.inside.afterSession hsafe hbuffers hstep
  exact ⟨hsettled.settles, hsettled.eq_of_drained⟩

/-- Two replies are queued from two buffers, and the first buffer is filled
again once its write is executed. -/
def queuedReplies : List (SessionAction RedisCall (ℕ × List UInt8)) :=
  [.process (.store (64, [43, 79])), .process (.store (96, [36]))] ++
    ((SystemAction.segmentStart twoWorkerSet ++
        SystemAction.wholeCall (RedisCall.mk 4 64 2) ++
        SystemAction.wholeCall (RedisCall.mk 5 96 1) ++
        SystemAction.workerSteps 0 false 3).map
        (fun action => .process (.library action))) ++
    [.process (.store (64, [45]))]

theorem queuedReplies_as_unbatched :
    ∃ final,
      Transition.run
        (Session.step (twoWorkerSet.redis .x86) .atomic storeBytes
          (redisMeaning (recordAt Prod.fst)))
        (Session.init (twoWorkerSet.redis .x86) (fun _ => blankMemory)
          (fun _ => 0) fun _ => []) queuedReplies = some final ∧
      final.kernel 4 = [(4, [43, 79])] ∧ final.kernel 5 = [] ∧
      perform (recordAt Prod.fst)
        ((final.proc.pendingLog
          (redisMeaning (recordAt Prod.fst))).map Prod.snd)
        final.kernel = final.unbatched := by
  have hrun :
      Transition.run
        (Session.step (twoWorkerSet.redis .x86) .atomic storeBytes
          (redisMeaning (recordAt Prod.fst)))
        (Session.init (twoWorkerSet.redis .x86) (fun _ => blankMemory)
          (fun _ => 0) fun _ => []) queuedReplies = some _ := rfl
  exact ⟨_, hrun, by decide +kernel, by decide +kernel,
    (redis_kernel_as_unbatched (by decide)
      (fun _ _ hne => recordAt_commute hne) hrun (by decide +kernel)).1⟩

end Redis

/-! ## nginx -/

inductive NgxAsk
  | close (fd : ℤ)
  | write (fd : ℤ) (bytes : List UInt8)
  | sendfile (outFd inFd offset count : ℤ)
  | other (entry : SysCall)

def ngxRead (arch : Architecture) (mpool : ℤ) (entry : SysCall)
    (memory : NgxMemory) : NgxAsk :=
  if entry.sysnum = EscaCall.close.number arch then
    match entry.args with
    | [fd] => .close fd
    | _ => .other entry
  else if entry.sysnum = EscaCall.write.number arch then
    match entry.args with
    | [fd, buf, count] =>
        .write fd
          (readBytes memory.mpool (buf - mpool).toNat count.toNat)
    | _ => .other entry
  else if entry.sysnum = EscaCall.sendfile.number arch then
    match entry.args with
    | [outFd, inFd, offset, count] => .sendfile outFd inFd offset count
    | _ => .other entry
  else .other entry

def ngxMeant (source : NgxCall) (_ : NgxMemory) : NgxAsk :=
  match source with
  | .close fd => .close fd
  | .sendfile64 outFd inFd offset count =>
      .sendfile outFd inFd offset count
  | .write fd buf => .write fd buf
  | .sendfile outFd inFd offset count =>
      .sendfile outFd inFd offset count

def ngxMeaning (arch : Architecture) (mpool : ℤ)
    (effect : NgxAsk → ς → ς) :
    CallMeaning NgxCall NgxMemory NgxAsk ς where
  read := ngxRead arch mpool
  meant := ngxMeant
  effect := effect
  writes := fun _ _ memory => memory

/-- A transfer from the position of the file, which passes no offset. -/
def NgxCall.OffsetNull : NgxCall → Prop
  | .sendfile64 _ _ offset _ => offset = 0
  | .sendfile _ _ offset _ => offset = 0
  | _ => True

instance (source : NgxCall) : Decidable source.OffsetNull :=
  match source with
  | .sendfile64 _ _ _ _ => inferInstanceAs (Decidable (_ = _))
  | .sendfile _ _ _ _ => inferInstanceAs (Decidable (_ = _))
  | .close _ | .write _ _ => inferInstanceAs (Decidable True)

section Ngx

variable {mpool : ℤ} {bound : ℕ} {effect : NgxAsk → ς → ς}
  {memory : NgxMemory} {proc : Process NgxCall NgxMemory}
  {session next final : Session NgxCall NgxMemory ς}

/-- Writes are within the bound, and queued transfers pass no offset. -/
def Session.NgxProper (bound : ℕ)
    (session : Session NgxCall NgxMemory ς) :
    SessionAction NgxCall Empty → Prop
  | .process (.library (.call source)) =>
      source.bytes.length ≤ bound ∧
        (session.proc.sys.inSegment = true → source.OffsetNull)
  | _ => True

instance (bound : ℕ) (session : Session NgxCall NgxMemory ς)
    (action : SessionAction NgxCall Empty) :
    Decidable (session.NgxProper bound action) :=
  match action with
  | .process (.library (.call _)) => inferInstanceAs (Decidable (_ ∧ _))
  | .process (.library .batchStart) | .process (.library .batchFlush)
  | .process (.library .user) | .process (.library (.worker _ _ _))
  | .toggleRegion => inferInstanceAs (Decidable True)

theorem ngxRead_closeEntry (fd : ℤ) :
    ngxRead arch mpool (closeEntry arch fd) memory = .close fd := by
  simp [ngxRead, closeEntry]

theorem ngxRead_writeEntry (fd buf count : ℤ) :
    ngxRead arch mpool (writeEntry arch fd buf count) memory =
      .write fd
        (readBytes memory.mpool (buf - mpool).toNat count.toNat) := by
  have hclose : EscaCall.write.number arch ≠
      EscaCall.close.number arch := by
    intro hnumber
    exact absurd (EscaCall.number_injective arch hnumber) (by decide)
  simp [ngxRead, writeEntry, hclose]

theorem ngxRead_sendfileEntry (outFd inFd offset count : ℤ) :
    ngxRead arch mpool (sendfileEntry arch outFd inFd offset count)
        memory = .sendfile outFd inFd offset count := by
  have hclose : EscaCall.sendfile.number arch ≠
      EscaCall.close.number arch := by
    intro hnumber
    exact absurd (EscaCall.number_injective arch hnumber) (by decide)
  have hwrite : EscaCall.sendfile.number arch ≠
      EscaCall.write.number arch := by
    intro hnumber
    exact absurd (EscaCall.number_injective arch hnumber) (by decide)
  simp [ngxRead, sendfileEntry, hclose, hwrite]

structure NgxKept (cfg : SetConfig) (arch : Architecture) (mpool : ℤ)
    (bound : ℕ) (proc : Process NgxCall NgxMemory) : Prop where
  copies : CopiesKept cfg arch mpool bound proc
  offsets : ∀ call ∈ proc.queued, call.source.OffsetNull

theorem init_ngxKept (pages : ℤ → ℕ → ℕ → TableEntry)
    (bytes : ℕ → UInt8) :
    NgxKept cfg arch mpool bound
      (Process.init (cfg.ngx arch mpool) pages ⟨bytes, 0⟩) where
  copies := init_copiesKept pages bytes
  offsets := by simp [Process.init]

namespace NgxKept

theorem intact (hkept : NgxKept cfg arch mpool bound proc) :
    proc.Intact (ngxRead arch mpool) ngxMeant := by
  intro k n call hpending
  have hwrite := hkept.copies.intact k n call hpending
  obtain ⟨_, hentry⟩ := hkept.copies.tracked.built k n call hpending.1
  have hnull : call.source.OffsetNull := by
    apply hkept.offsets
    have hmem := mem_lane.mp (List.mem_of_getElem? hpending.1)
    obtain ⟨other, hother, hequal⟩ := List.mem_map.mp hmem
    rwa [← (Prod.mk.inj hequal).2]
  rw [hentry] at hwrite ⊢
  cases hsource : call.source with
  | close fd => exact ngxRead_closeEntry fd
  | write fd buf =>
      rw [hsource] at hwrite
      have hbytes := congrArg Prod.snd (Option.some.inj hwrite)
      refine (ngxRead_writeEntry fd _ _).trans ?_
      exact congrArg (NgxAsk.write fd) hbytes
  | sendfile64 outFd inFd offset count =>
      rw [hsource] at hnull
      rw [show offset = 0 from hnull]
      exact ngxRead_sendfileEntry outFd inFd 0 count
  | sendfile outFd inFd offset count =>
      rw [hsource] at hnull
      rw [show offset = 0 from hnull]
      exact ngxRead_sendfileEntry outFd inFd 0 count

theorem offsets_afterLibrary
    (hkept : NgxKept cfg arch mpool bound session.proc)
    {action : SystemAction NgxCall} {later : Process NgxCall NgxMemory}
    (hproper : session.NgxProper bound (.process (.library action)))
    (hproc : session.proc.step (cfg.ngx arch mpool) access noStore
      (.library action) = some later) :
    ∀ call ∈ later.queued, call.source.OffsetNull := by
  cases Process.step_traffic hproc with
  | other _ _ _ _ hqueued =>
      rw [hqueued]
      exact hkept.offsets
  | execute _ _ _ _ _ _ _ _ hqueued =>
      rw [hqueued]
      exact hkept.offsets
  | call source _ hsegment _ _ _ _ _ hqueued =>
      rw [hqueued]
      intro call hmem
      rcases List.mem_append.mp hmem with hold | hlast
      · exact hkept.offsets call hold
      · rw [List.mem_singleton.mp hlast]
        exact hproper.2 hsegment

theorem afterSession (hkept : NgxKept cfg arch mpool bound session.proc)
    (hratio : cfg.ratio = 1)
    (hbound : (cfg.capacity + 1) * bound ≤ maxPoolSize)
    {action : SessionAction NgxCall Empty}
    (hsafe : session.NoOverrun (cfg.ngx arch mpool) action)
    (hproper : session.NgxProper bound action)
    (hstep : session.step (cfg.ngx arch mpool) access noStore
      (ngxMeaning arch mpool effect) action = some next) :
    NgxKept cfg arch mpool bound next.proc := by
  cases action with
  | toggleRegion =>
      rw [Session.step_toggleRegion hstep]
      refine ⟨?_, hkept.offsets⟩
      exact hkept.copies.of_samePool rfl rfl
        (fun _ _ _ hpending => hpending)
        hkept.copies.tracked.toggleRegion hkept.copies.intact
        hkept.copies.conveys
  | process action =>
      have hproc :=
        Session.step_of_writesNothing (fun _ _ _ => rfl) hstep
      cases action with
      | store value => exact nomatch value
      | library action =>
          have hwrites : session.proc.WritesUpTo bound
              (.library action) := by
            cases action with
            | call source => exact hproper.1
            | _ => trivial
          have hadvance : session.proc.NoOverrun (cfg.ngx arch mpool)
              (.library action : ProcessAction NgxCall Empty) := hsafe
          exact ⟨hkept.copies.afterStep hratio hbound hadvance hwrites
            hproc, hkept.offsets_afterLibrary hproper hproc⟩

end NgxKept

/-- The calls of nginx carry all that they ask for. -/
theorem ngx_alike (action : SessionAction NgxCall Empty) :
    session.Alike (ngxMeaning arch mpool effect) action := by
  unfold Session.Alike
  split
  next => rfl
  next => trivial

/-- With one worker the kernel of an nginx process is the one of direct calls
up to the pending ones, whatever the calls do to each other. -/
theorem ngx_kernel_as_unbatched
    {pages : ℤ → ℕ → ℕ → TableEntry} {bytes : ℕ → UInt8} {kernel : ς}
    {actions : List (SessionAction NgxCall Empty)}
    (hshares : cfg.SharesEntries) (hratio : cfg.ratio = 1)
    (hbound : (cfg.maxTableEntry * cfg.maxTableLen + 1) * bound ≤
      maxPoolSize)
    (hrun : Transition.run
      (Session.step (cfg.ngx arch mpool) access noStore
        (ngxMeaning arch mpool effect))
      (Session.init (cfg.ngx arch mpool) pages ⟨bytes, 0⟩ kernel)
      actions = some final)
    (hmeet : Transition.StepsMeet
      (Session.step (cfg.ngx arch mpool) access noStore
        (ngxMeaning arch mpool effect))
      (fun session action =>
        session.NoOverrun (cfg.ngx arch mpool) action ∧
        session.NgxProper bound action ∧
        session.PendingFree (ngxMeaning arch mpool effect) action)
      (Session.init (cfg.ngx arch mpool) pages ⟨bytes, 0⟩ kernel)
      actions) :
    perform effect
        ((final.proc.pendingLog (ngxMeaning arch mpool effect)).map
          Prod.snd) final.kernel = final.unbatched ∧
      (final.proc.sys.user.Outside →
        (∀ k, (final.proc.sys.ring k).cursor =
          (final.proc.sys.ring k).table.tail) →
        final.kernel = final.unbatched) := by
  have hsettled : final.Settled (cfg.ngx arch mpool)
      (ngxMeaning arch mpool effect) := by
    have hstart : Session.ProcMeets (NgxKept cfg arch mpool bound)
        (Session.init (cfg.ngx arch mpool) pages ⟨bytes, 0⟩ kernel) :=
      init_ngxKept pages bytes
    refine Session.settled_of_run hshares ?_ ?_ hstart hrun hmeet
    · rintro session action hboth ⟨hsafe, _, hfree⟩
      exact Session.undisturbed_of_oneRing hratio
        hboth.settled.tracked hsafe (NgxKept.intact hboth.inside)
        (ngx_alike action) hfree
    · rintro session action next hboth ⟨hsafe, hproper, _⟩ hstep
      exact NgxKept.afterSession hboth.inside hratio hbound hsafe hproper
        hstep
  exact ⟨hsettled.settles, hsettled.eq_of_drained⟩

/-- A write and the close of its descriptor, on a kernel that records all
calls in one list. -/
def writeAndClose : List (SessionAction NgxCall Empty) :=
  (SystemAction.segmentStart oneWorkerSet ++
    SystemAction.wholeCall (NgxCall.write 4 [97, 98]) ++
    SystemAction.wholeCall (NgxCall.close 4) ++
    SystemAction.workerSteps 0 false 4).map
      fun action => .process (.library action)

theorem writeAndClose_as_unbatched :
    ∃ final,
      Transition.run
        (Session.step (oneWorkerSet.ngx .x86 16) .atomic noStore
          (ngxMeaning .x86 16 fun ask log => log ++ [ask]))
        (Session.init (oneWorkerSet.ngx .x86 16)
          (fun _ => blankMemory) ⟨fun _ => 0, 0⟩ []) writeAndClose =
        some final ∧
      final.kernel.length = 1 ∧ final.unbatched.length = 2 ∧
      perform (fun ask log => log ++ [ask])
        ((final.proc.pendingLog
          (ngxMeaning .x86 16 fun ask log => log ++ [ask])).map
            Prod.snd) final.kernel = final.unbatched := by
  have hrun :
      Transition.run
        (Session.step (oneWorkerSet.ngx .x86 16) .atomic noStore
          (ngxMeaning .x86 16 fun ask log => log ++ [ask]))
        (Session.init (oneWorkerSet.ngx .x86 16)
          (fun _ => blankMemory) ⟨fun _ => 0, 0⟩ []) writeAndClose =
        some _ := rfl
  have hbound : (oneWorkerSet.maxTableEntry * oneWorkerSet.maxTableLen +
      1) * 2 ≤ maxPoolSize := by decide
  exact ⟨_, hrun, by decide +kernel, by decide +kernel,
    (ngx_kernel_as_unbatched (by decide) rfl hbound hrun
      (by decide +kernel)).1⟩

end Ngx

end Saio
