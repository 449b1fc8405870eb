import Saio.TargetSessions
import Saio.MessageReuse
import Mathlib.Tactic

/-!
# The kernel behind memcached

The kernel reaches the bytes of a queued `sendmsg` through a header and a row
of iovecs, all three in pools that the later calls go on to fill.  The header
and the iovecs last as long as `iovpool` has room for the iovecs of all calls
from the waiting one on.  The bytes last as long as `mpool` has room for the
bytes of all those calls and for one block more, which may be left out at its
end.  The workers then send what memcached has asked for, although each worker
runs on its own and the wrapper has returned long before.  The wrapper drops
the address and the control data of a message, so the messages have to be
without them.
-/

namespace Saio

open FifoBank List

variable {ς : Type} {cfg : SetConfig} {arch : Architecture}
  {pools : PoolAddresses} {access : FlagAccess} {gap used : ℕ}

/-! ## How long a block lasts -/

/-- The iovec describes a block that still lies in `mpool`, with `used` bytes
copied from its start on. -/
def McachedMemory.Holds (pools : PoolAddresses) (gap used : ℕ)
    (memory : McachedMemory) (iovec : Iovec) (block : List UInt8) : Prop :=
  ∃ start : ℕ, iovec = ⟨pools.mpool + start, block.length⟩ ∧
    BumpPool.Trails maxPoolSize gap memory.poolOffset used start
      block.length ∧
    readBytes memory.mpool start block.length = block

namespace McachedMemory

variable {memory : McachedMemory} {iovec : Iovec}
  {block new : List UInt8} {blocks : List (List UInt8)} {result : ℤ}

theorem Holds.bytes_eq (hholds : memory.Holds pools gap used iovec block) :
    iovec.bytes pools memory.mpool = block := by
  obtain ⟨start, rfl, _, hbytes⟩ := hholds
  unfold Iovec.bytes
  rwa [add_sub_cancel_left, Int.toNat_natCast]

theorem Holds.mono {more : ℕ}
    (hholds : memory.Holds pools gap used iovec block)
    (hmore : used ≤ more) : memory.Holds pools gap more iovec block := by
  obtain ⟨start, hiovec, htrails, hbytes⟩ := hholds
  exact ⟨start, hiovec, htrails.mono hmore, hbytes⟩

theorem gather_poolOffset_le (hnew : new.length ≤ maxPoolSize) :
    (gather pools (memory, result) new).1.poolOffset ≤ maxPoolSize :=
  BumpPool.place_add_le hnew

theorem Holds.gather
    (hholds : memory.Holds pools gap used iovec block)
    (hoffset : memory.poolOffset ≤ maxPoolSize)
    (hnew : new.length ≤ gap)
    (hroom : used + new.length + gap ≤ maxPoolSize) :
    (McachedMemory.gather pools (memory, result) new).1.Holds pools gap
      (used + new.length) iovec block := by
  obtain ⟨start, hiovec, htrails, hbytes⟩ := hholds
  refine ⟨start, hiovec, htrails.push hoffset hnew, ?_⟩
  exact (readBytes_memcpy_of_disjoint (htrails.apart hnew hroom)).trans
    hbytes

theorem holds_gather_self :
    (gather pools (memory, result) new).1.Holds pools gap new.length
      ((gather pools (memory, result) new).1.iovpool
        (memory.iovOffset % maxPoolIovSize)) new := by
  refine ⟨BumpPool.place maxPoolSize memory.poolOffset new.length, ?_,
    BumpPool.trails_place, readBytes_memcpy_self⟩
  simp only [gather, and_iovMask, Function.update_self]

theorem foldl_gather_poolOffset_le
    (hoffset : memory.poolOffset ≤ maxPoolSize)
    (hblocks : ∀ block ∈ blocks, block.length ≤ maxPoolSize) :
    (blocks.foldl (gather pools) (memory, result)).1.poolOffset ≤
      maxPoolSize := by
  induction blocks generalizing memory result with
  | nil => exact hoffset
  | cons block rest ih =>
      obtain ⟨hblock, hrest⟩ := forall_mem_cons.mp hblocks
      exact ih (gather_poolOffset_le hblock) hrest

/-- A block outlasts a message that fits behind it. -/
theorem Holds.foldl_gather
    (hholds : memory.Holds pools gap used iovec block)
    (hoffset : memory.poolOffset ≤ maxPoolSize)
    (hblocks : ∀ new ∈ blocks, new.length ≤ gap)
    (hroom : used + blocks.flatten.length + gap ≤ maxPoolSize) :
    (blocks.foldl (McachedMemory.gather pools) (memory, result)).1.Holds
      pools gap (used + blocks.flatten.length) iovec block := by
  induction blocks generalizing memory used result with
  | nil => exact hholds
  | cons new rest ih =>
      obtain ⟨hnew, hrest⟩ := forall_mem_cons.mp hblocks
      rw [flatten_cons, length_append, ← Nat.add_assoc] at hroom ⊢
      refine ih (hholds.gather hoffset hnew ?_)
        (gather_poolOffset_le ?_) hrest hroom
      · omega
      · omega

/-- The blocks of a message lie in the next elements of `iovpool`; none of
them is overwritten by the ones behind it. -/
theorem holds_foldl_gather
    (hoffset : memory.poolOffset ≤ maxPoolSize)
    (hslots : blocks.length ≤ maxPoolIovSize)
    (hblocks : ∀ block ∈ blocks, block.length ≤ gap)
    (hroom : blocks.flatten.length + gap ≤ maxPoolSize) :
    Forall₂
      ((blocks.foldl (gather pools) (memory, result)).1.Holds pools gap
        blocks.flatten.length)
      ((CircularSlots.indices maxPoolIovSize memory.iovOffset
          blocks.length).map
        (blocks.foldl (gather pools) (memory, result)).1.iovpool)
      blocks := by
  induction blocks generalizing memory result with
  | nil => exact .nil
  | cons block rest ih =>
      obtain ⟨hblock, hrest⟩ := forall_mem_cons.mp hblocks
      rw [length_cons] at hslots
      rw [flatten_cons, length_append] at hroom ⊢
      rw [length_cons, CircularSlots.indices_succ, map_cons, foldl_cons]
      have hlater : CircularSlots.indices maxPoolIovSize
          (memory.iovOffset + 1) rest.length =
            CircularSlots.indices maxPoolIovSize
              (gather pools (memory, result) block).1.iovOffset
              rest.length := by
        apply CircularSlots.indices_congr
        simp only [gather, and_iovMask, Nat.mod_add_mod]
      have hstart : (gather pools (memory, result) block).1.poolOffset ≤
          maxPoolSize := gather_poolOffset_le (by omega)
      constructor
      · rw [foldl_gather_iovpool]
        · exact holds_gather_self.foldl_gather hstart hrest hroom
        · -- The slots of the other blocks are those behind the first one.
          rw [← hlater]
          intro hmem
          exact CircularSlots.indices_disjoint_of_le le_rfl
            (by omega) hmem
            (CircularSlots.mem_indices.mpr ⟨0, Nat.one_pos, rfl⟩)
      · rw [hlater]
        refine (ih hstart (by omega) hrest (by omega)).imp ?_
        intro iovec other hholds
        exact hholds.mono (Nat.le_add_left _ _)

theorem flatMap_bytes {iovecs : List Iovec}
    (hholds : Forall₂ (memory.Holds pools gap used) iovecs blocks) :
    iovecs.flatMap (Iovec.bytes pools memory.mpool) = blocks.flatten := by
  induction hholds with
  | nil => rfl
  | cons hfirst _ ih =>
      rw [flatMap_cons, flatten_cons, ih, hfirst.bytes_eq]

end McachedMemory

/-! ## A whole message -/

section Message

open McachedMemory

variable {memory : McachedMemory} {source : McachedCall}

theorem McachedCall.iovlen_of_short
    (hshort : source.iov.length ≤ maxPoolIovSize) :
    source.iovlen = source.iov.length := by
  unfold McachedCall.iovlen
  rw [toInt_of_le hshort, Int.toNat_natCast]

theorem sendmsg_of_short (hshort : source.iov.length ≤ maxPoolIovSize) :
    (memory.sendmsg pools source).1 =
      memory.copyMsghdr pools source
        (source.iov.foldl (gather pools) (memory.masked, 0)).1 := by
  rw [sendmsg_fst, take_of_short hshort, gatherAll_eq]

theorem sendmsg_poolOffset_le (hoffset : memory.poolOffset ≤ maxPoolSize)
    (hshort : source.iov.length ≤ maxPoolIovSize)
    (hblocks : ∀ block ∈ source.iov, block.length ≤ maxPoolSize) :
    (memory.sendmsg pools source).1.poolOffset ≤ maxPoolSize := by
  rw [sendmsg_of_short hshort]
  exact foldl_gather_poolOffset_le hoffset hblocks

theorem McachedMemory.Holds.sendmsg {iovec : Iovec} {block : List UInt8}
    (hholds : memory.Holds pools gap used iovec block)
    (hoffset : memory.poolOffset ≤ maxPoolSize)
    (hshort : source.iov.length ≤ maxPoolIovSize)
    (hblocks : ∀ new ∈ source.iov, new.length ≤ gap)
    (hroom : used + source.iov.flatten.length + gap ≤ maxPoolSize) :
    (memory.sendmsg pools source).1.Holds pools gap
      (used + source.iov.flatten.length) iovec block := by
  have hmasked : memory.masked.Holds pools gap used iovec block := hholds
  rw [sendmsg_of_short hshort]
  exact hmasked.foldl_gather hoffset hblocks hroom

theorem sendmsg_holds (hoffset : memory.poolOffset ≤ maxPoolSize)
    (hshort : source.iov.length ≤ maxPoolIovSize)
    (hblocks : ∀ block ∈ source.iov, block.length ≤ gap)
    (hroom : source.iov.flatten.length + gap ≤ maxPoolSize) :
    Forall₂
      ((memory.sendmsg pools source).1.Holds pools gap
        source.iov.flatten.length)
      (messageBuilt pools source memory).2 source.iov := by
  have hslots : memory.iovSlots source =
      CircularSlots.indices maxPoolIovSize memory.masked.iovOffset
        source.iov.length := by
    unfold iovSlots
    rw [McachedCall.iovlen_of_short hshort]
    exact CircularSlots.indices_congr (Nat.mod_mod _ _).symm
  have hstart : memory.masked.poolOffset ≤ maxPoolSize := hoffset
  unfold messageBuilt
  rw [hslots, sendmsg_of_short hshort]
  exact holds_foldl_gather hstart hshort hblocks hroom

end Message

/-! ## What a message asks for -/

structure McachedAsk where
  sockfd : ℤ
  msgName : ℤ
  msgNamelen : ℕ
  bytes : List UInt8
  msgControl : ℤ
  msgControllen : ℕ
  msgFlags : ℤ
  flags : ℤ
  deriving DecidableEq

/-- The header of the message behind an entry, with the bytes that the kernel
gathers. -/
def mcachedRead (pools : PoolAddresses) (entry : SysCall)
    (memory : McachedMemory) : McachedAsk where
  sockfd := firstArg entry.args
  msgName := (messageRead pools entry memory).1.msgName
  msgNamelen := (messageRead pools entry memory).1.msgNamelen
  bytes := (messageRead pools entry memory).2.flatMap
    (Iovec.bytes pools memory.mpool)
  msgControl := (messageRead pools entry memory).1.msgControl
  msgControllen := (messageRead pools entry memory).1.msgControllen
  msgFlags := (messageRead pools entry memory).1.msgFlags
  flags := entry.args.getD 2 0

def mcachedMeant (source : McachedCall) (_ : McachedMemory) :
    McachedAsk where
  sockfd := source.sockfd
  msgName := source.msgName
  msgNamelen := source.msgNamelen
  bytes := source.iov.flatten
  msgControl := source.msgControl
  msgControllen := source.msgControllen
  msgFlags := source.msgFlags
  flags := source.flags

def mcachedMeaning (pools : PoolAddresses)
    (effect : McachedAsk → ς → ς) :
    CallMeaning McachedCall McachedMemory McachedAsk ς where
  read := mcachedRead pools
  meant := mcachedMeant
  effect := effect
  writes := fun _ _ memory => memory

/-- A message without an address and without control data. -/
def McachedCall.Bare (source : McachedCall) : Prop :=
  source.msgName = 0 ∧ source.msgNamelen = 0 ∧
    source.msgControl = 0 ∧ source.msgControllen = 0

instance (source : McachedCall) : Decidable source.Bare :=
  inferInstanceAs (Decidable (_ ∧ _ ∧ _ ∧ _))

def byteCount (calls : List (Queued McachedCall McachedMemory)) : ℕ :=
  (calls.map fun call => call.source.iov.flatten.length).sum

theorem byteCount_append
    (first second : List (Queued McachedCall McachedMemory)) :
    byteCount (first ++ second) = byteCount first + byteCount second := by
  simp [byteCount]

/-- A new message fits into the pools beside the calls from each waiting one
on: its iovecs into `iovpool`, in one piece, and its bytes into `mpool`, with
one block more. -/
structure Process.Fits (gap : ℕ)
    (proc : Process McachedCall McachedMemory) (source : McachedCall) :
    Prop where
  iov_pos : 0 < source.iov.length
  stays : proc.sys.memory.iovOffset % maxPoolIovSize +
    source.iov.length ≤ maxPoolIovSize
  hasRoom : proc.HasRoom (.library (.call source))
  blocks_le : ∀ block ∈ source.iov, block.length ≤ gap
  bytes_le : source.iov.flatten.length + gap ≤ maxPoolSize
  hasBytes : ∀ g call, proc.Waiting g call →
    byteCount (proc.queued.drop g) + source.iov.flatten.length + gap ≤
      maxPoolSize

instance (gap : ℕ) (proc : Process McachedCall McachedMemory)
    (source : McachedCall) : Decidable (proc.Fits gap source) :=
  decidable_of_iff
    (0 < source.iov.length ∧
      proc.sys.memory.iovOffset % maxPoolIovSize + source.iov.length ≤
        maxPoolIovSize ∧
      proc.HasRoom (.library (.call source)) ∧
      (∀ block ∈ source.iov, block.length ≤ gap) ∧
      source.iov.flatten.length + gap ≤ maxPoolSize ∧
      ∀ g call, proc.Waiting g call →
        byteCount (proc.queued.drop g) + source.iov.flatten.length +
          gap ≤ maxPoolSize)
    ⟨fun ⟨hpos, hstays, hroom, hblocks, hbytes, hwaiting⟩ =>
        ⟨hpos, hstays, hroom, hblocks, hbytes, hwaiting⟩,
      fun hfits => ⟨hfits.iov_pos, hfits.stays, hfits.hasRoom,
        hfits.blocks_le, hfits.bytes_le, hfits.hasBytes⟩⟩

theorem Process.Fits.short {source : McachedCall}
    {proc : Process McachedCall McachedMemory}
    (hfits : proc.Fits gap source) :
    source.iov.length ≤ maxPoolIovSize :=
  (Nat.le_add_left _ _).trans hfits.stays

/-! ## The pending messages -/

structure McachedKept (cfg : SetConfig) (arch : Architecture)
    (pools : PoolAddresses) (gap : ℕ)
    (proc : Process McachedCall McachedMemory) : Prop where
  messages : MessagesKept cfg arch pools proc
  bare : ∀ call ∈ proc.queued, call.source.Bare
  offset_le : proc.sys.memory.poolOffset ≤ maxPoolSize
  held : ∀ g call, proc.Waiting g call →
    Forall₂
      (proc.sys.memory.Holds pools gap (byteCount (proc.queued.drop g)))
      (messageBuilt pools call.source call.memory).2 call.source.iov

section Kept

variable {proc next : Process McachedCall McachedMemory}
  {source : McachedCall}

theorem MessagesKept.of_unchanged
    (hkept : MessagesKept cfg arch pools proc)
    (htracked : next.Tracked (cfg.mcached arch pools))
    (hsame : proc.Unchanged next) : MessagesKept cfg arch pools next where
  counted := hkept.counted.of_samePools htracked hsame.memory_eq
    hsame.queued_eq fun _ _ hwaiting =>
      Or.inl (hsame.toSameEntries.waiting hwaiting)
  stays := by
    rw [hsame.queued_eq]
    exact hkept.stays
  intact := hsame.intact hkept.intact
  conveys := hsame.toSameEntries.conveys hkept.conveys

namespace McachedKept

theorem intact (hkept : McachedKept cfg arch pools gap proc) :
    proc.Intact (mcachedRead pools) mcachedMeant := by
  intro k n call hpending
  obtain ⟨g, hwaiting⟩ := hpending.waiting
  have hmessage := hkept.messages.intact k n call hpending
  have hentry : call.entry = sendmsgEntry arch call.source.sockfd
      (pools.msghdr (call.memory.msgOffset &&& msgMask))
      call.source.flags :=
    (hkept.messages.counted.tracked.built k n call hpending.1).2
  have hbytes := McachedMemory.flatMap_bytes (hkept.held g call hwaiting)
  have hheader : (messageBuilt pools call.source call.memory).1 =
      (call.memory.sendmsg pools call.source).1.msgpool
        (call.memory.msgOffset &&& msgMask) := by
    unfold messageBuilt
    rw [McachedMemory.and_msgMask_eq]
  obtain ⟨hname, hnamelen, hcontrol, hcontrollen⟩ :=
    hkept.bare call (List.mem_of_getElem? hwaiting.1)
  unfold mcachedRead mcachedMeant
  rw [hmessage, hbytes, hheader, sendmsg_msgpool_self, hentry, hname,
    hnamelen, hcontrol, hcontrollen]
  rfl

theorem of_samePools (hkept : McachedKept cfg arch pools gap proc)
    (hmessages : MessagesKept cfg arch pools next)
    (hmemory : next.sys.memory = proc.sys.memory)
    (hqueued : next.queued = proc.queued)
    (hwaiting : ∀ g call, next.Waiting g call →
      proc.Waiting g call ∨
        g = proc.queued.length ∧ next.queued = proc.queued ++ [call]) :
    McachedKept cfg arch pools gap next where
  messages := hmessages
  bare := by
    rw [hqueued]
    exact hkept.bare
  offset_le := by
    rw [hmemory]
    exact hkept.offset_le
  held := by
    intro g call hafter
    rw [hmemory, hqueued]
    rcases hwaiting g call hafter with hbefore | ⟨_, hlonger⟩
    · exact hkept.held g call hbefore
    · rw [hqueued] at hlonger
      simp at hlonger

theorem afterCall (hkept : McachedKept cfg arch pools gap proc)
    (hmessages : MessagesKept cfg arch pools next)
    (hbare : source.Bare) (hfits : proc.Fits gap source)
    (hmemory : next.sys.memory = (proc.sys.memory.sendmsg pools source).1)
    {last : Queued McachedCall McachedMemory}
    (hlast : last.source = source ∧ last.memory = proc.sys.memory)
    (hqueued : next.queued = proc.queued ++ [last])
    (hwaiting : ∀ g call, next.Waiting g call →
      proc.Waiting g call ∨
        g = proc.queued.length ∧ next.queued = proc.queued ++ [call]) :
    McachedKept cfg arch pools gap next where
  messages := hmessages
  bare := by
    intro call hmem
    rw [hqueued, List.mem_append, List.mem_singleton] at hmem
    rcases hmem with hbefore | rfl
    · exact hkept.bare call hbefore
    · rwa [hlast.1]
  offset_le := by
    rw [hmemory]
    refine sendmsg_poolOffset_le hkept.offset_le hfits.short ?_
    intro block hmem
    have hlength := hfits.blocks_le block hmem
    have htotal := hfits.bytes_le
    omega
  held := by
    have hcount : byteCount [last] = source.iov.flatten.length := by
      simp [byteCount, hlast.1]
    intro g call hafter
    rw [hmemory]
    rcases hwaiting g call hafter with hbefore | ⟨rfl, hnew⟩
    · have hg := (List.getElem?_eq_some_iff.mp hbefore.1).1
      rw [hqueued, drop_append_of_le_length hg.le, byteCount_append,
        hcount]
      refine (hkept.held g call hbefore).imp ?_
      intro iovec block hholds
      exact hholds.sendmsg hkept.offset_le hfits.short hfits.blocks_le
        (hfits.hasBytes g call hbefore)
    · rw [hnew, append_cancel_left_eq] at hqueued
      obtain rfl := singleton_inj.mp hqueued
      rw [hnew, drop_left, hcount, hlast.1, hlast.2]
      exact sendmsg_holds hkept.offset_le hfits.short hfits.blocks_le
        hfits.bytes_le

theorem messages_afterStep (hkept : McachedKept cfg arch pools gap proc)
    (hshares : cfg.SharesEntries)
    {action : ProcessAction McachedCall Empty}
    (hsafe : proc.NoOverrun (cfg.mcached arch pools) action)
    (hfits : ∀ source, action = .library (.call source) →
      proc.sys.inSegment = true ∧ source.Bare ∧ proc.Fits gap source)
    (hstep : proc.step (cfg.mcached arch pools) access noStore action =
      some next) :
    MessagesKept cfg arch pools next := by
  have hconditions : proc.SendsMessages action ∧ proc.HasRoom action ∧
      proc.StaysInPool action := by
    cases action with
    | store value => exact nomatch value
    | library action =>
        cases action with
        | call source =>
            obtain ⟨hsegment, _, hfits⟩ := hfits source rfl
            have hiovlen := McachedCall.iovlen_of_short hfits.short
            refine ⟨⟨hsegment, ?_⟩, hfits.hasRoom, ?_⟩
            · rw [hiovlen]
              exact hfits.iov_pos
            · change _ + source.iovlen ≤ _
              rw [hiovlen]
              exact hfits.stays
        | _ => exact ⟨trivial, trivial, trivial⟩
  obtain ⟨hsends, hroom, hstays⟩ := hconditions
  exact hkept.messages.afterStep hshares hsafe hsends hroom hstays hstep

theorem afterStep (hkept : McachedKept cfg arch pools gap proc)
    (hshares : cfg.SharesEntries)
    {action : ProcessAction McachedCall Empty}
    (hsafe : proc.NoOverrun (cfg.mcached arch pools) action)
    (hfits : ∀ source, action = .library (.call source) →
      proc.sys.inSegment = true ∧ source.Bare ∧ proc.Fits gap source)
    (hstep : proc.step (cfg.mcached arch pools) access noStore action =
      some next) :
    McachedKept cfg arch pools gap next := by
  have hmessages := hkept.messages_afterStep hshares hsafe hfits hstep
  have htraffic := Process.step_traffic hstep
  have hwaiting : ∀ g call, next.Waiting g call →
      proc.Waiting g call ∨
        g = proc.queued.length ∧ next.queued = proc.queued ++ [call] :=
    fun g call => htraffic.waiting_cases hkept.messages.counted.tracked
      hmessages.counted.tracked
  cases htraffic with
  | other _ _ _ hmemory hqueued =>
      exact hkept.of_samePools hmessages hmemory hqueued hwaiting
  | execute _ _ _ _ _ _ _ hmemory hqueued =>
      exact hkept.of_samePools hmessages hmemory hqueued hwaiting
  | call source _ _ _ _ _ _ hmemory hqueued =>
      obtain ⟨_, hbare, hroom⟩ := hfits source rfl
      exact hkept.afterCall hmessages hbare hroom hmemory ⟨rfl, rfl⟩
        hqueued hwaiting
  | store value _ => exact nomatch value

end McachedKept

end Kept

section Sessions

variable {effect : McachedAsk → ς → ς}
  {session next final : Session McachedCall McachedMemory ς}

def Session.McachedProper (gap : ℕ)
    (session : Session McachedCall McachedMemory ς) :
    SessionAction McachedCall Empty → Prop
  | .process (.library (.call source)) =>
      session.proc.sys.inSegment = true →
        source.Bare ∧ session.proc.Fits gap source
  | _ => True

instance (gap : ℕ) (session : Session McachedCall McachedMemory ς)
    (action : SessionAction McachedCall Empty) :
    Decidable (session.McachedProper gap action) :=
  match action with
  | .process (.library (.call _)) => inferInstanceAs (Decidable (_ → _))
  | .process (.library .batchStart) | .process (.library .batchFlush)
  | .process (.library .user) | .process (.library (.worker _ _ _))
  | .toggleRegion => inferInstanceAs (Decidable True)

theorem McachedKept.afterSession
    (hkept : McachedKept cfg arch pools gap session.proc)
    (hshares : cfg.SharesEntries)
    {action : SessionAction McachedCall Empty}
    (hsafe : session.NoOverrun (cfg.mcached arch pools) action)
    (hproper : session.McachedProper gap action)
    (hstep : session.step (cfg.mcached arch pools) access noStore
      (mcachedMeaning pools effect) action = some next) :
    McachedKept cfg arch pools gap next.proc := by
  have hunchanged : ∀ later : Process McachedCall McachedMemory,
      later.Tracked (cfg.mcached arch pools) →
        session.proc.Unchanged later →
          McachedKept cfg arch pools gap later := by
    intro later htracked hsame
    exact hkept.of_samePools (hkept.messages.of_unchanged htracked hsame)
      hsame.memory_eq hsame.queued_eq
      fun _ _ hwaiting => Or.inl (hsame.toSameEntries.waiting hwaiting)
  obtain ⟨htracked, ⟨_, hsame⟩ | ⟨source, _, _, hsame, hmemory⟩ |
    ⟨inner, rfl, hsegment, hproc⟩⟩ :=
      Session.step_cases hkept.messages.counted.tracked hsafe hstep
  · exact hunchanged _ htracked hsame
  · exact hunchanged _ htracked ⟨hsame, hmemory⟩
  · refine hkept.afterStep hshares hsafe ?_ hproc
    rintro source rfl
    exact ⟨hsegment source rfl, hproper (hsegment source rfl)⟩

end Sessions

end Saio
