import Saio.CallHistory
import Saio.MessagePools
import Mathlib.Tactic

/-!
# How long the elements of the message pools last

The wrapper takes the elements of `msgpool` and `iovpool` in turn, and the
rings of a set execute independently of each other, so the calls that still
wait need not be the last ones.  Every message takes at least one iovec.  The
elements of a waiting call are therefore written again exactly when the
iovecs of all calls from it on, the new one included, are more than
`iovpool` holds.

The counters of the wrapper are masked; the log of the queued calls keeps
what they count.
-/

namespace Saio

open FifoBank

def SetConfig.mcached (cfg : SetConfig) (arch : Architecture)
    (pools : PoolAddresses) : Deployment McachedCall McachedMemory :=
  ⟨cfg, Saio.mcached arch pools⟩

/-- The pools as `init_worker` leaves them, with what their memory holds. -/
def freshPools (mpool : ℕ → UInt8) (iovpool : ℕ → Iovec)
    (msgpool : ℕ → MsgHdr) : McachedMemory where
  mpool := mpool
  poolOffset := 0
  iovpool := iovpool
  iovOffset := 0
  msgpool := msgpool
  msgOffset := 0

def McachedMemory.msgSlot (memory : McachedMemory) : ℕ :=
  memory.msgOffset % maxPoolMsgSize

theorem McachedMemory.and_msgMask_eq (memory : McachedMemory) :
    memory.msgOffset &&& msgMask = memory.msgSlot :=
  and_msgMask _

def McachedMemory.iovSlots (memory : McachedMemory)
    (source : McachedCall) : List ℕ :=
  CircularSlots.indices maxPoolIovSize memory.iovOffset source.iovlen

def iovecCount (calls : List (Queued McachedCall McachedMemory)) : ℕ :=
  (calls.map fun call => call.source.iovlen).sum

namespace Process

/-- The calls are made inside a segment, with at least one iovec. -/
def SendsMessages (proc : Process McachedCall McachedMemory) :
    ProcessAction McachedCall Empty → Prop
  | .library (.call source) =>
      proc.sys.inSegment = true ∧ 0 < source.iovlen
  | _ => True

/-- A call writes no element that a waiting call uses. -/
def NoReuse (proc : Process McachedCall McachedMemory) :
    ProcessAction McachedCall Empty → Prop
  | .library (.call source) =>
      ∀ g call, proc.Waiting g call →
        proc.sys.memory.msgSlot ≠ call.memory.msgSlot ∧
          ∀ slot ∈ proc.sys.memory.iovSlots source,
            slot ∉ call.memory.iovSlots call.source
  | _ => True

/-- The iovecs of the calls from a waiting one on and those of a new call fit
into `iovpool` together. -/
def HasRoom (proc : Process McachedCall McachedMemory) :
    ProcessAction McachedCall Empty → Prop
  | .library (.call source) =>
      ∀ g call, proc.Waiting g call →
        iovecCount (proc.queued.drop g) + source.iovlen ≤ maxPoolIovSize
  | _ => True

/-- A call does not run over the end of `iovpool`. -/
def StaysInPool (proc : Process McachedCall McachedMemory) :
    ProcessAction McachedCall Empty → Prop
  | .library (.call source) =>
      proc.sys.memory.iovOffset % maxPoolIovSize + source.iovlen ≤
        maxPoolIovSize
  | _ => True

instance (proc : Process McachedCall McachedMemory)
    (action : ProcessAction McachedCall Empty) :
    Decidable (proc.SendsMessages action) :=
  match action with
  | .library (.call _) => inferInstanceAs (Decidable (_ ∧ _))
  | .library .batchStart | .library .batchFlush | .library .user
  | .library (.worker _ _ _) => inferInstanceAs (Decidable True)

instance (proc : Process McachedCall McachedMemory)
    (action : ProcessAction McachedCall Empty) :
    Decidable (proc.HasRoom action) :=
  match action with
  | .library (.call _) =>
      inferInstanceAs (Decidable (∀ g call, proc.Waiting g call → _))
  | .library .batchStart | .library .batchFlush | .library .user
  | .library (.worker _ _ _) => inferInstanceAs (Decidable True)

instance (proc : Process McachedCall McachedMemory)
    (action : ProcessAction McachedCall Empty) :
    Decidable (proc.StaysInPool action) :=
  match action with
  | .library (.call _) => inferInstanceAs (Decidable (_ ≤ _))
  | .library .batchStart | .library .batchFlush | .library .user
  | .library (.worker _ _ _) => inferInstanceAs (Decidable True)

end Process

variable {cfg : SetConfig} {arch : Architecture} {pools : PoolAddresses}
  {access : FlagAccess} {memory : McachedMemory} {source : McachedCall}
  {proc next final : Process McachedCall McachedMemory}
  {action : ProcessAction McachedCall Empty}

theorem prepared_mcached :
    proc.sys.prepared (cfg.mcached arch pools) source =
      (sendmsgEntry arch source.sockfd
          (pools.msghdr (proc.sys.memory.msgOffset &&& msgMask))
          source.flags,
        (proc.sys.memory.sendmsg pools source).1) :=
  rfl

/-! ## What the masked counters count -/

theorem iovecCount_append
    (first second : List (Queued McachedCall McachedMemory)) :
    iovecCount (first ++ second) =
      iovecCount first + iovecCount second := by
  simp [iovecCount]

theorem length_le_iovecCount
    {calls : List (Queued McachedCall McachedMemory)}
    (hsome : ∀ call ∈ calls, 0 < call.source.iovlen) :
    calls.length ≤ iovecCount calls := by
  rw [← List.length_map fun call : Queued McachedCall McachedMemory =>
    call.source.iovlen]
  apply List.length_le_sum_of_one_le
  intro count hmem
  obtain ⟨call, hcall, rfl⟩ := List.mem_map.mp hmem
  exact hsome call hcall

structure Counted (cfg : SetConfig) (arch : Architecture)
    (pools : PoolAddresses) (proc : Process McachedCall McachedMemory) :
    Prop where
  tracked : proc.Tracked (cfg.mcached arch pools)
  iovlen_pos : ∀ call ∈ proc.queued, 0 < call.source.iovlen
  msg_eq : proc.sys.memory.msgSlot = proc.queued.length % maxPoolMsgSize
  iov_eq : proc.sys.memory.iovOffset % maxPoolIovSize =
    iovecCount proc.queued % maxPoolIovSize
  call_msg : ∀ g call, proc.queued[g]? = some call →
    call.memory.msgSlot = g % maxPoolMsgSize
  call_iov : ∀ g call, proc.queued[g]? = some call →
    call.memory.iovOffset % maxPoolIovSize =
      iovecCount (proc.queued.take g) % maxPoolIovSize
  within : ∀ g call, proc.Waiting g call →
    iovecCount (proc.queued.drop g) ≤ maxPoolIovSize ∨
      maxPoolIovSize ≤ call.source.iovlen

theorem init_counted (pages : ℤ → ℕ → ℕ → TableEntry)
    (mpool : ℕ → UInt8) (iovpool : ℕ → Iovec) (msgpool : ℕ → MsgHdr) :
    Counted cfg arch pools
      (Process.init (cfg.mcached arch pools) pages
        (freshPools mpool iovpool msgpool)) where
  tracked := Process.init_tracked _ pages _
  iovlen_pos := by simp [Process.init]
  msg_eq := rfl
  iov_eq := rfl
  call_msg := by simp [Process.init]
  call_iov := by simp [Process.init]
  within := by simp [Process.Waiting, Process.init]

namespace Counted

theorem kept_iff (hcounted : Counted cfg arch pools proc)
    (hsource : 0 < source.iovlen) {g : ℕ}
    {call : Queued McachedCall McachedMemory}
    (hwaiting : proc.Waiting g call) :
    (proc.sys.memory.msgSlot ≠ call.memory.msgSlot ∧
        ∀ slot ∈ proc.sys.memory.iovSlots source,
          slot ∉ call.memory.iovSlots call.source) ↔
      iovecCount (proc.queued.drop g) + source.iovlen ≤
        maxPoolIovSize := by
  obtain ⟨hg, hcall⟩ := List.getElem?_eq_some_iff.mp hwaiting.1
  have hdrop : proc.queued.drop g =
      call :: proc.queued.drop (g + 1) := by
    rw [← hcall]
    exact List.drop_eq_getElem_cons hg
  have hheld : call.source.iovlen ≤
      iovecCount (proc.queued.drop g) := by
    rw [hdrop]
    simp [iovecCount]
  have hpos : 0 < call.source.iovlen :=
    hcounted.iovlen_pos call (List.mem_of_getElem? hwaiting.1)
  have hsplit : iovecCount proc.queued =
      iovecCount (proc.queued.take g) +
        iovecCount (proc.queued.drop g) := by
    rw [← iovecCount_append, List.take_append_drop]
  have hnew : proc.sys.memory.iovSlots source =
      CircularSlots.indices maxPoolIovSize
        (iovecCount (proc.queued.take g) +
          iovecCount (proc.queued.drop g)) source.iovlen := by
    rw [← hsplit]
    exact CircularSlots.indices_congr hcounted.iov_eq
  have hold : call.memory.iovSlots call.source =
      CircularSlots.indices maxPoolIovSize
        (iovecCount (proc.queued.take g)) call.source.iovlen :=
    CircularSlots.indices_congr (hcounted.call_iov g call hwaiting.1)
  rw [hnew, hold, hcounted.msg_eq, hcounted.call_msg g call hwaiting.1]
  constructor
  · rintro ⟨_, hdisjoint⟩
    exact CircularSlots.le_of_indices_disjoint (by decide) hpos hsource
      (hcounted.within g call hwaiting) hdisjoint
  · intro hroom
    constructor
    · have hlength : (proc.queued.drop g).length ≤
          iovecCount (proc.queued.drop g) :=
        length_le_iovecCount fun other hmem =>
          hcounted.iovlen_pos other (List.mem_of_mem_drop hmem)
      rw [List.length_drop] at hlength
      unfold maxPoolIovSize at hroom
      unfold maxPoolMsgSize
      omega
    · intro slot hmem
      exact CircularSlots.indices_disjoint_of_le hheld hroom hmem

theorem of_samePools (hcounted : Counted cfg arch pools proc)
    (htracked : next.Tracked (cfg.mcached arch pools))
    (hmemory : next.sys.memory = proc.sys.memory)
    (hqueued : next.queued = proc.queued)
    (hwaiting : ∀ g call, next.Waiting g call →
      proc.Waiting g call ∨
        g = proc.queued.length ∧ next.queued = proc.queued ++ [call]) :
    Counted cfg arch pools next where
  tracked := htracked
  iovlen_pos := by
    rw [hqueued]
    exact hcounted.iovlen_pos
  msg_eq := by
    rw [hmemory, hqueued]
    exact hcounted.msg_eq
  iov_eq := by
    rw [hmemory, hqueued]
    exact hcounted.iov_eq
  call_msg := by
    rw [hqueued]
    exact hcounted.call_msg
  call_iov := by
    rw [hqueued]
    exact hcounted.call_iov
  within := by
    intro g call hafter
    rcases hwaiting g call hafter with hbefore | ⟨_, hlonger⟩
    · rw [hqueued]
      exact hcounted.within g call hbefore
    · rw [hqueued] at hlonger
      simp at hlonger

theorem afterCall (hcounted : Counted cfg arch pools proc)
    (htracked : next.Tracked (cfg.mcached arch pools))
    (hsource : 0 < source.iovlen)
    (hmemory : next.sys.memory = (proc.sys.memory.sendmsg pools source).1)
    {last : Queued McachedCall McachedMemory}
    (hlast : last.source = source ∧ last.memory = proc.sys.memory)
    (hqueued : next.queued = proc.queued ++ [last])
    (hroom : ∀ g call, proc.Waiting g call →
      iovecCount (proc.queued.drop g) + source.iovlen ≤ maxPoolIovSize)
    (hwaiting : ∀ g call, next.Waiting g call →
      proc.Waiting g call ∨
        g = proc.queued.length ∧ next.queued = proc.queued ++ [call]) :
    Counted cfg arch pools next := by
  have hcount : iovecCount [last] = source.iovlen := by
    simp [iovecCount, hlast.1]
  constructor
  · exact htracked
  · rw [hqueued]
    intro call hmem
    rcases List.mem_append.mp hmem with hold | hnew
    · exact hcounted.iovlen_pos call hold
    · rw [List.mem_singleton.mp hnew, hlast.1]
      exact hsource
  · rw [hmemory, hqueued, McachedMemory.msgSlot, sendmsg_msgOffset,
      List.length_append, List.length_singleton, ← Nat.mod_add_mod]
    change (proc.sys.memory.msgSlot + 1) % maxPoolMsgSize = _
    rw [hcounted.msg_eq, Nat.mod_add_mod]
  · rw [hmemory, hqueued, sendmsg_iovOffset, iovecCount_append, hcount,
      ← Nat.mod_add_mod, hcounted.iov_eq, Nat.mod_add_mod]
  · intro g call hget
    rw [hqueued] at hget
    rcases FifoChannel.get_append_cases hget with hold | ⟨rfl, rfl⟩
    · exact hcounted.call_msg g call hold
    · rw [hlast.2]
      exact hcounted.msg_eq
  · intro g call hget
    rw [hqueued] at hget ⊢
    rcases FifoChannel.get_append_cases hget with hold | ⟨rfl, rfl⟩
    · have hg := (List.getElem?_eq_some_iff.mp hold).1
      rw [List.take_append_of_le_length hg.le]
      exact hcounted.call_iov g call hold
    · rw [hlast.2, List.take_left]
      exact hcounted.iov_eq
  · intro g call hafter
    rcases hwaiting g call hafter with hbefore | ⟨rfl, hlast'⟩
    · left
      have hg := (List.getElem?_eq_some_iff.mp hbefore.1).1
      rw [hqueued, List.drop_append_of_le_length hg.le,
        iovecCount_append, hcount]
      exact hroom g call hbefore
    · rw [hlast', List.append_cancel_left_eq] at hqueued
      obtain rfl := List.singleton_inj.mp hqueued
      rw [hlast', List.drop_left, hcount, hlast.1]
      exact Nat.le_total _ _

theorem afterStep (hcounted : Counted cfg arch pools proc)
    (hsafe : proc.NoOverrun (cfg.mcached arch pools) action)
    (hsends : proc.SendsMessages action) (hroom : proc.HasRoom action)
    (hstep : proc.step (cfg.mcached arch pools) access noStore action =
      some next) :
    Counted cfg arch pools next := by
  have htraffic := Process.step_traffic hstep
  have htracked := hcounted.tracked.afterStep hstep hsafe
  have hwaiting : ∀ g call, next.Waiting g call →
      proc.Waiting g call ∨
        g = proc.queued.length ∧ next.queued = proc.queued ++ [call] :=
    fun g call => htraffic.waiting_cases hcounted.tracked htracked
  cases htraffic with
  | other _ _ _ hmemory hqueued =>
      exact hcounted.of_samePools htracked hmemory hqueued hwaiting
  | execute _ _ _ _ _ _ _ hmemory hqueued =>
      exact hcounted.of_samePools htracked hmemory hqueued hwaiting
  | call source _ _ _ _ _ _ hmemory hqueued =>
      exact hcounted.afterCall htracked hsends.2 hmemory ⟨rfl, rfl⟩
        hqueued hroom hwaiting
  | store value _ => exact nomatch value

end Counted

/-! ## The messages that the workers send -/

/-- The header and the iovecs that the kernel finds behind an entry. -/
def messageRead (pools : PoolAddresses) (entry : SysCall)
    (memory : McachedMemory) : MsgHdr × List Iovec :=
  (entry.msghdr pools memory,
    (List.range (entry.msghdr pools memory).msgIovlen).map fun k : ℕ =>
      memory.iovecAt pools
        ((entry.msghdr pools memory).msgIov + 16 * k))

def messageBuilt (pools : PoolAddresses) (source : McachedCall)
    (memory : McachedMemory) : MsgHdr × List Iovec :=
  ((memory.sendmsg pools source).1.msgpool memory.msgSlot,
    (memory.iovSlots source).map
      (memory.sendmsg pools source).1.iovpool)

theorem McachedCall.msgIovlen_eq (hsource : 0 < source.iovlen) :
    (toInt source.iov.length % 2 ^ 64).toNat = source.iovlen := by
  unfold McachedCall.iovlen toInt at *
  rw [BitVec.toInt_ofInt, Int.bmod_def] at *
  split at hsource
  · rw [if_pos ‹_›]
    omega
  · rw [if_neg ‹_›]
    omega

/-- As long as its header lasts, the entry of a message inside `iovpool`
denotes the elements that the call has used. -/
theorem messageRead_eq {made : McachedMemory} (sockfd flags : ℤ)
    (hsource : 0 < source.iovlen)
    (hstays : made.iovOffset % maxPoolIovSize + source.iovlen ≤
      maxPoolIovSize)
    (hheader : memory.msgpool made.msgSlot =
      (made.sendmsg pools source).1.msgpool made.msgSlot) :
    messageRead pools
        (sendmsgEntry arch sockfd
          (pools.msghdr (made.msgOffset &&& msgMask)) flags) memory =
      (memory.msgpool made.msgSlot,
        (made.iovSlots source).map memory.iovpool) := by
  rw [← made.and_msgMask_eq] at hheader ⊢
  rw [sendmsg_msgpool_self] at hheader
  unfold messageRead
  rw [msghdr_sendmsgEntry]
  refine congrArg (Prod.mk _) ?_
  rw [hheader, McachedCall.msgIovlen_eq hsource]
  unfold McachedMemory.iovSlots CircularSlots.indices
  rw [List.map_map]
  apply List.map_congr_left
  intro k hmem
  have hk : k < source.iovlen := List.mem_range.mp hmem
  have hindex : (made.iovOffset + k) % maxPoolIovSize =
      made.iovOffset % maxPoolIovSize + k := by
    unfold maxPoolIovSize at *
    omega
  rw [McachedMemory.iovecAt_iovec, Function.comp_apply, hindex]

structure MessagesKept (cfg : SetConfig) (arch : Architecture)
    (pools : PoolAddresses) (proc : Process McachedCall McachedMemory) :
    Prop where
  counted : Counted cfg arch pools proc
  stays : ∀ call ∈ proc.queued,
    call.memory.iovOffset % maxPoolIovSize + call.source.iovlen ≤
      maxPoolIovSize
  intact : proc.Intact (messageRead pools) (messageBuilt pools)
  conveys : proc.Conveys (messageRead pools) (messageBuilt pools)

theorem init_messagesKept (pages : ℤ → ℕ → ℕ → TableEntry)
    (mpool : ℕ → UInt8) (iovpool : ℕ → Iovec) (msgpool : ℕ → MsgHdr) :
    MessagesKept cfg arch pools
      (Process.init (cfg.mcached arch pools) pages
        (freshPools mpool iovpool msgpool)) where
  counted := init_counted pages mpool iovpool msgpool
  stays := by simp [Process.init]
  intact := Process.init_intact _ pages _
  conveys := Process.init_conveys _ pages _

namespace MessagesKept

theorem read_kept (hkept : MessagesKept cfg arch pools proc)
    (hsource : 0 < source.iovlen)
    (hroom : proc.HasRoom (.library (.call source))) {k : ℤ} {n : ℕ}
    {call : Queued McachedCall McachedMemory}
    (hpending : proc.Pending k n call) :
    messageRead pools call.entry
        (proc.sys.memory.sendmsg pools source).1 =
      messageRead pools call.entry proc.sys.memory := by
  obtain ⟨g, hwaiting⟩ := hpending.waiting
  have hmem := List.mem_of_getElem? hwaiting.1
  have hpos := hkept.counted.iovlen_pos call hmem
  have hstays := hkept.stays call hmem
  obtain ⟨hmsg, hiov⟩ :=
    (hkept.counted.kept_iff hsource hwaiting).mpr
      (hroom g call hwaiting)
  have hentry : call.entry = sendmsgEntry arch call.source.sockfd
      (pools.msghdr (call.memory.msgOffset &&& msgMask))
      call.source.flags :=
    (hkept.counted.tracked.built k n call hpending.1).2
  have hheader : proc.sys.memory.msgpool call.memory.msgSlot =
      (call.memory.sendmsg pools call.source).1.msgpool
        call.memory.msgSlot := by
    have hread := congrArg Prod.fst (hkept.intact k n call hpending)
    rw [hentry] at hread
    simpa only [messageRead, messageBuilt, msghdr_sendmsgEntry,
      McachedMemory.and_msgMask_eq] using hread
  have hsame : (proc.sys.memory.sendmsg pools source).1.msgpool
      call.memory.msgSlot =
        proc.sys.memory.msgpool call.memory.msgSlot :=
    sendmsg_msgpool_of_ne hmsg.symm
  rw [hentry, messageRead_eq _ _ hpos hstays (hsame.trans hheader),
    messageRead_eq _ _ hpos hstays hheader, hsame]
  refine congrArg (Prod.mk _) ?_
  apply List.map_congr_left
  intro slot hslot
  exact sendmsg_iovpool_of_not_mem fun hnew => hiov slot hnew hslot

theorem afterStep (hkept : MessagesKept cfg arch pools proc)
    (hshares : cfg.SharesEntries)
    (hsafe : proc.NoOverrun (cfg.mcached arch pools) action)
    (hsends : proc.SendsMessages action) (hroom : proc.HasRoom action)
    (hstays : proc.StaysInPool action)
    (hstep : proc.step (cfg.mcached arch pools) access noStore action =
      some next) :
    MessagesKept cfg arch pools next := by
  have htraffic := Process.step_traffic hstep
  have hcounted := hkept.counted.afterStep hsafe hsends hroom hstep
  constructor
  · exact hcounted
  · apply htraffic.forall_queued hkept.stays
    rintro source rfl
    exact hstays
  · refine hkept.intact.afterTraffic htraffic hkept.counted.tracked
      hcounted.tracked ?_ ?_
    · intro k n call hpending _
      cases htraffic with
      | other _ _ _ hmemory _ => rw [hmemory]
      | execute _ _ _ _ _ _ _ hmemory _ =>
          rw [hmemory]
          rfl
      | call source _ _ _ _ _ _ hmemory _ =>
          rw [hmemory]
          exact hkept.read_kept hsends.2 hroom hpending
      | store value _ => exact nomatch value
    · rintro source rfl _
      rw [prepared_mcached]
      exact messageRead_eq _ _ hsends.2 hstays rfl
  · exact hkept.conveys.afterTraffic hkept.counted.tracked
      hcounted.tracked (hcounted.tracked.good.drainsInOrder hshares)
      hkept.intact htraffic

end MessagesKept

section Runs

variable {pages : ℤ → ℕ → ℕ → TableEntry} {mpool : ℕ → UInt8}
  {iovpool : ℕ → Iovec} {msgpool : ℕ → MsgHdr}
  {actions : List (ProcessAction McachedCall Empty)}

theorem noReuse_iff_hasRoom
    (hrun : Transition.run
      (Process.step (cfg.mcached arch pools) access noStore)
      (Process.init (cfg.mcached arch pools) pages
        (freshPools mpool iovpool msgpool)) actions = some final)
    (hsafe : Transition.StepsMeet
      (Process.step (cfg.mcached arch pools) access noStore)
      (fun proc action =>
        proc.NoOverrun (cfg.mcached arch pools) action ∧
          proc.SendsMessages action)
      (Process.init (cfg.mcached arch pools) pages
        (freshPools mpool iovpool msgpool)) actions) :
    Transition.StepsMeet
        (Process.step (cfg.mcached arch pools) access noStore)
        Process.NoReuse
        (Process.init (cfg.mcached arch pools) pages
          (freshPools mpool iovpool msgpool)) actions ↔
      Transition.StepsMeet
        (Process.step (cfg.mcached arch pools) access noStore)
        Process.HasRoom
        (Process.init (cfg.mcached arch pools) pages
          (freshPools mpool iovpool msgpool)) actions := by
  refine Transition.stepsMeet_iff_of_invariant ?_ ?_
    (init_counted pages mpool iovpool msgpool) hrun hsafe
  · intro proc action next hcounted hbase _
    cases action with
    | store value => exact nomatch value
    | library action =>
        cases action with
        | call source =>
            exact forall₃_congr fun g call hwaiting =>
              hcounted.kept_iff hbase.2.2 hwaiting
        | batchStart => exact Iff.rfl
        | batchFlush => exact Iff.rfl
        | user => exact Iff.rfl
        | worker k expired sysret => exact Iff.rfl
  · intro proc action next hcounted hbase hroom hstep
    exact hcounted.afterStep hbase.1 hbase.2 hroom hstep

/-- A call writes an element of a waiting one exactly when there is no room
for it; with room, and without running over the end of `iovpool`, every entry
is executed with the header and the iovecs built for it, if the worker finds
the entries where the wrapper fills them. -/
theorem elements_kept_iff
    (hrun : Transition.run
      (Process.step (cfg.mcached arch pools) access noStore)
      (Process.init (cfg.mcached arch pools) pages
        (freshPools mpool iovpool msgpool)) actions = some final)
    (hsafe : Transition.StepsMeet
      (Process.step (cfg.mcached arch pools) access noStore)
      (fun proc action =>
        proc.NoOverrun (cfg.mcached arch pools) action ∧
          proc.SendsMessages action)
      (Process.init (cfg.mcached arch pools) pages
        (freshPools mpool iovpool msgpool)) actions) :
    (Transition.StepsMeet
        (Process.step (cfg.mcached arch pools) access noStore)
        Process.NoReuse
        (Process.init (cfg.mcached arch pools) pages
          (freshPools mpool iovpool msgpool)) actions ↔
      Transition.StepsMeet
        (Process.step (cfg.mcached arch pools) access noStore)
        Process.HasRoom
        (Process.init (cfg.mcached arch pools) pages
          (freshPools mpool iovpool msgpool)) actions) ∧
    (cfg.SharesEntries →
      Transition.StepsMeet
        (Process.step (cfg.mcached arch pools) access noStore)
        (fun proc action =>
          proc.HasRoom action ∧ proc.StaysInPool action)
        (Process.init (cfg.mcached arch pools) pages
          (freshPools mpool iovpool msgpool)) actions →
      ∀ k, lane k (final.sentLog (messageRead pools)) <+:
        lane k (final.meantLog (messageBuilt pools))) := by
  refine ⟨noReuse_iff_hasRoom hrun hsafe, ?_⟩
  intro hshares hroom
  have hkept : MessagesKept cfg arch pools final :=
    Transition.run_invariant
      (fun proc action next hkept hmeets hstep =>
        hkept.afterStep hshares hmeets.1.1 hmeets.1.2 hmeets.2.1
          hmeets.2.2 hstep)
      (init_messagesKept pages mpool iovpool msgpool) hrun
      (hsafe.and hroom)
  exact hkept.conveys

end Runs

/-- Two messages of two iovecs are queued before the worker executes the
first one. -/
def queuedMessages : List (ProcessAction McachedCall Empty) :=
  (SystemAction.segmentStart oneWorkerSet ++
    SystemAction.wholeCall twoParts ++ SystemAction.wholeCall twoParts ++
    SystemAction.workerSteps 0 false 3).map .library

theorem queuedMessages_kept :
    ∃ final,
      Transition.run
        (Process.step (oneWorkerSet.mcached .x86 lowPools) .atomic noStore)
        (Process.init (oneWorkerSet.mcached .x86 lowPools)
          (fun _ => blankMemory) emptyPools) queuedMessages =
            some final ∧
      final.sys.executed.length = 1 ∧
      Transition.StepsMeet
        (Process.step (oneWorkerSet.mcached .x86 lowPools) .atomic noStore)
        Process.NoReuse
        (Process.init (oneWorkerSet.mcached .x86 lowPools)
          (fun _ => blankMemory) emptyPools) queuedMessages ∧
      ∀ k, lane k (final.sentLog (messageRead lowPools)) <+:
        lane k (final.meantLog (messageBuilt lowPools)) := by
  have hrun :
      Transition.run
        (Process.step (oneWorkerSet.mcached .x86 lowPools) .atomic noStore)
        (Process.init (oneWorkerSet.mcached .x86 lowPools)
          (fun _ => blankMemory) emptyPools) queuedMessages = some _ := rfl
  have hkept := elements_kept_iff hrun (by decide)
  exact ⟨_, hrun, rfl, hkept.1.mpr (by decide),
    hkept.2 (by decide) (by decide)⟩

def fullMessage : McachedCall :=
  message 4 (List.replicate 1024 [97])

def behindFullMessage : List (ProcessAction McachedCall Empty) :=
  (SystemAction.segmentStart oneWorkerSet ++
    SystemAction.wholeCall fullMessage ++
    SystemAction.wholeCall twoParts).map .library

/-- The second message takes iovecs of the first one, which still waits. -/
theorem behindFullMessage_reuses :
    ∃ final,
      Transition.run
        (Process.step (oneWorkerSet.mcached .x86 lowPools) .atomic noStore)
        (Process.init (oneWorkerSet.mcached .x86 lowPools)
          (fun _ => blankMemory) emptyPools) behindFullMessage =
            some final ∧
      Transition.StepsMeet
        (Process.step (oneWorkerSet.mcached .x86 lowPools) .atomic noStore)
        (fun proc action =>
          proc.NoOverrun (oneWorkerSet.mcached .x86 lowPools) action ∧
            proc.SendsMessages action)
        (Process.init (oneWorkerSet.mcached .x86 lowPools)
          (fun _ => blankMemory) emptyPools) behindFullMessage ∧
      ¬ Transition.StepsMeet
        (Process.step (oneWorkerSet.mcached .x86 lowPools) .atomic noStore)
        Process.NoReuse
        (Process.init (oneWorkerSet.mcached .x86 lowPools)
          (fun _ => blankMemory) emptyPools) behindFullMessage := by
  have hrun :
      Transition.run
        (Process.step (oneWorkerSet.mcached .x86 lowPools) .atomic noStore)
        (Process.init (oneWorkerSet.mcached .x86 lowPools)
          (fun _ => blankMemory) emptyPools) behindFullMessage =
            some _ := rfl
  have hsafe :
      Transition.StepsMeet
        (Process.step (oneWorkerSet.mcached .x86 lowPools) .atomic noStore)
        (fun proc action =>
          proc.NoOverrun (oneWorkerSet.mcached .x86 lowPools) action ∧
            proc.SendsMessages action)
        (Process.init (oneWorkerSet.mcached .x86 lowPools)
          (fun _ => blankMemory) emptyPools) behindFullMessage := by
    decide +kernel
  refine ⟨_, hrun, hsafe, ?_⟩
  intro hkept
  have hroom := (noReuse_iff_hasRoom hrun hsafe).mp hkept
  revert hroom
  decide +kernel

end Saio
