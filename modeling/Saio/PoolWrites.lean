import Saio.CallHistory
import Saio.DescriptorOrder
import Saio.ByteCopy
import Mathlib.Tactic

/-!
# The copies of the TLS writes

`write` copies the caller's bytes into `mpool` behind the last copy, or at the
beginning when they would pass the end, and asks nobody whether the bytes
there have been sent.  With one ring for all calls of a process the pending
writes are among the last `MAX_TABLE_ENTRY * MAX_TABLE_LEN` calls.  When the
pool holds one block more than that, a copy never meets a pending one.
-/

namespace Saio

open FifoBank

/-- The bytes of `mpool` that a queued write points to, by offset and
number. -/
def SysCall.copied (mpool : ℤ) (entry : SysCall) : Option (ℕ × ℕ) :=
  match entry.args with
  | [_, buf, count] => some ((buf - mpool).toNat, count.toNat)
  | _ => none

def writeRead (mpool : ℤ) (entry : SysCall) (memory : NgxMemory) :
    Option (ℤ × List UInt8) :=
  match entry.args with
  | [fd, buf, count] =>
      some (fd, readBytes memory.mpool (buf - mpool).toNat count.toNat)
  | _ => none

def writeMeant (source : NgxCall) (_ : NgxMemory) :
    Option (ℤ × List UInt8) :=
  match source with
  | .write fd buf => some (fd, buf)
  | _ => none

def Apart (first second : ℕ × ℕ) : Prop :=
  first.1 + first.2 ≤ second.1 ∨ second.1 + second.2 ≤ first.1

def NgxCall.bytes : NgxCall → List UInt8
  | .write _ buf => buf
  | _ => []

def Process.WritesUpTo (bound : ℕ) (_ : Process NgxCall NgxMemory) :
    ProcessAction NgxCall Empty → Prop
  | .library (.call source) => source.bytes.length ≤ bound
  | _ => True

instance (bound : ℕ) (proc : Process NgxCall NgxMemory)
    (action : ProcessAction NgxCall Empty) :
    Decidable (proc.WritesUpTo bound action) :=
  match action with
  | .library (.call _) => inferInstanceAs (Decidable (_ ≤ _))
  | .library .batchStart | .library .batchFlush | .library .user
  | .library (.worker _ _ _) => inferInstanceAs (Decidable True)

variable {cfg : SetConfig} {arch : Architecture} {mpool : ℤ}
  {access : FlagAccess} {bound : ℕ} {memory : NgxMemory}
  {source : NgxCall} {sys : System NgxCall NgxMemory}
  {proc next final : Process NgxCall NgxMemory}
  {action : ProcessAction NgxCall Empty}

/-! ## One copy -/

theorem push_nil (hoffset : memory.poolOffset ≤ maxPoolSize) :
    memory.push [] = memory := by
  have hplace : memory.place 0 = memory.poolOffset :=
    BumpPool.place_of_fits hoffset
  unfold NgxMemory.push
  rw [memcpy_nil, List.length_nil, hplace]
  rfl

/-- Also the calls that copy nothing push their bytes. -/
theorem prepared_memory (hoffset : sys.memory.poolOffset ≤ maxPoolSize) :
    (sys.prepared (cfg.ngx arch mpool) source).2 =
      sys.memory.push source.bytes := by
  cases source with
  | write fd buf => rfl
  | close fd => exact (push_nil hoffset).symm
  | sendfile64 outFd inFd offset count => exact (push_nil hoffset).symm
  | sendfile outFd inFd offset count => exact (push_nil hoffset).symm

theorem prepared_copied {region : ℕ × ℕ}
    (hregion : region ∈
      (sys.prepared (cfg.ngx arch mpool) source).1.copied mpool) :
    region =
      (sys.memory.place source.bytes.length, source.bytes.length) := by
  cases source with
  | write fd buf =>
      simpa [System.prepared, SetConfig.ngx, ngx, writeEntry,
        SysCall.copied, NgxCall.bytes, eq_comm] using hregion
  | close fd =>
      simp [System.prepared, SetConfig.ngx, ngx, closeEntry,
        SysCall.copied] at hregion
  | sendfile64 outFd inFd offset count =>
      simp [System.prepared, SetConfig.ngx, ngx, sendfileEntry,
        SysCall.copied] at hregion
  | sendfile outFd inFd offset count =>
      simp [System.prepared, SetConfig.ngx, ngx, sendfileEntry,
        SysCall.copied] at hregion

theorem writeRead_congr {entry : SysCall} {other : NgxMemory}
    (hsame : ∀ region ∈ entry.copied mpool,
      readBytes other.mpool region.1 region.2 =
        readBytes memory.mpool region.1 region.2) :
    writeRead mpool entry other = writeRead mpool entry memory := by
  unfold SysCall.copied at hsame
  unfold writeRead
  split
  next fd buf count hargs =>
    rw [hargs] at hsame
    rw [hsame _ rfl]
  next => rfl

theorem writeRead_prepared (hoffset : sys.memory.poolOffset ≤ maxPoolSize) :
    writeRead mpool (sys.prepared (cfg.ngx arch mpool) source).1
        (sys.prepared (cfg.ngx arch mpool) source).2 =
      writeMeant source sys.memory := by
  rw [prepared_memory hoffset]
  cases source with
  | write fd buf =>
      have hself : readBytes (sys.memory.push buf).mpool
          (sys.memory.place buf.length) buf.length = buf :=
        readBytes_memcpy_self
      simp [System.prepared, SetConfig.ngx, ngx, writeEntry, writeRead,
        writeMeant, NgxCall.bytes, hself]
  | close fd => rfl
  | sendfile64 outFd inFd offset count => rfl
  | sendfile outFd inFd offset count => rfl

theorem route_ngx (hratio : cfg.ratio = 1) :
    (cfg.ngx arch mpool).route source =
      (cfg.ngx arch mpool).firstRing := by
  unfold Deployment.route Deployment.ringIndex
  rw [show (cfg.ngx arch mpool).ratio = 1 from hratio]
  simp

/-! ## The pending copies -/

structure CopiesKept (cfg : SetConfig) (arch : Architecture) (mpool : ℤ)
    (bound : ℕ) (proc : Process NgxCall NgxMemory) : Prop where
  tracked : proc.Tracked (cfg.ngx arch mpool)
  offset_le : proc.sys.memory.poolOffset ≤ maxPoolSize
  inside : ∀ call ∈ proc.queued, ∀ region ∈ call.entry.copied mpool,
    region.1 + region.2 ≤ maxPoolSize
  behind : ∀ k n call, proc.Pending k n call →
    ∀ region ∈ call.entry.copied mpool,
      BumpPool.Behind maxPoolSize bound proc.sys.memory.poolOffset
        ((proc.queuedOn k).length - n) region.1 region.2
  apart : ∀ k n m first second, proc.Pending k n first →
    proc.Pending k m second → n ≠ m →
      ∀ region ∈ first.entry.copied mpool,
        ∀ other ∈ second.entry.copied mpool, Apart region other
  intact : proc.Intact (writeRead mpool) writeMeant
  conveys : cfg.SharesEntries →
    proc.Conveys (writeRead mpool) writeMeant

theorem init_copiesKept (pages : ℤ → ℕ → ℕ → TableEntry)
    (bytes : ℕ → UInt8) :
    CopiesKept cfg arch mpool bound
      (Process.init (cfg.ngx arch mpool) pages ⟨bytes, 0⟩) where
  tracked := Process.init_tracked _ pages _
  offset_le := Nat.zero_le _
  inside := by simp [Process.init]
  behind := by simp [Process.Pending, Process.init, Process.queuedOn]
  apart := by simp [Process.Pending, Process.init, Process.queuedOn]
  intact := Process.init_intact _ pages _
  conveys := fun _ => Process.init_conveys _ pages _

namespace CopiesKept

theorem apart_new (hkept : CopiesKept cfg arch mpool bound proc)
    (hbound : (cfg.capacity + 1) * bound ≤ maxPoolSize)
    (hready : proc.sys.user = .ready) {count : ℕ}
    (hcount : count ≤ bound) {k : ℤ} {n : ℕ}
    {call : Queued NgxCall NgxMemory} (hpending : proc.Pending k n call)
    {region : ℕ × ℕ} (hregion : region ∈ call.entry.copied mpool) :
    Apart region (proc.sys.memory.place count, count) := by
  have hlength :=
    hkept.tracked.length_of_outside (by rw [hready]; trivial) k
  have hlap := (hkept.tracked.good k).issued_lt
  change _ < _ + cfg.capacity at hlap
  have hfrom := hpending.2
  have hage : (proc.queuedOn k).length - n + 2 ≤ cfg.capacity + 1 := by
    have hcapacity := cfg.capacity_pos
    omega
  have hroom : ((proc.queuedOn k).length - n + 2) * bound ≤ maxPoolSize :=
    (Nat.mul_le_mul_right bound hage).trans hbound
  exact (hkept.behind k n call hpending region hregion).apart hcount
    hroom

theorem ring_eq (hkept : CopiesKept cfg arch mpool bound proc)
    (hratio : cfg.ratio = 1) {k : ℤ} {n : ℕ}
    {call : Queued NgxCall NgxMemory} (hpending : proc.Pending k n call) :
    k = (cfg.ngx arch mpool).firstRing := by
  rw [(hkept.tracked.built k n call hpending.1).1]
  exact route_ngx hratio

structure Adds (mpool : ℤ) (proc : Process NgxCall NgxMemory)
    (source : NgxCall) (last : Queued NgxCall NgxMemory)
    (next : Process NgxCall NgxMemory) : Prop where
  memory_eq : next.sys.memory = proc.sys.memory.push source.bytes
  queued_eq : next.queued = proc.queued ++ [last]
  region_eq : ∀ region ∈ last.entry.copied mpool,
    region =
      (proc.sys.memory.place source.bytes.length, source.bytes.length)
  pending_cases : ∀ k n call, next.Pending k n call →
    proc.Pending k n call ∨
      k = last.ring ∧ n = (proc.queuedOn k).length ∧ call = last

theorem behind_afterCall (hkept : CopiesKept cfg arch mpool bound proc)
    (hratio : cfg.ratio = 1) (hsource : source.bytes.length ≤ bound)
    {last : Queued NgxCall NgxMemory}
    (hring : last.ring = (cfg.ngx arch mpool).firstRing)
    (hadds : Adds mpool proc source last next) {k : ℤ} {n : ℕ}
    {call : Queued NgxCall NgxMemory} (hpending : next.Pending k n call)
    {region : ℕ × ℕ} (hregion : region ∈ call.entry.copied mpool) :
    BumpPool.Behind maxPoolSize bound next.sys.memory.poolOffset
      ((next.queuedOn k).length - n) region.1 region.2 := by
  have hoffset : next.sys.memory.poolOffset =
      BumpPool.place maxPoolSize proc.sys.memory.poolOffset
        source.bytes.length + source.bytes.length := by
    rw [hadds.memory_eq]
    rfl
  have hlonger : (next.queuedOn last.ring).length =
      (proc.queuedOn last.ring).length + 1 := by
    rw [Process.queuedOn_append_self hadds.queued_eq, List.length_append]
    rfl
  rw [hoffset]
  rcases hadds.pending_cases k n call hpending with
    hold | ⟨rfl, rfl, rfl⟩
  · have hk : k = last.ring := (hkept.ring_eq hratio hold).trans hring.symm
    have hn := (List.getElem?_eq_some_iff.mp hold.1).1
    subst k
    have hage : (next.queuedOn last.ring).length - n =
        (proc.queuedOn last.ring).length - n + 1 := by
      omega
    rw [hage]
    exact (hkept.behind _ n call hold region hregion).push
      hkept.offset_le hsource
  · have hage : (next.queuedOn call.ring).length -
        (proc.queuedOn call.ring).length = 1 := by
      omega
    rw [hage, hadds.region_eq region hregion]
    exact BumpPool.behind_place hsource

theorem apart_afterCall (hkept : CopiesKept cfg arch mpool bound proc)
    (hbound : (cfg.capacity + 1) * bound ≤ maxPoolSize)
    (hready : proc.sys.user = .ready)
    (hsource : source.bytes.length ≤ bound)
    {last : Queued NgxCall NgxMemory}
    (hadds : Adds mpool proc source last next) {k : ℤ} {n m : ℕ}
    {first second : Queued NgxCall NgxMemory}
    (hfirst : next.Pending k n first) (hsecond : next.Pending k m second)
    (hne : n ≠ m) {region other : ℕ × ℕ}
    (hregion : region ∈ first.entry.copied mpool)
    (hother : other ∈ second.entry.copied mpool) :
    Apart region other := by
  rcases hadds.pending_cases k n first hfirst with
    holdFirst | ⟨_, hn, rfl⟩
  · rcases hadds.pending_cases k m second hsecond with
      holdSecond | ⟨_, _, rfl⟩
    · exact hkept.apart k n m first second holdFirst holdSecond hne region
        hregion other hother
    · rw [hadds.region_eq other hother]
      exact hkept.apart_new hbound hready hsource holdFirst hregion
  · rcases hadds.pending_cases k m second hsecond with
      holdSecond | ⟨_, hm, _⟩
    · rw [hadds.region_eq region hregion]
      exact (hkept.apart_new hbound hready hsource holdSecond
        hother).symm
    · exact absurd (hn.trans hm.symm) hne

theorem afterCall (hkept : CopiesKept cfg arch mpool bound proc)
    (hratio : cfg.ratio = 1)
    (hbound : (cfg.capacity + 1) * bound ≤ maxPoolSize)
    (hready : proc.sys.user = .ready)
    (hsource : source.bytes.length ≤ bound)
    {last : Queued NgxCall NgxMemory}
    (hring : last.ring = (cfg.ngx arch mpool).firstRing)
    (hadds : Adds mpool proc source last next)
    (htracked : next.Tracked (cfg.ngx arch mpool))
    (hintact : next.Intact (writeRead mpool) writeMeant)
    (hconveys : cfg.SharesEntries →
      next.Conveys (writeRead mpool) writeMeant) :
    CopiesKept cfg arch mpool bound next := by
  have hsmall : source.bytes.length ≤ maxPoolSize := by
    have hone : 1 * bound ≤ (cfg.capacity + 1) * bound :=
      Nat.mul_le_mul_right bound (Nat.le_add_left 1 _)
    omega
  have hinside : proc.sys.memory.place source.bytes.length +
      source.bytes.length ≤ maxPoolSize :=
    BumpPool.place_add_le hsmall
  constructor
  · exact htracked
  · rw [hadds.memory_eq]
    exact hinside
  · intro call hmem region hregion
    rw [hadds.queued_eq] at hmem
    rcases List.mem_append.mp hmem with hold | hnew
    · exact hkept.inside call hold region hregion
    · rw [List.mem_singleton.mp hnew] at hregion
      rw [hadds.region_eq region hregion]
      exact hinside
  · intro k n call hpending region hregion
    exact hkept.behind_afterCall hratio hsource hring hadds hpending
      hregion
  · intro k n m first second hfirst hsecond hne region hregion other hother
    exact hkept.apart_afterCall hbound hready hsource hadds hfirst hsecond
      hne hregion hother
  · exact hintact
  · exact hconveys

theorem of_samePool (hkept : CopiesKept cfg arch mpool bound proc)
    (hmemory : next.sys.memory = proc.sys.memory)
    (hqueued : next.queued = proc.queued)
    (hpending : ∀ k n call, next.Pending k n call →
      proc.Pending k n call)
    (htracked : next.Tracked (cfg.ngx arch mpool))
    (hintact : next.Intact (writeRead mpool) writeMeant)
    (hconveys : cfg.SharesEntries →
      next.Conveys (writeRead mpool) writeMeant) :
    CopiesKept cfg arch mpool bound next where
  tracked := htracked
  offset_le := by
    rw [hmemory]
    exact hkept.offset_le
  inside := by
    rw [hqueued]
    exact hkept.inside
  behind := by
    intro k n call hafter
    unfold Process.queuedOn
    rw [hmemory, hqueued]
    exact hkept.behind k n call (hpending k n call hafter)
  apart := by
    intro k n m first second hfirst hsecond
    exact hkept.apart k n m first second (hpending k n first hfirst)
      (hpending k m second hsecond)
  intact := hintact
  conveys := hconveys

theorem intact_afterTraffic (hkept : CopiesKept cfg arch mpool bound proc)
    (hbound : (cfg.capacity + 1) * bound ≤ maxPoolSize)
    (hwrites : proc.WritesUpTo bound action)
    (htraffic : Process.Traffic (cfg.ngx arch mpool) noStore proc action
      next)
    (htracked : next.Tracked (cfg.ngx arch mpool)) :
    next.Intact (writeRead mpool) writeMeant := by
  refine hkept.intact.afterTraffic htraffic hkept.tracked htracked ?_ ?_
  · intro k n call hpending _
    apply writeRead_congr
    intro region hregion
    cases htraffic with
    | other _ _ _ hmemory _ => rw [hmemory]
    | execute _ _ _ _ _ _ _ hmemory _ =>
        rw [hmemory]
        rfl
    | call source hready _ _ _ _ _ hmemory _ =>
        have hpush : next.sys.memory =
            proc.sys.memory.push source.bytes :=
          hmemory.trans (prepared_memory hkept.offset_le)
        rw [hpush]
        exact readBytes_memcpy_of_disjoint
          (hkept.apart_new hbound hready hwrites hpending hregion)
    | store value _ => exact nomatch value
  · rintro source rfl _
    exact writeRead_prepared hkept.offset_le

theorem afterStep (hkept : CopiesKept cfg arch mpool bound proc)
    (hratio : cfg.ratio = 1)
    (hbound : (cfg.capacity + 1) * bound ≤ maxPoolSize)
    (hsafe : proc.NoOverrun (cfg.ngx arch mpool) action)
    (hwrites : proc.WritesUpTo bound action)
    (hstep : proc.step (cfg.ngx arch mpool) access noStore action =
      some next) :
    CopiesKept cfg arch mpool bound next := by
  have htraffic := Process.step_traffic hstep
  have htracked := hkept.tracked.afterStep hstep hsafe
  have hintact :=
    hkept.intact_afterTraffic hbound hwrites htraffic htracked
  have hconveys : cfg.SharesEntries →
      next.Conveys (writeRead mpool) writeMeant := fun hshares =>
    (hkept.conveys hshares).afterTraffic hkept.tracked htracked
      (htracked.good.drainsInOrder hshares) hkept.intact htraffic
  have hle := hkept.tracked.executed_le htracked htraffic
  cases htraffic with
  | other _ _ _ hmemory hqueued =>
      exact hkept.of_samePool hmemory hqueued
        (fun k _ _ hpending => hpending.of_sameLog hqueued (hle k))
        htracked hintact hconveys
  | execute _ _ _ _ _ _ _ hmemory hqueued =>
      exact hkept.of_samePool hmemory hqueued
        (fun k _ _ hpending => hpending.of_sameLog hqueued (hle k))
        htracked hintact hconveys
  | call source hready _ _ _ _ _ hmemory hqueued =>
      have hadds : Adds mpool proc source
          ⟨source, (cfg.ngx arch mpool).route source,
            (proc.sys.prepared (cfg.ngx arch mpool) source).1,
            proc.sys.memory⟩ next := by
        constructor
        · exact hmemory.trans (prepared_memory hkept.offset_le)
        · exact hqueued
        · exact fun region hregion => prepared_copied hregion
        · intro k n call hpending
          rcases Process.getElem?_queuedOn_append hqueued hpending.1 with
            hold | hnew
          · exact Or.inl ⟨hold, (hle k).trans hpending.2⟩
          · exact Or.inr hnew
      exact hkept.afterCall hratio hbound hready hwrites
        (route_ngx hratio) hadds htracked hintact hconveys
  | store value _ => exact nomatch value

end CopiesKept

/-- With one ring and room for one block more than it has entries, the pool
never runs over a pending copy; if the worker finds the entries where the
wrapper fills them, every executed write sends the bytes it was called
with. -/
theorem pending_copies_last {pages : ℤ → ℕ → ℕ → TableEntry}
    {bytes : ℕ → UInt8} {actions : List (ProcessAction NgxCall Empty)}
    (hratio : cfg.ratio = 1)
    (hbound : (cfg.maxTableEntry * cfg.maxTableLen + 1) * bound ≤
      maxPoolSize)
    (hrun : Transition.run
      (Process.step (cfg.ngx arch mpool) access noStore)
      (Process.init (cfg.ngx arch mpool) pages ⟨bytes, 0⟩) actions =
        some final)
    (hsafe : Transition.StepsMeet
      (Process.step (cfg.ngx arch mpool) access noStore)
      (fun proc action => proc.NoOverrun (cfg.ngx arch mpool) action ∧
        proc.WritesUpTo bound action)
      (Process.init (cfg.ngx arch mpool) pages ⟨bytes, 0⟩) actions) :
    final.sys.memory.poolOffset ≤ maxPoolSize ∧
      (∀ call ∈ final.queued, ∀ region ∈ call.entry.copied mpool,
        region.1 + region.2 ≤ maxPoolSize) ∧
      (∀ k n m l first second, final.Pending k n first →
        final.Pending m l second → (k, n) ≠ (m, l) →
          ∀ region ∈ first.entry.copied mpool,
            ∀ other ∈ second.entry.copied mpool, Apart region other) ∧
      (∀ buf : List UInt8, buf.length ≤ bound →
        final.sys.user = .ready →
          ∀ k n call, final.Pending k n call →
            ∀ region ∈ call.entry.copied mpool,
              Apart region
                (final.sys.memory.place buf.length, buf.length)) ∧
      (cfg.SharesEntries →
        ∀ k, lane k (final.sentLog (writeRead mpool)) <+:
          lane k (final.meantLog writeMeant)) := by
  have hkept : CopiesKept cfg arch mpool bound final :=
    Transition.run_invariant
      (fun _ _ _ hkept hmeets hstep =>
        hkept.afterStep hratio hbound hmeets.1 hmeets.2 hstep)
      (init_copiesKept pages bytes) hrun hsafe
  refine ⟨hkept.offset_le, hkept.inside, ?_, ?_, hkept.conveys⟩
  · intro k n m l first second hfirst hsecond hne
    have hring : k = m :=
      (hkept.ring_eq hratio hfirst).trans
        (hkept.ring_eq hratio hsecond).symm
    subst m
    exact hkept.apart k n l first second hfirst hsecond
      fun hequal => hne (by rw [hequal])
  · intro buf hbuf hready k n call hpending region hregion
    exact hkept.apart_new hbound hready hbuf hpending hregion

/-- Two writes and a close are queued before the worker executes the first
write. -/
def queuedWrites : List (ProcessAction NgxCall Empty) :=
  (SystemAction.segmentStart oneWorkerSet ++
    SystemAction.wholeCall (NgxCall.write 4 [97, 98]) ++
    SystemAction.wholeCall (NgxCall.write 5 [99]) ++
    SystemAction.workerSteps 0 false 3 ++
    [SystemAction.call (NgxCall.close 4)]).map .library

theorem queuedWrites_last :
    ∃ final,
      Transition.run
        (Process.step (oneWorkerSet.ngx .x86 16) .atomic noStore)
        (Process.init (oneWorkerSet.ngx .x86 16) (fun _ => blankMemory)
          ⟨fun _ => 0, 0⟩) queuedWrites = some final ∧
      (lane 0 (final.sentLog (writeRead 16))).map Prod.snd =
        [some (4, [97, 98])] ∧
      (lane 0 (final.meantLog writeMeant)).map Prod.snd =
        [some (4, [97, 98]), some (5, [99]), none] ∧
      final.sys.memory.poolOffset ≤ maxPoolSize ∧
      ∀ k n m l first second, final.Pending k n first →
        final.Pending m l second → (k, n) ≠ (m, l) →
          ∀ region ∈ first.entry.copied 16,
            ∀ other ∈ second.entry.copied 16, Apart region other := by
  have hrun :
      Transition.run
        (Process.step (oneWorkerSet.ngx .x86 16) .atomic noStore)
        (Process.init (oneWorkerSet.ngx .x86 16) (fun _ => blankMemory)
          ⟨fun _ => 0, 0⟩) queuedWrites = some _ := rfl
  have hbound : (oneWorkerSet.maxTableEntry * oneWorkerSet.maxTableLen +
      1) * 2 ≤ maxPoolSize := by
    decide
  obtain ⟨hoffset, _, hapart, _⟩ :=
    pending_copies_last rfl hbound hrun (by decide)
  exact ⟨_, hrun, rfl, rfl, hoffset, hapart⟩

/-- Three calls fill the first of two short tables, and a write is queued
behind them before the worker executes the batch. -/
def shortWrites : List (ProcessAction NgxCall Empty) :=
  (SystemAction.segmentStart shortTableSet ++
    SystemAction.wholeCall (NgxCall.close 5) ++
    SystemAction.wholeCall (NgxCall.close 6) ++
    SystemAction.wholeCall (NgxCall.close 7) ++
    SystemAction.wholeCall (NgxCall.write 4 [97, 98]) ++
    SystemAction.workerSteps 0 false 12).map .library

/-- The batch has all four entries, and the write is not executed. -/
theorem shortWrites_send_nothing :
    ∃ final,
      Transition.run
        (Process.step (shortTableSet.ngx .x86 16) .atomic noStore)
        (Process.init (shortTableSet.ngx .x86 16) (fun _ => blankMemory)
          ⟨fun _ => 0, 0⟩) shortWrites = some final ∧
      Transition.StepsMeet
        (Process.step (shortTableSet.ngx .x86 16) .atomic noStore)
        (fun proc action =>
          proc.NoOverrun (shortTableSet.ngx .x86 16) action ∧
            proc.WritesUpTo 2 action)
        (Process.init (shortTableSet.ngx .x86 16) (fun _ => blankMemory)
          ⟨fun _ => 0, 0⟩) shortWrites ∧
      (shortTableSet.maxTableEntry * shortTableSet.maxTableLen + 1) * 2 ≤
        maxPoolSize ∧
      (lane 0 (final.meantLog writeMeant)).map Prod.snd =
        [none, none, none, some (4, [97, 98])] ∧
      (lane 0 (final.sentLog (writeRead 16))).map Prod.snd =
        List.replicate 4 none := by
  have hends :
      (Transition.run
        (Process.step (shortTableSet.ngx .x86 16) .atomic noStore)
        (Process.init (shortTableSet.ngx .x86 16) (fun _ => blankMemory)
          ⟨fun _ => 0, 0⟩) shortWrites).map
        (fun final =>
          ((lane 0 (final.meantLog writeMeant)).map Prod.snd,
            (lane 0 (final.sentLog (writeRead 16))).map Prod.snd)) =
      some ([none, none, none, some (4, [97, 98])],
        List.replicate 4 none) := by
    decide +kernel
  obtain ⟨final, hrun, hfinal⟩ := Option.map_eq_some_iff.mp hends
  simp only [Prod.mk.injEq] at hfinal
  exact ⟨final, hrun, by decide +kernel, by decide, hfinal⟩

end Saio
