import Saio.ByteCopy
import Saio.CircularSlots
import Mathlib.Tactic

/-!
# The pools of the memcached wrapper

`sendmsg` copies the bytes of a message into `mpool`, describes them by
elements of `iovpool`, and queues a header in `msgpool` that refers to a run
of consecutive iovecs.  The three pools start over on their own.  The index
into `iovpool` is masked inside the loop, so a message that reaches the end of
`iovpool` does not lie in consecutive elements; and a message whose bytes start
over in `mpool` may overwrite its own beginning.

A message is gathered correctly, whatever its bytes are, exactly when neither
happens.
-/

namespace Saio

/-! ## What a queued message denotes -/

def InIovPool (pools : PoolAddresses) (address : ℤ) : Prop :=
  ∃ slot < maxPoolIovSize, address = pools.iovec slot

def Iovec.InPool (pools : PoolAddresses) (iovec : Iovec) : Prop :=
  pools.mpool ≤ iovec.iovBase ∧
    iovec.iovBase + iovec.iovLen ≤ pools.mpool + maxPoolSize

def Iovec.bytes (pools : PoolAddresses) (mpool : ℕ → UInt8)
    (iovec : Iovec) : List UInt8 :=
  readBytes mpool (iovec.iovBase - pools.mpool).toNat iovec.iovLen

namespace McachedMemory

def iovecAt (pools : PoolAddresses) (memory : McachedMemory)
    (address : ℤ) : Iovec :=
  memory.iovpool ((address - pools.iovpool) / 16).toNat

def msghdrAt (pools : PoolAddresses) (memory : McachedMemory)
    (address : ℤ) : MsgHdr :=
  memory.msgpool ((address - pools.msgpool) / 56).toNat

def denoted (pools : PoolAddresses) (memory : McachedMemory)
    (address : ℤ) (count : ℕ) : List UInt8 :=
  (List.range count).flatMap fun k : ℕ =>
    (memory.iovecAt pools (address + 16 * k)).bytes pools memory.mpool

end McachedMemory

def SysCall.msghdr (pools : PoolAddresses) (entry : SysCall)
    (memory : McachedMemory) : MsgHdr :=
  memory.msghdrAt pools (entry.args.getD 1 0)

/-- The queued entry denotes the bytes of the message, inside the pools, and
`result` is their number. -/
structure Gathered (pools : PoolAddresses) (source : McachedCall)
    (entry : SysCall) (memory : McachedMemory) (result : ℤ) : Prop where
  iovlen_eq : (entry.msghdr pools memory).msgIovlen = source.iov.length
  iovecs_inside : ∀ k < source.iov.length,
    InIovPool pools ((entry.msghdr pools memory).msgIov + 16 * k)
  regions_inside : ∀ k < source.iov.length,
    (memory.iovecAt pools
      ((entry.msghdr pools memory).msgIov + 16 * k)).InPool pools
  bytes_eq : memory.denoted pools (entry.msghdr pools memory).msgIov
    source.iov.length = source.iov.flatten
  result_eq : result = source.iov.flatten.length

/-! ## The loop over the iovecs -/

namespace McachedMemory

variable {pools : PoolAddresses} {memory before after : McachedMemory}
  {blocks : List (List UInt8)} {block : List UInt8} {start : ℕ}

theorem iovecAt_iovec (n k : ℕ) :
    memory.iovecAt pools (pools.iovec n + 16 * k) =
      memory.iovpool (n + k) := by
  unfold iovecAt PoolAddresses.iovec
  congr 1
  omega

theorem msghdrAt_msghdr (n : ℕ) :
    memory.msghdrAt pools (pools.msghdr n) = memory.msgpool n := by
  unfold msghdrAt PoolAddresses.msghdr
  congr 1
  omega

theorem and_iovMask (n : ℕ) : n &&& iovMask = n % maxPoolIovSize :=
  Nat.and_two_pow_sub_one_eq_mod n 10

theorem and_msgMask (n : ℕ) : n &&& msgMask = n % maxPoolMsgSize :=
  Nat.and_two_pow_sub_one_eq_mod n 10

/-- The loop has placed the blocks one behind the other from `start` on, and
described them by the next iovecs. -/
structure PlacedAt (pools : PoolAddresses) (before : McachedMemory)
    (blocks : List (List UInt8)) (start : ℕ)
    (after : McachedMemory) : Prop where
  mpool_eq : after.mpool = memcpy before.mpool start blocks.flatten
  poolOffset_eq : before.poolOffset = start →
    after.poolOffset = start + blocks.flatten.length
  iovOffset_eq : after.iovOffset = before.iovOffset + blocks.length
  kept : ∀ n < before.iovOffset, after.iovpool n = before.iovpool n
  inside : ∀ k < blocks.length,
    (after.iovpool (before.iovOffset + k)).InPool pools
  reads : ∀ mpool,
    ((List.range blocks.length).flatMap fun k =>
      (after.iovpool (before.iovOffset + k)).bytes pools mpool) =
        readBytes mpool start blocks.flatten.length

theorem placedAt_nil : PlacedAt pools before [] start before where
  mpool_eq := by simp
  poolOffset_eq := by simp
  iovOffset_eq := rfl
  kept := fun _ _ => rfl
  inside := by simp
  reads := by simp

def pushed (pools : PoolAddresses) (before : McachedMemory) (start : ℕ)
    (block : List UInt8) : McachedMemory :=
  { before with
    mpool := memcpy before.mpool start block
    iovpool := Function.update before.iovpool before.iovOffset
      ⟨pools.mpool + start, block.length⟩
    iovOffset := before.iovOffset + 1
    poolOffset := start + block.length }

theorem gather_eq {result : ℤ}
    (hslot : before.iovOffset < maxPoolIovSize)
    (hplace : BumpPool.place maxPoolSize before.poolOffset block.length =
      start) :
    gather pools (before, result) block =
      (before.pushed pools start block, result + block.length) := by
  have hmask : before.iovOffset &&& iovMask = before.iovOffset := by
    rw [and_iovMask, Nat.mod_eq_of_lt hslot]
  simp only [gather, hmask, hplace, pushed]

theorem PlacedAt.cons (hfits : start + block.length ≤ maxPoolSize)
    (hrest : PlacedAt pools (before.pushed pools start block) blocks
      (start + block.length) after) :
    PlacedAt pools before (block :: blocks) start after := by
  have hnext : (before.pushed pools start block).iovOffset =
      before.iovOffset + 1 := rfl
  have hfirst : after.iovpool before.iovOffset =
      ⟨pools.mpool + start, block.length⟩ := by
    rw [hrest.kept _ (Nat.lt_succ_self _)]
    exact Function.update_self _ _ _
  have hshift : ∀ k : ℕ, before.iovOffset + (k + 1) =
      (before.pushed pools start block).iovOffset + k := by
    intro k
    omega
  constructor
  · rw [hrest.mpool_eq, List.flatten_cons]
    exact memcpy_append _
  · intro _
    rw [hrest.poolOffset_eq rfl, List.flatten_cons, List.length_append,
      Nat.add_assoc]
  · rw [hrest.iovOffset_eq, List.length_cons, hshift]
  · intro n hn
    rw [hrest.kept n (Nat.lt_succ_of_lt hn)]
    exact Function.update_of_ne (Nat.ne_of_lt hn) _ _
  · intro k hk
    cases k with
    | zero =>
        rw [Nat.add_zero, hfirst]
        constructor
        · exact Int.le_add_of_nonneg_right (Int.natCast_nonneg start)
        · change pools.mpool + start + block.length ≤ _
          omega
    | succ k =>
        rw [hshift]
        exact hrest.inside k (Nat.lt_of_succ_lt_succ hk)
  · intro mpool
    rw [List.length_cons, List.range_succ_eq_map, List.flatMap_cons,
      List.flatMap_map, Nat.add_zero, hfirst, List.flatten_cons,
      List.length_append, readBytes_add, ← hrest.reads mpool]
    simp only [Nat.succ_eq_add_one, hshift]
    congr 1
    simp [Iovec.bytes]

theorem placedAt_of_fits {result : ℤ}
    (hslots : before.iovOffset + blocks.length ≤ maxPoolIovSize)
    (hfits : before.poolOffset + blocks.flatten.length ≤ maxPoolSize) :
    PlacedAt pools before blocks before.poolOffset
      (blocks.foldl (gather pools) (before, result)).1 := by
  induction blocks generalizing before result with
  | nil => exact placedAt_nil
  | cons block rest ih =>
      rw [List.length_cons] at hslots
      rw [List.flatten_cons, List.length_append] at hfits
      have hslot : before.iovOffset < maxPoolIovSize := by omega
      have hplace : BumpPool.place maxPoolSize before.poolOffset
          block.length = before.poolOffset :=
        BumpPool.place_of_fits (by omega)
      have hnext : (before.pushed pools before.poolOffset
          block).poolOffset = before.poolOffset + block.length := rfl
      have hnextIov : (before.pushed pools before.poolOffset
          block).iovOffset = before.iovOffset + 1 := rfl
      rw [List.foldl_cons, gather_eq hslot hplace]
      exact PlacedAt.cons (by omega) (ih (by omega) (by omega))

theorem PlacedAt.append {first rest : List (List UInt8)}
    {middle : McachedMemory} {restart : ℕ}
    (hfirst : PlacedAt pools before first start middle)
    (hrest : PlacedAt pools middle rest restart after) :
    (∀ k < first.length + rest.length,
      (after.iovpool (before.iovOffset + k)).InPool pools) ∧
    ∀ mpool,
      ((List.range (first.length + rest.length)).flatMap fun k =>
        (after.iovpool (before.iovOffset + k)).bytes pools mpool) =
          readBytes mpool start first.flatten.length ++
            readBytes mpool restart rest.flatten.length := by
  have hearly : ∀ k < first.length,
      after.iovpool (before.iovOffset + k) =
        middle.iovpool (before.iovOffset + k) := by
    intro k hk
    apply hrest.kept
    rw [hfirst.iovOffset_eq]
    omega
  have hlate : ∀ k, before.iovOffset + (first.length + k) =
      middle.iovOffset + k := by
    intro k
    rw [hfirst.iovOffset_eq, Nat.add_assoc]
  constructor
  · intro k hk
    rcases Nat.lt_or_ge k first.length with hlt | hge
    · rw [hearly k hlt]
      exact hfirst.inside k hlt
    · obtain ⟨m, rfl⟩ := Nat.exists_eq_add_of_le hge
      rw [hlate]
      exact hrest.inside m (by omega)
  · intro mpool
    rw [List.range_add, List.flatMap_append, List.flatMap_map,
      ← hfirst.reads mpool, ← hrest.reads mpool]
    congr 1
    · apply List.flatMap_congr
      intro k hmem
      rw [hearly k (List.mem_range.mp hmem)]
    · simp only [hlate]

/-- A block that passes the end of the pool is placed as from offset `0`. -/
theorem gather_of_passes {result : ℤ}
    (hpasses : maxPoolSize < before.poolOffset + block.length)
    (hblock : block.length ≤ maxPoolSize) :
    gather pools (before, result) block =
      gather pools ({ before with poolOffset := 0 }, result) block := by
  have hover : BumpPool.place maxPoolSize before.poolOffset block.length =
      0 :=
    BumpPool.place_of_passes hpasses
  have hstart : BumpPool.place maxPoolSize 0 block.length = 0 :=
    BumpPool.place_of_fits (by omega)
  simp only [gather, hover, hstart]

theorem placedAt_of_passes {result : ℤ}
    (hslots : before.iovOffset + (block :: blocks).length ≤
      maxPoolIovSize)
    (hpasses : maxPoolSize < before.poolOffset + block.length)
    (hfits : (block :: blocks).flatten.length ≤ maxPoolSize) :
    PlacedAt pools before (block :: blocks) 0
      ((block :: blocks).foldl (gather pools) (before, result)).1 := by
  have hblock : block.length ≤ maxPoolSize := by
    rw [List.flatten_cons, List.length_append] at hfits
    omega
  have hover : PlacedAt pools { before with poolOffset := 0 }
      (block :: blocks) 0
      ((block :: blocks).foldl (gather pools)
        ({ before with poolOffset := 0 }, result)).1 :=
    placedAt_of_fits hslots (by simpa using hfits)
  rw [List.foldl_cons, ← gather_of_passes hpasses hblock,
    ← List.foldl_cons] at hover
  exact ⟨hover.mpool_eq, fun _ => hover.poolOffset_eq rfl,
    hover.iovOffset_eq, hover.kept, hover.inside, hover.reads⟩

theorem foldl_gather_result (result : ℤ) :
    (blocks.foldl (gather pools) (before, result)).2 =
      result + blocks.flatten.length := by
  induction blocks generalizing before result with
  | nil => simp
  | cons block rest ih =>
      rw [List.foldl_cons, List.flatten_cons, List.length_append]
      refine (ih (result + block.length)).trans ?_
      push_cast
      ring

theorem foldl_gather_iovOffset {result : ℤ} :
    (blocks.foldl (gather pools) (before, result)).1.iovOffset %
        maxPoolIovSize =
      (before.iovOffset + blocks.length) % maxPoolIovSize := by
  induction blocks generalizing before result with
  | nil => rfl
  | cons block rest ih =>
      have hnext : (gather pools (before, result) block).1.iovOffset =
          before.iovOffset % maxPoolIovSize + 1 := by
        simp only [gather, and_iovMask]
      have hrest : ((block :: rest).foldl (gather pools)
          (before, result)).1.iovOffset % maxPoolIovSize =
            ((gather pools (before, result) block).1.iovOffset +
              rest.length) % maxPoolIovSize :=
        ih
      rw [hrest, hnext, List.length_cons, Nat.add_assoc,
        Nat.mod_add_mod, Nat.add_comm 1]

theorem foldl_gather_iovpool {result : ℤ} {n : ℕ}
    (hmem : n ∉ CircularSlots.indices maxPoolIovSize before.iovOffset
      blocks.length) :
    (blocks.foldl (gather pools) (before, result)).1.iovpool n =
      before.iovpool n := by
  induction blocks generalizing before result with
  | nil => rfl
  | cons block rest ih =>
      have hfirst : n ≠ before.iovOffset % maxPoolIovSize := by
        rintro rfl
        exact hmem (CircularSlots.mem_indices.mpr
          ⟨0, Nat.succ_pos _, rfl⟩)
      have hnext : (gather pools (before, result) block).1.iovpool n =
          before.iovpool n := by
        simp only [gather, and_iovMask]
        exact Function.update_of_ne hfirst _ _
      rw [List.foldl_cons, ← hnext]
      apply ih
      intro hlater
      obtain ⟨k, hk, hequal⟩ := CircularSlots.mem_indices.mp hlater
      apply hmem
      refine CircularSlots.mem_indices.mpr
        ⟨k + 1, Nat.succ_lt_succ hk, ?_⟩
      rw [← hequal]
      simp only [and_iovMask]
      rw [Nat.add_assoc (_ % _), Nat.mod_add_mod, Nat.add_comm 1]

/-! ## A whole message -/

def fitting (memory : McachedMemory) (blocks : List (List UInt8)) : ℕ :=
  BumpPool.fitting maxPoolSize memory.poolOffset (blocks.map List.length)

theorem flatten_take_length (n : ℕ) :
    (blocks.take n).flatten.length =
      ((blocks.map List.length).take n).sum := by
  rw [List.length_flatten, List.map_take]

theorem flatten_drop_length (n : ℕ) :
    (blocks.drop n).flatten.length =
      ((blocks.map List.length).drop n).sum := by
  rw [List.length_flatten, List.map_drop]

theorem fitting_fits (hpos : 0 < before.fitting blocks) :
    before.poolOffset +
      (blocks.take (before.fitting blocks)).flatten.length ≤
        maxPoolSize := by
  rw [flatten_take_length]
  exact BumpPool.sum_take_fitting (BumpPool.offset_le_of_fitting hpos)

/-- The blocks that fit lie behind each other from the current offset on, and
the others from the beginning of the pool. -/
theorem placedAt_fitting (pools : PoolAddresses)
    (before : McachedMemory) (result : ℤ)
    (hslots : before.iovOffset + blocks.length ≤ maxPoolIovSize)
    (htotal : blocks.flatten.length ≤ maxPoolSize) :
    ∃ middle,
      PlacedAt pools before (blocks.take (before.fitting blocks))
          before.poolOffset middle ∧
        PlacedAt pools middle (blocks.drop (before.fitting blocks)) 0
          (blocks.foldl (gather pools) (before, result)).1 := by
  have hsplit := List.take_append_drop (before.fitting blocks) blocks
  have hlength := congrArg List.length hsplit
  have hflatten := congrArg (fun row => row.flatten.length) hsplit
  simp only [List.length_append, List.flatten_append] at hlength hflatten
  have hfirst : PlacedAt pools before
      (blocks.take (before.fitting blocks)) before.poolOffset
      ((blocks.take (before.fitting blocks)).foldl (gather pools)
        (before, result)).1 := by
    rcases Nat.eq_zero_or_pos (before.fitting blocks) with hzero | hpos
    · rw [hzero]
      exact placedAt_nil
    · exact placedAt_of_fits (by omega) (fitting_fits hpos)
  refine ⟨_, hfirst, ?_⟩
  have hfold : blocks.foldl (gather pools) (before, result) =
      (blocks.drop (before.fitting blocks)).foldl (gather pools)
        ((blocks.take (before.fitting blocks)).foldl (gather pools)
          (before, result)) := by
    rw [← List.foldl_append, hsplit]
  rw [hfold]
  cases hdrop : blocks.drop (before.fitting blocks) with
  | nil => exact placedAt_nil
  | cons block rest =>
      rw [hdrop] at hlength hflatten
      have hcounts : (blocks.map List.length).drop
          (before.fitting blocks) =
            block.length :: rest.map List.length := by
        rw [← List.map_drop, hdrop]
        rfl
      apply placedAt_of_passes
      · rw [hfirst.iovOffset_eq]
        omega
      · rw [hfirst.poolOffset_eq rfl, flatten_take_length]
        exact BumpPool.passes_of_drop_fitting hcounts
      · omega

end McachedMemory

/-! ## The queued entry -/

section QueuedEntry

open McachedMemory

variable {arch : Architecture} {pools : PoolAddresses}
  {memory : McachedMemory} {source : McachedCall}

theorem toInt_of_le {n : ℕ} (hn : n ≤ maxPoolIovSize) :
    toInt n = n := by
  unfold maxPoolIovSize at hn
  unfold toInt
  rw [BitVec.toInt_ofInt, Int.bmod_def]
  omega

def McachedMemory.masked (memory : McachedMemory) : McachedMemory :=
  { memory with iovOffset := memory.iovOffset % maxPoolIovSize }

theorem gatherAll_eq (blocks : List (List UInt8)) :
    memory.gatherAll pools blocks =
      blocks.foldl (gather pools) (memory.masked, 0) := by
  unfold gatherAll McachedMemory.masked
  rw [and_iovMask]

theorem sendmsg_fst :
    (memory.sendmsg pools source).1 =
      memory.copyMsghdr pools source
        (memory.gatherAll pools
          (source.iov.take (toInt source.iov.length).toNat)).1 :=
  rfl

theorem sendmsg_snd :
    (memory.sendmsg pools source).2 =
      (memory.gatherAll pools
        (source.iov.take (toInt source.iov.length).toNat)).2 :=
  rfl

theorem take_of_short (hshort : source.iov.length ≤ maxPoolIovSize) :
    source.iov.take (toInt source.iov.length).toNat = source.iov := by
  rw [toInt_of_le hshort, Int.toNat_natCast, List.take_length]

theorem msghdr_sendmsgEntry (sockfd flags : ℤ) (n : ℕ) :
    (sendmsgEntry arch sockfd (pools.msghdr n) flags).msghdr pools
      memory = memory.msgpool n :=
  msghdrAt_msghdr n

theorem sendmsg_msgpool_self :
    (memory.sendmsg pools source).1.msgpool
        (memory.msgOffset &&& msgMask) =
      { msgName := 0
        msgNamelen := 0
        msgIov := pools.iovec (memory.iovOffset % maxPoolIovSize)
        msgIovlen := (toInt source.iov.length % 2 ^ 64).toNat
        msgControl := 0
        msgControllen := 0
        msgFlags := source.msgFlags } := by
  rw [sendmsg_fst, copyMsghdr, ← and_iovMask]
  exact Function.update_self _ _ _

/-! ## Which elements a call writes -/

/-- The number of iovecs that the loop copies. -/
def McachedCall.iovlen (source : McachedCall) : ℕ :=
  (toInt source.iov.length).toNat

theorem McachedCall.iovlen_le (source : McachedCall) :
    source.iovlen ≤ source.iov.length := by
  unfold McachedCall.iovlen toInt
  rw [BitVec.toInt_ofInt, Int.bmod_def]
  split <;> omega

theorem McachedCall.length_take (source : McachedCall) :
    (source.iov.take (toInt source.iov.length).toNat).length =
      source.iovlen :=
  List.length_take_of_le source.iovlen_le

theorem sendmsg_iovOffset :
    (memory.sendmsg pools source).1.iovOffset % maxPoolIovSize =
      (memory.iovOffset + source.iovlen) % maxPoolIovSize := by
  have hloop : ∀ blocks : List (List UInt8),
      (memory.copyMsghdr pools source
          (memory.gatherAll pools blocks).1).iovOffset % maxPoolIovSize =
        (memory.iovOffset + blocks.length) % maxPoolIovSize := by
    intro blocks
    rw [gatherAll_eq]
    refine foldl_gather_iovOffset.trans ?_
    exact Nat.mod_add_mod _ _ _
  rw [sendmsg_fst, hloop, source.length_take]

theorem sendmsg_msgOffset :
    (memory.sendmsg pools source).1.msgOffset % maxPoolMsgSize =
      (memory.msgOffset + 1) % maxPoolMsgSize := by
  rw [sendmsg_fst, copyMsghdr, and_msgMask, Nat.mod_add_mod]

theorem sendmsg_msgpool_of_ne {n : ℕ}
    (hne : n ≠ memory.msgOffset % maxPoolMsgSize) :
    (memory.sendmsg pools source).1.msgpool n = memory.msgpool n := by
  rw [← and_msgMask] at hne
  rw [sendmsg_fst, copyMsghdr]
  exact Function.update_of_ne hne _ _

theorem sendmsg_iovpool_of_not_mem {n : ℕ}
    (hmem : n ∉ CircularSlots.indices maxPoolIovSize memory.iovOffset
      source.iovlen) :
    (memory.sendmsg pools source).1.iovpool n = memory.iovpool n := by
  have hloop : ∀ blocks : List (List UInt8),
      n ∉ CircularSlots.indices maxPoolIovSize memory.iovOffset
          blocks.length →
        (memory.copyMsghdr pools source
          (memory.gatherAll pools blocks).1).iovpool n =
            memory.iovpool n := by
    intro blocks hblocks
    rw [gatherAll_eq]
    apply foldl_gather_iovpool
    rw [McachedMemory.masked,
      CircularSlots.indices_congr (Nat.mod_mod memory.iovOffset _)]
    exact hblocks
  rw [sendmsg_fst]
  apply hloop
  rw [source.length_take]
  exact hmem

theorem denoted_sendmsg (pools : PoolAddresses)
    (hslots : memory.iovOffset % maxPoolIovSize + source.iov.length ≤
      maxPoolIovSize)
    (htotal : source.iov.flatten.length ≤ maxPoolSize) :
    (memory.sendmsg pools source).1.mpool =
        memcpy
          (memcpy memory.mpool memory.poolOffset
            (source.iov.take (memory.fitting source.iov)).flatten)
          0 (source.iov.drop (memory.fitting source.iov)).flatten ∧
      (∀ k < source.iov.length,
        ((memory.sendmsg pools source).1.iovecAt pools
          (pools.iovec (memory.iovOffset % maxPoolIovSize) +
            16 * k)).InPool pools) ∧
      (memory.sendmsg pools source).1.denoted pools
          (pools.iovec (memory.iovOffset % maxPoolIovSize))
          source.iov.length =
        readBytes (memory.sendmsg pools source).1.mpool memory.poolOffset
            (source.iov.take (memory.fitting source.iov)).flatten.length ++
          readBytes (memory.sendmsg pools source).1.mpool 0
            (source.iov.drop
              (memory.fitting source.iov)).flatten.length := by
  have hshort : source.iov.length ≤ maxPoolIovSize := by omega
  have hmpool : (memory.sendmsg pools source).1.mpool =
      (source.iov.foldl (gather pools) (memory.masked, 0)).1.mpool := by
    rw [sendmsg_fst, take_of_short hshort, gatherAll_eq, copyMsghdr]
  have hiovpool : (memory.sendmsg pools source).1.iovpool =
      (source.iov.foldl (gather pools) (memory.masked, 0)).1.iovpool := by
    rw [sendmsg_fst, take_of_short hshort, gatherAll_eq, copyMsghdr]
  obtain ⟨middle, hfirst, hrest⟩ :=
    placedAt_fitting pools memory.masked 0 hslots htotal
  obtain ⟨hinside, hreads⟩ := hfirst.append hrest
  have hlength := congrArg List.length
    (List.take_append_drop (memory.masked.fitting source.iov) source.iov)
  rw [List.length_append] at hlength
  rw [hlength] at hinside hreads
  refine ⟨?_, ?_, ?_⟩
  · rw [hmpool, hrest.mpool_eq, hfirst.mpool_eq]
    rfl
  · intro k hk
    rw [iovecAt_iovec, hiovpool]
    exact hinside k hk
  · unfold denoted
    simp only [iovecAt_iovec, hiovpool]
    exact hreads _

/-! ## When a message is gathered -/

/-- The bytes behind the restart of the pool end before those in front of it
begin. -/
def RestartsClear (offset : ℕ) (counts : List ℕ) : Prop :=
  (counts.take (BumpPool.fitting maxPoolSize offset counts)).sum = 0 ∨
    (counts.drop (BumpPool.fitting maxPoolSize offset counts)).sum ≤
      offset

instance (offset : ℕ) (counts : List ℕ) :
    Decidable (RestartsClear offset counts) :=
  inferInstanceAs (Decidable (_ ∨ _))

theorem gathered_of_clear (sockfd flags : ℤ)
    (hslots : memory.iovOffset % maxPoolIovSize + source.iov.length ≤
      maxPoolIovSize)
    (htotal : source.iov.flatten.length ≤ maxPoolSize)
    (hclear : RestartsClear memory.poolOffset
      (source.iov.map List.length)) :
    Gathered pools source
      (sendmsgEntry arch sockfd
        (pools.msghdr (memory.msgOffset &&& msgMask)) flags)
      (memory.sendmsg pools source).1
      (memory.sendmsg pools source).2 := by
  have hshort : source.iov.length ≤ maxPoolIovSize := by omega
  obtain ⟨hmpool, hinside, hdenoted⟩ :=
    denoted_sendmsg pools hslots htotal
  constructor
  · rw [msghdr_sendmsgEntry, sendmsg_msgpool_self, toInt_of_le hshort]
    unfold maxPoolIovSize at hshort
    change ((source.iov.length : ℤ) % 2 ^ 64).toNat = _
    omega
  · intro k hk
    rw [msghdr_sendmsgEntry, sendmsg_msgpool_self]
    refine ⟨memory.iovOffset % maxPoolIovSize + k, by omega, ?_⟩
    simp only [PoolAddresses.iovec]
    push_cast
    ring
  · intro k hk
    rw [msghdr_sendmsgEntry, sendmsg_msgpool_self]
    exact hinside k hk
  · rw [msghdr_sendmsgEntry, sendmsg_msgpool_self, hdenoted, hmpool,
      readBytes_memcpy_self]
    have hfront : readBytes
        (memcpy (memcpy memory.mpool memory.poolOffset
            (source.iov.take (memory.fitting source.iov)).flatten)
          0 (source.iov.drop (memory.fitting source.iov)).flatten)
        memory.poolOffset
        (source.iov.take (memory.fitting source.iov)).flatten.length =
          (source.iov.take (memory.fitting source.iov)).flatten := by
      rcases hclear with hnone | hclear
      · have hempty :
            (source.iov.take (memory.fitting source.iov)).flatten = [] := by
          rw [← List.length_eq_zero_iff, flatten_take_length]
          exact hnone
        rw [hempty]
        rfl
      · rw [readBytes_memcpy_of_disjoint, readBytes_memcpy_self]
        right
        rw [Nat.zero_add, flatten_drop_length]
        exact hclear
    rw [hfront, ← List.flatten_append, List.take_append_drop]
  · rw [sendmsg_snd, take_of_short hshort, gatherAll_eq,
      foldl_gather_result, Int.zero_add]

theorem slots_of_gathered {sockfd flags result : ℤ}
    (hgathered : Gathered pools source
      (sendmsgEntry arch sockfd
        (pools.msghdr (memory.msgOffset &&& msgMask)) flags)
      (memory.sendmsg pools source).1 result) :
    memory.iovOffset % maxPoolIovSize + source.iov.length ≤
      maxPoolIovSize := by
  have hstart := Nat.mod_lt memory.iovOffset
    (show 0 < maxPoolIovSize from Nat.succ_pos 1023)
  rcases Nat.eq_zero_or_pos source.iov.length with hnone | hsome
  · omega
  · obtain ⟨slot, hslot, haddress⟩ :=
      hgathered.iovecs_inside (source.iov.length - 1) (by omega)
    rw [msghdr_sendmsgEntry, sendmsg_msgpool_self] at haddress
    simp only [PoolAddresses.iovec] at haddress
    omega

theorem front_of_gathered {sockfd flags result : ℤ}
    (htotal : source.iov.flatten.length ≤ maxPoolSize)
    (hgathered : Gathered pools source
      (sendmsgEntry arch sockfd
        (pools.msghdr (memory.msgOffset &&& msgMask)) flags)
      (memory.sendmsg pools source).1 result) :
    readBytes
        (memcpy
          (memcpy memory.mpool memory.poolOffset
            (source.iov.take (memory.fitting source.iov)).flatten)
          0 (source.iov.drop (memory.fitting source.iov)).flatten)
        memory.poolOffset
        (source.iov.take (memory.fitting source.iov)).flatten.length =
      (source.iov.take (memory.fitting source.iov)).flatten := by
  obtain ⟨hmpool, _, hdenoted⟩ :=
    denoted_sendmsg pools (slots_of_gathered hgathered) htotal
  have hbytes := hgathered.bytes_eq
  have hsplit : source.iov.flatten =
      (source.iov.take (memory.fitting source.iov)).flatten ++
        (source.iov.drop (memory.fitting source.iov)).flatten := by
    rw [← List.flatten_append, List.take_append_drop]
  rw [msghdr_sendmsgEntry, sendmsg_msgpool_self, hdenoted, hsplit,
    hmpool] at hbytes
  exact (List.append_inj hbytes readBytes_length).1

/-- A message without an address, control data or flags. -/
def message (sockfd : ℤ) (iov : List (List UInt8)) : McachedCall where
  sockfd := sockfd
  msgName := 0
  msgNamelen := 0
  iov := iov
  msgControl := 0
  msgControllen := 0
  msgFlags := 0
  flags := 0

/-- A message of the given lengths whose bytes in front of the restart differ
from those behind it. -/
def twoTone (split : ℕ) (counts : List ℕ) : McachedCall :=
  message 0 ((counts.take split).map (List.replicate · 0) ++
    (counts.drop split).map (List.replicate · 1))

theorem twoTone_lengths (split : ℕ) (counts : List ℕ) :
    (twoTone split counts).iov.map List.length = counts := by
  simp [twoTone, message, Function.comp_def]

theorem mem_flatten_replicate {counts : List ℕ} {value byte : UInt8}
    (hmem : byte ∈ (counts.map (List.replicate · value)).flatten) :
    byte = value := by
  simp only [List.mem_flatten, List.mem_map] at hmem
  obtain ⟨_, ⟨count, _, rfl⟩, hbyte⟩ := hmem
  exact List.eq_of_mem_replicate hbyte

theorem twoTone_front {split : ℕ} {counts : List ℕ} {byte : UInt8}
    (hsplit : split ≤ counts.length)
    (hmem : byte ∈ ((twoTone split counts).iov.take split).flatten) :
    byte = 0 := by
  have htake : (twoTone split counts).iov.take split =
      (counts.take split).map (List.replicate · 0) :=
    List.take_left' (by simpa using hsplit)
  rw [htake] at hmem
  exact mem_flatten_replicate hmem

theorem twoTone_behind {split : ℕ} {counts : List ℕ} {byte : UInt8}
    (hsplit : split ≤ counts.length)
    (hmem : byte ∈ ((twoTone split counts).iov.drop split).flatten) :
    byte = 1 := by
  have hdrop : (twoTone split counts).iov.drop split =
      (counts.drop split).map (List.replicate · 1) :=
    List.drop_left' (by simpa using hsplit)
  rw [hdrop] at hmem
  exact mem_flatten_replicate hmem

/-- The two-tone message shows a restart that is not clear: the first byte of
the message has been overwritten. -/
theorem restartsClear_of_gathered {counts : List ℕ}
    {sockfd flags result : ℤ} (htotal : counts.sum ≤ maxPoolSize)
    (hgathered : Gathered pools
      (twoTone (BumpPool.fitting maxPoolSize memory.poolOffset counts)
        counts)
      (sendmsgEntry arch sockfd
        (pools.msghdr (memory.msgOffset &&& msgMask)) flags)
      (memory.sendmsg pools
        (twoTone (BumpPool.fitting maxPoolSize memory.poolOffset counts)
          counts)).1 result) :
    RestartsClear memory.poolOffset counts := by
  by_contra hclash
  obtain ⟨hsome, hover⟩ := not_or.mp hclash
  generalize hsplit :
    BumpPool.fitting maxPoolSize memory.poolOffset counts = split at *
  have hle : split ≤ counts.length := hsplit ▸ BumpPool.fitting_le
  have hlengths := twoTone_lengths split counts
  have hfitting : memory.fitting (twoTone split counts).iov = split := by
    rw [McachedMemory.fitting, hlengths, hsplit]
  have hflat : (twoTone split counts).iov.flatten.length ≤
      maxPoolSize := by
    rw [List.length_flatten, hlengths]
    exact htotal
  have hfront := front_of_gathered hflat hgathered
  rw [hfitting] at hfront
  have hbefore : 0 <
      ((twoTone split counts).iov.take split).flatten.length := by
    rw [flatten_take_length, hlengths]
    exact Nat.pos_of_ne_zero hsome
  have hbehind : memory.poolOffset <
      ((twoTone split counts).iov.drop split).flatten.length := by
    rw [flatten_drop_length, hlengths]
    exact Nat.not_le.mp hover
  have hfirst := congrArg (fun bytes => bytes[0]?) hfront
  simp only [readBytes, List.getElem?_map, List.getElem?_range hbefore,
    List.getElem?_eq_getElem hbefore, Option.map_some, Nat.add_zero,
    Option.some.injEq] at hfirst
  have hover :
      memcpy
          (memcpy memory.mpool memory.poolOffset
            ((twoTone split counts).iov.take split).flatten)
          0 ((twoTone split counts).iov.drop split).flatten
          (0 + memory.poolOffset) =
        ((twoTone split counts).iov.drop split).flatten[
          memory.poolOffset] :=
    memcpy_inside hbehind
  rw [Nat.zero_add, hfirst] at hover
  have hzero := twoTone_front hle (List.getElem_mem hbefore)
  have hone := twoTone_behind hle (List.getElem_mem hbehind)
  rw [hzero, hone] at hover
  simp at hover

/-- A message of given lengths is gathered, whatever its bytes are, exactly
when its iovecs do not reach the end of `iovpool` and its bytes do not run
over their own beginning. -/
theorem gathered_iff (arch : Architecture) (pools : PoolAddresses)
    (cfg : TableConfig) (memory : McachedMemory) (idx : ℤ) (i j : ℕ)
    (counts : List ℕ) (htotal : counts.sum ≤ maxPoolSize) :
    (∀ source : McachedCall, source.iov.map List.length = counts →
      Gathered pools source
        ((mcached arch pools).prepare cfg source memory idx i j).1
        ((mcached arch pools).prepare cfg source memory idx i j).2
        (memory.sendmsg pools source).2) ↔
      memory.iovOffset % maxPoolIovSize + counts.length ≤
          maxPoolIovSize ∧
        RestartsClear memory.poolOffset counts := by
  constructor
  · intro hall
    have hgathered := hall
      (twoTone (BumpPool.fitting maxPoolSize memory.poolOffset counts)
        counts) (twoTone_lengths _ _)
    have hslots := slots_of_gathered hgathered
    rw [← List.length_map List.length, twoTone_lengths] at hslots
    exact ⟨hslots, restartsClear_of_gathered htotal hgathered⟩
  · rintro ⟨hslots, hclear⟩ source rfl
    rw [List.length_map] at hslots
    rw [← List.length_flatten] at htotal
    exact gathered_of_clear source.sockfd source.flags hslots htotal
      hclear

end QueuedEntry

/-! ## Concrete messages -/

def lowPools : PoolAddresses where
  mpool := 131072
  iovpool := 4096
  msgpool := 65536

/-- The pools as `init_worker` leaves them. -/
def emptyPools : McachedMemory where
  mpool := fun _ => 0
  poolOffset := 0
  iovpool := fun _ => ⟨0, 0⟩
  iovOffset := 0
  msgpool := fun _ => ⟨0, 0, 0, 0, 0, 0, 0⟩
  msgOffset := 0

def twoParts : McachedCall :=
  message 4 [[97], [98]]

theorem twoParts_gathered :
    Gathered lowPools twoParts
      ((mcached .x86 lowPools).prepare threeEntryTable twoParts emptyPools
        0 0 0).1
      ((mcached .x86 lowPools).prepare threeEntryTable twoParts emptyPools
        0 0 0).2
      (emptyPools.sendmsg lowPools twoParts).2 :=
  (gathered_iff .x86 lowPools threeEntryTable emptyPools 0 0 0 [1, 1]
    (by decide)).mpr ⟨by decide, by decide⟩ twoParts rfl

def manyParts : McachedCall :=
  message 4 (List.replicate 1023 [97])

theorem twoParts_behind_manyParts :
    ¬ Gathered lowPools twoParts
      ((mcached .x86 lowPools).prepare threeEntryTable twoParts
        (emptyPools.sendmsg lowPools manyParts).1 0 0 0).1
      ((mcached .x86 lowPools).prepare threeEntryTable twoParts
        (emptyPools.sendmsg lowPools manyParts).1 0 0 0).2
      ((emptyPools.sendmsg lowPools manyParts).1.sendmsg lowPools
        twoParts).2 := by
  intro hgathered
  have hslots := slots_of_gathered hgathered
  have hlength : manyParts.iov.length = 1023 := List.length_replicate
  rw [sendmsg_iovOffset, McachedCall.iovlen, hlength] at hslots
  exact absurd hslots (by decide)

end Saio
