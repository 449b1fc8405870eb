import Saio.UsesComplete
import Saio.BatchWalk
import Saio.OffsetCells
import Mathlib.Tactic

/-!
# Array bounds

The arrays of the library and of the module have fixed sizes, `CPU_NUM_LIMIT`
for everything that is kept per ring, `TABLE_LEN_LIMIT` tables of
`TABLE_ENT_LIMIT` entries, one page for the headers of a set, and a `short`
for the counter of a batch.  Nobody compares the configuration with them:
`init_config` and `sys_esca_init_config` take any seven numbers, and
`init_worker` turns away large ids but not negative ones.

For configurations within the limits, and ids from `0` to
`MAX_USR_WORKER - 1`, everything that is used as an index, as a divisor or as
the value of a counter stays in bounds in every run, with or without overrun
rings.
-/

namespace Saio

def IndexUse.InBounds : IndexUse → Prop
  | .ring _ k => 0 ≤ k ∧ k < cpuNumLimit
  | .header n => 0 ≤ n ∧ n * headerSize + headerSize ≤ pageSize
  | .table i => 0 ≤ i ∧ i < tableLenLimit
  | .entry j => 0 ≤ j ∧ j < tableEntLimit
  | .divisor value => value ≠ 0
  | .counter value => -2 ^ 15 ≤ value ∧ value < 2 ^ 15

instance : DecidablePred IndexUse.InBounds := fun use =>
  match use with
  | .ring _ _ | .header _ | .table _ | .entry _ | .counter _ =>
      inferInstanceAs (Decidable (_ ∧ _))
  | .divisor _ => inferInstanceAs (Decidable (_ ≠ _))

variable {κ μ : Type} {dep : Deployment κ μ} {access : FlagAccess}
  {sys next : System κ μ} {k : ℤ}

namespace System

/-- The wrapped calls are made on non-negative descriptors. -/
def NonNegativeCalls (dep : Deployment κ μ) (_ : System κ μ) :
    SystemAction κ → Prop
  | .call source => 0 ≤ dep.wrapper.descriptor source
  | _ => True

instance (dep : Deployment κ μ) (sys : System κ μ) :
    (action : SystemAction κ) →
      Decidable (sys.NonNegativeCalls dep action)
  | .call _ => inferInstanceAs (Decidable (_ ≤ _))
  | .batchStart | .batchFlush | .user | .worker _ _ _ => isTrue trivial

end System

/-! ## Rings stay in range -/

namespace Ring

variable {cfg : TableConfig} {ring moved : Ring}

/-- The slot a wrapped call has in hand. -/
def ProducerInRing (cfg : TableConfig) : ProducerPc → Prop
  | .idle => True
  | .written i j _ => cfg.InRing (i, j)
  | .advanced i j => cfg.InRing (i, j)

structure InRange (cfg : TableConfig) (ring : Ring) : Prop where
  tail : cfg.InRing ring.table.tail
  cursor : cfg.InRing ring.cursor
  producer : ProducerInRing cfg ring.producer
  counter : 0 ≤ ring.submitted ∧ ring.submitted < cfg.capacity

theorem sysEscaRegister_inRange (cfg : TableConfig)
    (memory : ℕ → ℕ → TableEntry) :
    (sysEscaRegister cfg memory).InRange cfg where
  tail := ⟨cfg.len_pos, cfg.entry_pos⟩
  cursor := ⟨cfg.len_pos, cfg.entry_pos⟩
  producer := trivial
  counter := ⟨le_rfl, Int.natCast_pos.mpr cfg.capacity_pos⟩

namespace InRange

/-- The size of a batch is below that of the ring. -/
theorem batchCount_lt (hrange : ring.InRange cfg) :
    0 ≤ batchCount cfg ring.i ring.j ring.table.tailTable
          ring.table.tailEntry ∧
      batchCount cfg ring.i ring.j ring.table.tailTable
          ring.table.tailEntry < cfg.capacity := by
  rw [batchCount_eq_distance hrange.cursor hrange.tail]
  exact ⟨CircularSlots.distance_nonneg hrange.cursor,
    CircularSlots.distance_lt hrange.cursor⟩

theorem afterStep (hrange : ring.InRange cfg)
    (hshort : cfg.capacity ≤ 32767) {action : RingAction}
    (hstep : ring.step cfg action = some moved) : moved.InRange cfg := by
  cases action with
  | write call =>
      obtain ⟨_, rfl⟩ := step_write hstep
      exact ⟨hrange.tail, hrange.cursor, hrange.tail, hrange.counter⟩
  | advance =>
      obtain ⟨i, j, call, hproducer, _, rfl⟩ := step_advance hstep
      have hslot := hrange.producer
      rw [hproducer] at hslot
      refine ⟨?_, hrange.cursor, hslot, hrange.counter⟩
      change cfg.InRing (ring.table.updateIndex cfg).tail
      rw [EscaTable.updateIndex_tail]
      exact CircularSlots.successor_inRing hrange.tail
  | storeBusy =>
      obtain ⟨i, j, _, rfl⟩ := step_storeBusy hstep
      exact ⟨hrange.tail, hrange.cursor, trivial, hrange.counter⟩
  | poll =>
      obtain ⟨_, rfl | ⟨_, rfl⟩⟩ := step_poll hstep
      · exact hrange
      · exact ⟨hrange.tail, hrange.cursor, hrange.producer,
          hrange.counter⟩
  | snapshot =>
      obtain ⟨_, rfl⟩ := step_snapshot hstep
      obtain ⟨hlow, hhigh⟩ := hrange.batchCount_lt
      refine ⟨hrange.tail, hrange.cursor, hrange.producer, ?_⟩
      change 0 ≤ toShort _ ∧ toShort _ < _
      rw [toShort_of_le hlow (by omega)]
      exact ⟨hlow, hhigh⟩
  | execute =>
      obtain ⟨_, hne, rfl⟩ := step_execute hstep
      obtain ⟨hlow, hhigh⟩ := hrange.counter
      refine ⟨hrange.tail, ?_, hrange.producer, ?_⟩
      · exact CircularSlots.successor_inRing hrange.cursor
      · change 0 ≤ toShort _ ∧ toShort _ < _
        rw [toShort_of_le (by omega) (by omega)]
        omega
  | publish =>
      obtain ⟨_, _, rfl⟩ := step_publish hstep
      exact ⟨hrange.tail, hrange.cursor, hrange.producer, hrange.counter⟩

end InRange

end Ring

/-! ## Indices stay in the set -/

/-- The ring that the library call in progress is at. -/
def UserPc.ring : UserPc κ → Option ℤ
  | .ready => none
  | .startTest j => some j
  | .startSet j => some j
  | .startSetLoaded j _ => some j
  | .wakeupTest j => some j
  | .wakeup j => some j
  | .startClear j => some j
  | .startClearLoaded j _ => some j
  | .advancing idx _ _ => some idx
  | .marking idx => some idx
  | .flushWait => none

def UserPc.InSet (dep : Deployment κ μ) (user : UserPc κ) : Prop :=
  ∀ k ∈ user.ring, dep.InSet k

theorem Deployment.startAt_inSet {j : ℤ} (hlow : dep.firstRing ≤ j) :
    (dep.startAt j).InSet dep := by
  unfold Deployment.startAt
  split
  next hhigh =>
    rintro k ⟨⟩
    exact ⟨hlow, hhigh⟩
  next => exact nofun

namespace System

theorem LibraryMove.user_inSet (hmove : LibraryMove dep access sys next)
    (huser : sys.user.InSet dep) : next.user.InSet dep := by
  have hnext : ∀ j ∈ sys.user.ring, (dep.startAt (j + 1)).InSet dep := by
    intro j hj
    obtain ⟨hlow, _⟩ := huser j hj
    exact dep.startAt_inSet (by omega)
  have hsame : ∀ user : UserPc κ, user.ring = sys.user.ring →
      user.InSet dep := by
    intro user hring k hk
    exact huser k (hring ▸ hk)
  cases hmove with
  | testTaken j hpc => exact hsame _ (by rw [hpc]; rfl)
  | testSkipped j hpc _ => exact hnext j (by rw [hpc]; rfl)
  | setWhole j hpc _ => exact hsame _ (by rw [hpc]; rfl)
  | setLoad j hpc _ => exact hsame _ (by rw [hpc]; rfl)
  | setStore j flags hpc => exact hsame _ (by rw [hpc]; rfl)
  | wakeupTaken j hpc => exact hsame _ (by rw [hpc]; rfl)
  | wakeupSkipped j hpc _ => exact hsame _ (by rw [hpc]; rfl)
  | wake j hpc => exact hsame _ (by rw [hpc]; rfl)
  | clearWhole j hpc _ => exact hnext j (by rw [hpc]; rfl)
  | clearLoad j hpc _ => exact hsame _ (by rw [hpc]; rfl)
  | clearStore j flags hpc => exact hnext j (by rw [hpc]; rfl)
  | flushed hpc => exact nofun

theorem call_user_inSet {source : κ}
    (hsource : 0 ≤ dep.wrapper.descriptor source)
    (huser : sys.user.InSet dep)
    (hcall : sys.call dep source = some next) :
    next.user.InSet dep := by
  rcases call_cases hcall with ⟨_, queued, _, rfl⟩ | ⟨_, rfl⟩
  · rintro k ⟨⟩
    exact dep.inSet_ringIndex hsource
  · exact huser

theorem step_user_inSet {action : SystemAction κ}
    (hcalls : sys.NonNegativeCalls dep action)
    (huser : sys.user.InSet dep)
    (hstep : sys.step dep access action = some next) :
    next.user.InSet dep := by
  cases action with
  | batchStart =>
      obtain ⟨_, rfl⟩ := step_batchStart hstep
      exact dep.startAt_inSet le_rfl
  | call source =>
      exact call_user_inSet hcalls huser (step_call hstep).2
  | batchFlush =>
      obtain ⟨_, rfl⟩ := step_batchFlush hstep
      unfold batchFlush
      split
      · exact huser
      · exact nofun
  | user =>
      rcases userStep_cases hstep with
        hmove | ⟨idx, source, entry, moved, hpc, _, rfl⟩ |
          ⟨idx, moved, _, _, rfl⟩
      · exact hmove.user_inSet huser
      · exact fun k hk => huser k (by rw [hpc]; exact hk)
      · exact nofun
  | worker k expired sysret =>
      rw [(workerStep_frame (step_worker hstep).2).user_eq]
      exact huser

/-- Every ring is in range, and every index of a ring is one of the set. -/
structure Placed (dep : Deployment κ μ) (sys : System κ μ) : Prop where
  rings : ∀ k, (sys.ring k).InRange dep.toTableConfig
  scans : sys.ScansFromFirst dep
  user : sys.user.InSet dep

theorem initWorker_placed (dep : Deployment κ μ)
    (pages : ℤ → ℕ → ℕ → TableEntry) (memory : μ) :
    (dep.initWorker pages memory).Placed dep where
  rings := fun k => Ring.sysEscaRegister_inRange dep.toTableConfig (pages k)
  scans := nofun
  user := nofun

theorem Placed.afterStep (hplaced : sys.Placed dep)
    (hshort : dep.capacity ≤ 32767) {action : SystemAction κ}
    (hcalls : sys.NonNegativeCalls dep action)
    (hstep : sys.step dep access action = some next) :
    next.Placed dep where
  rings := (step_effect hstep).ringwise
    (fun _ _ _ hrange hmoved => hrange.afterStep hshort hmoved)
    hplaced.rings
  scans := hplaced.scans.afterMove (step_notice hstep)
  user := step_user_inSet hcalls hplaced.user hstep

end System

/-! ## Within the limits -/

theorem header_inBounds {n : ℤ} (hlow : 0 ≤ n) (hhigh : n < 8) :
    (IndexUse.header n).InBounds := by
  simp only [IndexUse.InBounds, headerSize, tableLenLimit, pageSize]
  omega

namespace SetConfig.WithinLimits

variable (hlimits : dep.toSetConfig.WithinLimits) (hratio : dep.ratio ≤ 8)

include hlimits

theorem capacity_le_short : dep.capacity ≤ 32767 :=
  hlimits.capacity_le.trans (by decide)

theorem slotUses_inBounds {slot : ℕ × ℕ}
    (hslot : dep.toTableConfig.InRing slot) :
    ∀ use ∈ slotUses slot, use.InBounds := by
  obtain ⟨htable, hentry⟩ := hslot
  have hlen := hlimits.len_le
  have hent := hlimits.entry_le
  simp only [slotUses, List.forall_mem_cons, List.not_mem_nil,
    false_implies, implies_true, and_true, IndexUse.InBounds]
  omega

include hratio

theorem pointerUses_inBounds (hset : dep.InSet k) :
    ∀ use ∈ pointerUses dep.firstRing k, use.InBounds := by
  obtain ⟨hlow, hhigh⟩ := hset
  rw [pointerUses, List.forall_mem_cons, List.forall_mem_singleton]
  exact ⟨hlimits.ring_lt ⟨hlow, hhigh⟩,
    header_inBounds (by omega) (by omega)⟩

/-- One step of either party on a ring in range. -/
theorem ring_uses_inBounds {ring : Ring}
    (hrange : ring.InRange dep.toTableConfig) (hset : dep.InSet k)
    (action : RingAction) (hsome : action = .execute → ring.submitted ≠ 0) :
    ∀ use ∈ ring.uses dep.toTableConfig dep.firstRing k action,
      use.InBounds := by
  have hpointer := hlimits.pointerUses_inBounds hratio hset
  have hring := hlimits.ring_lt hset
  have hcapacity := hlimits.capacity_le_short
  have hcursor := hlimits.slotUses_inBounds hrange.cursor
  cases action with
  | write call =>
      exact List.forall_mem_append.mpr
        ⟨hpointer, hlimits.slotUses_inBounds hrange.tail⟩
  | advance => exact hpointer
  | storeBusy =>
      refine List.forall_mem_append.mpr ⟨hpointer, ?_⟩
      have hproducer := hrange.producer
      split
      next i j hadvanced =>
        rw [hadvanced] at hproducer
        exact hlimits.slotUses_inBounds hproducer
      next => simp
  | poll => exact List.forall_mem_append.mpr ⟨hpointer, hcursor⟩
  | snapshot =>
      refine List.forall_mem_append.mpr ⟨hpointer, ?_⟩
      have hbatch := hrange.batchCount_lt
      rw [List.forall_mem_cons, List.forall_mem_singleton]
      refine ⟨hring, ?_⟩
      simp only [IndexUse.InBounds]
      omega
  | execute =>
      refine List.forall_mem_append.mpr
        ⟨List.forall_mem_append.mpr ⟨hpointer, hcursor⟩, ?_⟩
      have hcounter := hrange.counter
      have hne := hsome rfl
      rw [List.forall_mem_cons, List.forall_mem_singleton]
      refine ⟨hring, ?_⟩
      simp only [IndexUse.InBounds]
      omega
  | publish =>
      refine List.forall_mem_append.mpr ⟨hpointer, ?_⟩
      rw [List.forall_mem_singleton]
      exact hring

theorem worker_uses_inBounds (hplaced : sys.Placed dep)
    (hset : dep.InSet k) :
    ∀ use ∈ (sys.workers k).uses dep k, use.InBounds := by
  have hring := hlimits.ring_lt hset
  have hmoves := hlimits.ring_uses_inBounds hratio (hplaced.rings k) hset
  have hpointer := hlimits.pointerUses_inBounds hratio hset
  have hpos := dep.ratio_pos
  unfold KernelWorker.uses
  cases hcontrol : (sys.workers k).control with
  | running =>
      simp only
      cases (sys.workers k).ring.worker with
      | poll => exact hmoves .poll (by simp)
      | snapshot => exact hmoves .snapshot (by simp)
      | drain =>
          simp only
          split
          next => exact hmoves .publish (by simp)
          next hne =>
            refine List.forall_mem_append.mpr
              ⟨hmoves .execute fun _ => hne, ?_⟩
            rw [List.forall_mem_singleton]
            simp only [IndexUse.InBounds]
            omega
  | scanning n =>
      obtain ⟨rfl, hle⟩ := hplaced.scans k n hcontrol
      simp only
      split
      next hlt =>
        rw [List.forall_mem_singleton]
        exact hlimits.ring_lt ⟨hle, hlt⟩
      next =>
        rw [List.forall_mem_singleton]
        exact hring
  | expired | finishing =>
      simp only [KernelWorker.idleUses, hcontrol]
      rw [List.forall_mem_singleton]
      exact hring
  | prepared | setLoaded | clearing | clearLoaded =>
      simp only [KernelWorker.idleUses, hcontrol]
      exact hpointer
  | advertised =>
      simp only [KernelWorker.idleUses, hcontrol]
      exact hmoves .poll (by simp)
  | sawEmpty | committed | blocked =>
      simp [KernelWorker.idleUses, hcontrol]

theorem user_uses_inBounds (hplaced : sys.Placed dep) :
    ∀ use ∈ sys.userUses dep, use.InBounds := by
  have hset : ∀ j ∈ sys.user.ring, dep.InSet j := hplaced.user
  have hpointer : ∀ j ∈ sys.user.ring,
      ∀ use ∈ pointerUses dep.firstRing j, use.InBounds :=
    fun j hj => hlimits.pointerUses_inBounds hratio (hset j hj)
  have hmoves : ∀ idx ∈ sys.user.ring, ∀ action, action ≠ .execute →
      ∀ use ∈ (sys.ring idx).uses dep.toTableConfig dep.firstRing idx
        action, use.InBounds :=
    fun idx hidx action hne =>
      hlimits.ring_uses_inBounds hratio (hplaced.rings idx)
        (hset idx hidx) action (absurd · hne)
  unfold System.userUses
  cases hpc : sys.user with
  | ready => simp
  | startTest j => exact hpointer j (by rw [hpc]; rfl)
  | startSet j => exact hpointer j (by rw [hpc]; rfl)
  | startSetLoaded j flags => exact hpointer j (by rw [hpc]; rfl)
  | wakeupTest j => exact hpointer j (by rw [hpc]; rfl)
  | wakeup j =>
      rw [List.forall_mem_singleton]
      exact hlimits.ring_lt (hset j (by rw [hpc]; rfl))
  | startClear j => exact hpointer j (by rw [hpc]; rfl)
  | startClearLoaded j flags => exact hpointer j (by rw [hpc]; rfl)
  | advancing idx source entry =>
      exact hmoves idx (by rw [hpc]; rfl) .advance (by simp)
  | marking idx =>
      exact hmoves idx (by rw [hpc]; rfl) .storeBusy (by simp)
  | flushWait =>
      rw [List.forall_mem_singleton]
      exact hlimits.ring_lt dep.inSet_firstRing

theorem call_uses_inBounds (hplaced : sys.Placed dep) {source : κ}
    (hsource : 0 ≤ dep.wrapper.descriptor source) :
    ∀ use ∈ sys.callUses dep source, use.InBounds := by
  have hpos := dep.ratio_pos
  have hset : dep.InSet (dep.route source) := dep.inSet_ringIndex hsource
  unfold System.callUses
  split
  next =>
    simp only [List.forall_mem_cons]
    refine ⟨?_, hlimits.ring_lt hset,
      hlimits.ring_uses_inBounds hratio (hplaced.rings _) hset _
        (by simp)⟩
    simp only [IndexUse.InBounds]
    omega
  next => simp

theorem uses_inBounds (hplaced : sys.Placed dep)
    {action : SystemAction κ}
    (hcalls : sys.NonNegativeCalls dep action) :
    ∀ use ∈ sys.uses dep action, use.InBounds := by
  cases action with
  | batchStart => simp [System.uses]
  | call source => exact hlimits.call_uses_inBounds hratio hplaced hcalls
  | batchFlush => simp [System.uses]
  | user => exact hlimits.user_uses_inBounds hratio hplaced
  | worker k expired sysret =>
      simp only [System.uses]
      split
      next hset => exact hlimits.worker_uses_inBounds hratio hplaced hset
      next => simp

/-- Along every run of a set within the limits. -/
theorem run_inBounds {pages : ℤ → ℕ → ℕ → TableEntry} {memory : μ}
    {actions : List (SystemAction κ)}
    (hcalls : Transition.StepsMeet (System.step dep access)
      (System.NonNegativeCalls dep) (dep.initWorker pages memory)
      actions) :
    Transition.StepsMeet (System.step dep access)
      (fun sys action => sys.ListsUses dep access action ∧
        ∀ use ∈ sys.uses dep action, use.InBounds)
      (dep.initWorker pages memory) actions := by
  refine Transition.stepsMeet_of_invariant ?_ ?_
    (System.initWorker_placed dep pages memory) hcalls
  · intro state action hplaced hcall
    exact ⟨state.listsUses dep access action,
      hlimits.uses_inBounds hratio hplaced hcall⟩
  · intro state action next hplaced hcall hstep
    exact hplaced.afterStep hlimits.capacity_le_short hcall hstep

end SetConfig.WithinLimits

/-- The configuration is within the sizes of the arrays: there are tables and
entries, there is a ring for every user worker, all rings have a place, and
the headers of a set fit into a page. -/
structure EscaConfig.WithinLimits (c : EscaConfig) : Prop where
  entry_pos : 1 ≤ c.maxTableEntry
  entry_le : c.maxTableEntry ≤ tableEntLimit
  len_pos : 1 ≤ c.maxTableLen
  len_le : c.maxTableLen ≤ tableLenLimit
  usr_pos : 1 ≤ c.maxUsrWorker
  ratio_pos : c.maxUsrWorker ≤ c.maxKerWorker
  rings_le :
    c.maxUsrWorker * c.maxKerWorker.tdiv c.maxUsrWorker ≤ cpuNumLimit
  headers_le : c.maxKerWorker.tdiv c.maxUsrWorker ≤ 8

/-- The set of user worker `idx` under an installed configuration. -/
structure Deployment.RunsUnder (dep : Deployment κ μ)
    (globals : ConfigGlobals) (idx : ℤ) : Prop where
  entry_eq : (dep.maxTableEntry : ℤ) = globals.maxTableEntry
  len_eq : (dep.maxTableLen : ℤ) = globals.maxTableLen
  ratio_eq : (dep.ratio : ℤ) = globals.ratio
  id_eq : (dep.thisWorkerId : ℤ) = idx

/-- What `init_config` makes of a configuration within the limits. -/
structure ConfigGlobals.Bounded (globals : ConfigGlobals) : Prop where
  entry_le : globals.maxTableEntry ≤ tableEntLimit
  len_le : globals.maxTableLen ≤ tableLenLimit
  ratio_eq : globals.ratio = globals.preload.ratio
  ratio_pos : 1 ≤ globals.ratio
  rings_le : globals.maxUsrWorker * globals.ratio ≤ cpuNumLimit
  headers_le : globals.ratio ≤ 8

theorem EscaConfig.WithinLimits.installed {c : EscaConfig}
    (hlimits : c.WithinLimits) :
    ∃ globals, initConfig c = some globals ∧
      sysEscaInitConfig c = some globals ∧ globals.Bounded := by
  have husr := hlimits.usr_pos
  have hdivisible : Divisible c.maxKerWorker c.maxUsrWorker :=
    ⟨by omega, by omega⟩
  refine ⟨_, if_pos hdivisible, if_pos hdivisible, ?_⟩
  refine ⟨hlimits.entry_le, hlimits.len_le, rfl, ?_, hlimits.rings_le,
    hlimits.headers_le⟩
  change 1 ≤ c.maxKerWorker.tdiv c.maxUsrWorker
  rw [Int.tdiv_eq_ediv_of_nonneg (by have := hlimits.ratio_pos; omega)]
  exact Int.le_ediv_of_mul_le (by omega)
    (by rw [Int.one_mul]; exact hlimits.ratio_pos)

namespace ConfigGlobals.Bounded

variable {globals : ConfigGlobals} {idx : ℤ}
  (hbounded : globals.Bounded)

include hbounded

theorem set_withinLimits (hhigh : idx < globals.maxUsrWorker)
    (hruns : dep.RunsUnder globals idx) :
    dep.toSetConfig.WithinLimits where
  entry_le := by
    have hentry := hbounded.entry_le
    have heq := hruns.entry_eq
    omega
  len_le := by
    have hlen := hbounded.len_le
    have heq := hruns.len_eq
    omega
  rings_le := by
    have hratio := hbounded.ratio_pos
    have hrings : (idx + 1) * globals.ratio ≤ cpuNumLimit :=
      (Int.mul_le_mul_of_nonneg_right (by omega) (by omega)).trans
        hbounded.rings_le
    rw [← hruns.id_eq, ← hruns.ratio_eq] at hrings
    exact_mod_cast hrings

theorem tableUses_inBounds :
    ∀ use ∈ globals.tableUses, use.InBounds := by
  have hlen := hbounded.len_le
  simp only [tableUses, List.forall_mem_map, List.mem_range,
    IndexUse.InBounds]
  intro j hj
  omega

theorem entryUses_inBounds :
    ∀ use ∈ globals.entryUses, use.InBounds := by
  have hlen := hbounded.len_le
  have hentry := hbounded.entry_le
  simp only [entryUses, slotUses, List.mem_flatMap, List.mem_range,
    List.mem_cons, List.not_mem_nil, or_false]
  rintro use ⟨j, hj, k, hk, rfl | rfl⟩
  · simp only [IndexUse.InBounds]
    omega
  · simp only [IndexUse.InBounds]
    omega

variable (hlow : 0 ≤ idx) (hhigh : idx < globals.maxUsrWorker)

include hlow hhigh

/-- The rings of an accepted id have a place in the arrays. -/
theorem ring_lt (hk : k ∈ globals.preload.rings idx) (array : RingArray) :
    (IndexUse.ring array k).InBounds := by
  rw [PreloadConfig.mem_rings, PreloadConfig.firstRing,
    ← hbounded.ratio_eq] at hk
  have hratio := hbounded.ratio_pos
  have hnonneg : 0 ≤ idx * globals.ratio :=
    Int.mul_nonneg hlow (by omega)
  have hset : (idx + 1) * globals.ratio ≤
      globals.maxUsrWorker * globals.ratio :=
    Int.mul_le_mul_of_nonneg_right (by omega) (by omega)
  have hlimit := hbounded.rings_le
  rw [Int.add_mul, Int.one_mul] at hset
  constructor
  · omega
  · omega

theorem pointer_inBounds (hk : k ∈ globals.preload.rings idx) :
    ∀ use ∈ pointerUses (idx * globals.ratio) k, use.InBounds := by
  have hring := hbounded.ring_lt hlow hhigh hk .table
  have hheaders := hbounded.headers_le
  rw [PreloadConfig.mem_rings, PreloadConfig.firstRing,
    ← hbounded.ratio_eq] at hk
  rw [pointerUses, List.forall_mem_cons, List.forall_mem_singleton]
  exact ⟨hring, header_inBounds (by omega) (by omega)⟩

theorem register_inBounds (hk : k ∈ globals.preload.rings idx) :
    ∀ use ∈ globals.sysEscaRegisterUses (k = idx * globals.ratio) k,
      use.InBounds := by
  have hring := hbounded.ring_lt hlow hhigh hk
  have hratio := hbounded.ratio_pos
  simp only [sysEscaRegisterUses, List.forall_mem_append,
    List.forall_mem_cons]
  refine ⟨?_, hring _, hring _, hring _, hring _, hring _,
    hbounded.tableUses_inBounds, hbounded.entryUses_inBounds, ?_⟩
  · unfold headerUses
    split
    next hfirst =>
      -- the header maps the rings from the first one of the set on
      intro use huse
      obtain ⟨n, hn, hmem⟩ := List.mem_flatMap.mp huse
      rw [List.mem_range] at hn
      rw [of_decide_eq_true hfirst] at hmem
      refine hbounded.pointer_inBounds hlow hhigh ?_ use hmem
      rw [PreloadConfig.mem_rings, PreloadConfig.firstRing,
        ← hbounded.ratio_eq]
      omega
    next =>
      rw [List.forall_mem_singleton]
      exact hring _
  · unfold workerUses
    split
    next =>
      rw [List.forall_mem_cons, List.forall_mem_singleton]
      refine ⟨?_, hring _⟩
      simp only [IndexUse.InBounds]
      omega
    next =>
      rw [List.forall_mem_singleton]
      exact hring _

theorem setup_inBounds (outcomes : SetupOutcomes)
    {rings : List ℤ} (hrings : rings ⊆ globals.preload.rings idx) :
    ∀ use ∈ globals.setupUses outcomes (idx * globals.ratio) rings,
      use.InBounds := by
  have hfirst : idx * globals.ratio ∈ globals.preload.rings idx := by
    have hratio := hbounded.ratio_pos
    rw [PreloadConfig.mem_rings, PreloadConfig.firstRing,
      ← hbounded.ratio_eq]
    omega
  induction rings with
  | nil => simp [setupUses]
  | cons i rest ih =>
      have hi := hrings List.mem_cons_self
      simp only [setupUses, List.forall_mem_append, List.forall_mem_cons]
      refine ⟨⟨hbounded.ring_lt hlow hhigh hfirst _,
        hbounded.pointer_inBounds hlow hhigh hi⟩, ?_⟩
      split
      next =>
        simp only [List.forall_mem_append]
        exact ⟨⟨hbounded.register_inBounds hlow hhigh hi,
          hbounded.tableUses_inBounds⟩,
          ih (List.subset_of_cons_subset hrings)⟩
      next => simp

theorem initWorker_inBounds (outcomes : SetupOutcomes) :
    ∀ use ∈ globals.initWorkerUses outcomes idx, use.InBounds := by
  unfold initWorkerUses
  split
  next => simp
  next =>
    exact hbounded.setup_inBounds hlow hhigh outcomes
      (List.Subset.refl _)

/-- After a set-up, failed or not, the library stays at the rings of the
accepted id. -/
theorem process_inBounds {proc : WorkerProcess}
    (hid : proc.thisWorkerId = idx) {op : SegmentOp}
    (hop : ∀ source, op = .call source → 0 ≤ source.descriptor) :
    ∀ use ∈ proc.uses globals.preload op, use.InBounds := by
  have hratio := hbounded.ratio_pos
  have htouched : ∀ k ∈ proc.touches globals.preload op,
      k ∈ globals.preload.rings idx := by
    cases op with
    | batchStart =>
        intro k hk
        rwa [WorkerProcess.touches, hid] at hk
    | call source =>
        intro k hk
        simp only [WorkerProcess.touches] at hk
        split at hk
        next =>
          rw [List.mem_singleton.mp hk, hid,
            PreloadConfig.ringIndex_mem_rings
              (hbounded.ratio_eq ▸ hratio)]
          exact Or.inl (hop source rfl)
        next => simp at hk
    | batchFlush => simp [WorkerProcess.touches]
  intro use huse
  obtain ⟨k, hk, hmem⟩ := List.mem_flatMap.mp huse
  rw [hid, PreloadConfig.firstRing, ← hbounded.ratio_eq] at hmem
  rcases List.mem_cons.mp hmem with rfl | hpointer
  · simp only [IndexUse.InBounds]
    omega
  · exact hbounded.pointer_inBounds hlow hhigh (htouched k hk) use hpointer

end ConfigGlobals.Bounded

/-- Segment operations on non-negative descriptors. -/
def WorkerProcess.NonNegative (_ : WorkerProcess) (op : SegmentOp) : Prop :=
  ∀ source, op = .call source → 0 ≤ source.descriptor

def WorkerProcess.HasId (idx : ℤ) (proc : WorkerProcess) : Prop :=
  proc.thisWorkerId = idx

theorem WorkerProcess.segmentStep_thisWorkerId {cfg : PreloadConfig}
    {proc after : WorkerProcess} {op : SegmentOp}
    (hstep : proc.segmentStep cfg op = some after) :
    after.thisWorkerId = proc.thisWorkerId := by
  cases op with
  | batchStart =>
      cases hstep
      rfl
  | call source =>
      simp only [segmentStep] at hstep
      split at hstep
      next =>
        split at hstep
        next => simp at hstep
        next =>
          cases hstep
          rfl
      next =>
        cases hstep
        rfl
  | batchFlush =>
      cases hstep
      rfl

/-- A configuration within the limits is installed without a division by zero,
and for ids from `0` to `MAX_USR_WORKER - 1` everything that is used as an
index, a divisor or a counter stays in bounds: during the set-up, in the
library after it, and in every run of the set.  No step of a run uses anything
that is not in its list. -/
theorem within_limits_in_bounds (κ μ : Type) (c : EscaConfig)
    (hlimits : c.WithinLimits) :
    ∃ globals, initConfig c = some globals ∧
      sysEscaInitConfig c = some globals ∧
      ∀ idx, 0 ≤ idx → idx < globals.maxUsrWorker →
        (∀ outcomes,
          (∀ use ∈ globals.initWorkerUses outcomes idx, use.InBounds) ∧
          ∀ (start proc : WorkerProcess) (k : ℤ),
            start.initWorker globals.preload outcomes idx = some proc →
            .ring .table k ∉ globals.initWorkerUses outcomes idx →
            proc.registered k = start.registered k) ∧
        (∀ (start proc : WorkerProcess) (outcomes : SetupOutcomes)
            (ops : List SegmentOp),
          start.initWorker globals.preload outcomes idx = some proc →
          Transition.StepsMeet
            (WorkerProcess.segmentStep globals.preload)
            WorkerProcess.NonNegative proc ops →
          Transition.StepsMeet
            (WorkerProcess.segmentStep globals.preload)
            (fun proc op => ∀ use ∈ proc.uses globals.preload op,
              use.InBounds) proc ops) ∧
        ∀ (dep : Deployment κ μ) (access : FlagAccess)
            (pages : ℤ → ℕ → ℕ → TableEntry) (memory : μ)
            (actions : List (SystemAction κ)),
          dep.RunsUnder globals idx →
          Transition.StepsMeet (System.step dep access)
            (System.NonNegativeCalls dep) (dep.initWorker pages memory)
            actions →
          Transition.StepsMeet (System.step dep access)
            (fun sys action => sys.ListsUses dep access action ∧
              ∀ use ∈ sys.uses dep action, use.InBounds)
            (dep.initWorker pages memory) actions := by
  obtain ⟨globals, huser, hkernel, hbounded⟩ := hlimits.installed
  refine ⟨globals, huser, hkernel, ?_⟩
  intro idx hlow hhigh
  refine ⟨?_, ?_, ?_⟩
  · intro outcomes
    refine ⟨hbounded.initWorker_inBounds hlow hhigh outcomes, ?_⟩
    intro start proc k hinit hnot
    exact ConfigGlobals.initWorker_of_unlisted hbounded.ratio_eq hinit hnot
  · intro start proc outcomes ops hinit hcalls
    have hstart : proc.HasId idx :=
      (WorkerProcess.initWorker_entered hinit).2
    refine Transition.stepsMeet_of_invariant ?_ ?_ hstart hcalls
    · intro state op hid hop
      exact hbounded.process_inBounds hlow hhigh hid hop
    · intro state op after hid _ hstep
      exact (WorkerProcess.segmentStep_thisWorkerId hstep).trans hid
  · intro dep access pages memory actions hruns hcalls
    have hratio : dep.ratio ≤ 8 := by
      have hheaders := hbounded.headers_le
      have heq := hruns.ratio_eq
      omega
    exact (hbounded.set_withinLimits hhigh hruns).run_inBounds hratio
      hcalls

/-- The set of the default configuration, with the lighttpd wrappers. -/
def defaultSet : Deployment LightyCall LightyMemory where
  maxTableEntry := 64
  maxTableLen := 1
  entry_pos := by decide
  len_pos := Nat.one_pos
  ratio := 1
  ratio_pos := Nat.one_pos
  thisWorkerId := 0
  wrapper := Saio.lighty .x86 4096

/-- One call in a segment, executed by the worker. -/
def oneCall : List (SystemAction LightyCall) :=
  SystemAction.segmentStart oneWorkerSet ++
    SystemAction.wholeCall (.shutdown 4 1) ++
    SystemAction.workerSteps 0 false 6 ++ [.batchFlush, .user]

theorem defaultConfig_in_bounds :
    defaultConfig.WithinLimits ∧
      (Transition.run (System.step defaultSet .atomic)
        (defaultSet.initWorker (fun _ => blankMemory) (fun _ => 0))
        oneCall).isSome = true ∧
      Transition.StepsMeet (System.step defaultSet .atomic)
        (fun sys action => sys.ListsUses defaultSet .atomic action ∧
          ∀ use ∈ sys.uses defaultSet action, use.InBounds)
        (defaultSet.initWorker (fun _ => blankMemory) (fun _ => 0))
        oneCall := by
  have hlimits : defaultConfig.WithinLimits := by
    constructor <;> decide
  obtain ⟨globals, hinstalled, _, hbounds⟩ :=
    within_limits_in_bounds LightyCall LightyMemory defaultConfig hlimits
  cases hinstalled
  have hruns := (hbounds 0 le_rfl (by decide)).2.2 defaultSet .atomic
    (fun _ => blankMemory) (fun _ => 0) oneCall ⟨rfl, rfl, rfl, rfl⟩
    (by decide)
  exact ⟨hlimits, rfl, hruns⟩

/-- Without the limits: a division by zero, a table beyond the last one, a
header beyond its page, and a ring in front of the first one. -/
theorem unchecked_config_out_of_bounds :
    initConfig { defaultConfig with maxUsrWorker := 0 } = none ∧
      (∃ globals,
        sysEscaInitConfig
            { defaultConfig with maxTableLen := 31, maxTableEntry := 1 } =
          some globals ∧
        .table 30 ∈
          globals.initWorkerUses WorkerProcess.nothingFails 0 ∧
        ¬ (IndexUse.table 30).InBounds) ∧
      (∃ globals,
        sysEscaInitConfig { defaultConfig with maxKerWorker := 9 } =
          some globals ∧
        .header 8 ∈
          globals.initWorkerUses WorkerProcess.nothingFails 0 ∧
        ¬ (IndexUse.header 8).InBounds) ∧
      ∃ globals, sysEscaInitConfig defaultConfig = some globals ∧
        (-1 : ℤ) < globals.maxUsrWorker ∧
        .ring .table (-1) ∈
          globals.initWorkerUses WorkerProcess.nothingFails (-1) ∧
        ¬ (IndexUse.ring .table (-1)).InBounds := by
  refine ⟨rfl, ⟨_, rfl, ?_, by decide⟩, ⟨_, rfl, ?_, by decide⟩, _, rfl,
    by decide, ?_, by decide⟩
  · decide
  · decide +kernel
  · decide

end Saio
