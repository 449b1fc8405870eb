import Saio.Transition
import Saio.Wrappers
import Mathlib.Tactic

/-!
# Setting up a user worker

`init_worker` stores its id, turns away ids from `MAX_USR_WORKER` on, and
registers the rings of its set one after the other.  It stops at the first
table that cannot be allocated, ignores the result of the registration, and
reports nothing.  `batch_start` and the wrappers go by the stored id alone.

This file follows which rings a process has registered and which ones its
later calls touch.  A wrapped call stays within the set of its worker exactly
for the descriptors with a non-negative remainder, and after a failed set-up
the calls pass through to the C library exactly as long as no segment is
opened.
-/

namespace Saio

/-- What `init_config` keeps of the configuration. -/
structure PreloadConfig where
  maxUsrWorker : ℤ
  maxCpuNum : ℤ

namespace PreloadConfig

def ratio (cfg : PreloadConfig) : ℤ :=
  cfg.maxCpuNum.tdiv cfg.maxUsrWorker

def firstRing (cfg : PreloadConfig) (id : ℤ) : ℤ :=
  id * cfg.ratio

/-- The rings over which `init_worker` and `batch_start` go. -/
def rings (cfg : PreloadConfig) (id : ℤ) : List ℤ :=
  (List.range cfg.ratio.toNat).map fun n : ℕ => cfg.firstRing id + n

/-- `this_worker_id * RATIO + (fd % RATIO)`. -/
def ringIndex (cfg : PreloadConfig) (id fd : ℤ) : ℤ :=
  cfg.firstRing id + fd.tmod cfg.ratio

variable {cfg : PreloadConfig} {id k fd : ℤ}

theorem rings_eq_range (cfg : PreloadConfig) (id : ℤ) :
    cfg.rings id =
      Int.range (cfg.firstRing id) (cfg.firstRing id + cfg.ratio) := by
  unfold rings Int.range
  rw [add_sub_cancel_left]

theorem mem_rings :
    k ∈ cfg.rings id ↔
      cfg.firstRing id ≤ k ∧ k < cfg.firstRing id + cfg.ratio := by
  rw [rings_eq_range, Int.mem_range_iff]

theorem rings_of_nonpos (hratio : cfg.ratio ≤ 0) : cfg.rings id = [] := by
  unfold rings
  rw [Int.toNat_of_nonpos hratio]
  rfl

/-- The sets of the system model are the rings of the workers. -/
theorem mem_rings_iff_inSet {κ μ : Type} (dep : Deployment κ μ)
    (hratio : cfg.ratio = dep.ratio) :
    k ∈ cfg.rings dep.thisWorkerId ↔ dep.InSet k := by
  rw [mem_rings]
  unfold firstRing Deployment.InSet Deployment.firstRing
  rw [hratio]

theorem ringIndex_eq {κ μ : Type} (dep : Deployment κ μ)
    (hratio : cfg.ratio = dep.ratio) :
    cfg.ringIndex dep.thisWorkerId fd = dep.ringIndex fd := by
  unfold ringIndex firstRing Deployment.ringIndex Deployment.firstRing
  rw [hratio]

end PreloadConfig

/-! ## The set that a call is queued on -/

inductive WrappedCall
  | ngx (call : NgxCall)
  | lighty (call : LightyCall)
  | redis (call : RedisCall)
  | echo (call : EchoCall)
  | mcached (call : McachedCall)

def WrappedCall.descriptor : WrappedCall → ℤ
  | .ngx call => call.descriptor
  | .lighty call => call.descriptor
  | .redis call => call.fd
  | .echo call => call.sockfd
  | .mcached call => call.sockfd

namespace PreloadConfig

variable {cfg : PreloadConfig} {fd : ℤ}

/-- The truncated remainder of the descriptor is an index into a set. -/
def StaysInSet (cfg : PreloadConfig) (call : WrappedCall) : Prop :=
  0 ≤ call.descriptor ∨ cfg.ratio ∣ call.descriptor

theorem tmod_nonneg_iff :
    0 ≤ fd.tmod cfg.ratio ↔ 0 ≤ fd ∨ cfg.ratio ∣ fd := by
  constructor
  · intro hnonneg
    by_cases hfd : 0 ≤ fd
    · exact Or.inl hfd
    · right
      have hnegated := Int.tmod_nonneg cfg.ratio (a := -fd) (by omega)
      rw [Int.neg_tmod] at hnegated
      exact Int.dvd_of_tmod_eq_zero (by omega)
  · rintro (hfd | hdvd)
    · exact Int.tmod_nonneg _ hfd
    · rw [Int.tmod_eq_zero_of_dvd hdvd]

theorem ringIndex_mem_rings (hratio : 1 ≤ cfg.ratio) (id fd : ℤ) :
    cfg.ringIndex id fd ∈ cfg.rings id ↔ 0 ≤ fd ∨ cfg.ratio ∣ fd := by
  have hlt := Int.tmod_lt_of_pos fd (show 0 < cfg.ratio by omega)
  rw [← tmod_nonneg_iff, mem_rings]
  unfold ringIndex
  omega

theorem rings_disjoint (hratio : 1 ≤ cfg.ratio) {first second k : ℤ}
    (hfirst : k ∈ cfg.rings first) (hsecond : k ∈ cfg.rings second) :
    first = second := by
  rw [mem_rings] at hfirst hsecond
  unfold firstRing at hfirst hsecond
  have hbelow : first * cfg.ratio < (second + 1) * cfg.ratio := by
    rw [Int.add_mul, Int.one_mul]
    omega
  have habove : second * cfg.ratio < (first + 1) * cfg.ratio := by
    rw [Int.add_mul, Int.one_mul]
    omega
  have hlt := lt_of_mul_lt_mul_right hbelow (by omega)
  have hgt := lt_of_mul_lt_mul_right habove (by omega)
  omega

/-- The rings that a sequence of in-segment calls of several workers
writes. -/
def written (cfg : PreloadConfig) (calls : List (ℤ × WrappedCall)) :
    List (ℤ × ℤ) :=
  calls.map fun call => (call.1, cfg.ringIndex call.1 call.2.descriptor)

/-- A call is queued within the set of its worker exactly if it stays in the
set, and such calls of two workers never meet on a ring. -/
theorem queued_in_set_iff (cfg : PreloadConfig) (hratio : 1 ≤ cfg.ratio) :
    (∀ (id : ℤ) (call : WrappedCall),
      (id * cfg.ratio ≤ cfg.ringIndex id call.descriptor ∧
        cfg.ringIndex id call.descriptor <
          id * cfg.ratio + cfg.ratio) ↔
        cfg.StaysInSet call) ∧
      ∀ calls : List (ℤ × WrappedCall),
        (∀ call ∈ calls, cfg.StaysInSet call.2) →
          ∀ first ∈ cfg.written calls, ∀ second ∈ cfg.written calls,
            first.1 ≠ second.1 → first.2 ≠ second.2 := by
  constructor
  · intro id call
    exact mem_rings.symm.trans (ringIndex_mem_rings hratio id _)
  · intro calls hstay first hfirst second hsecond hne hequal
    obtain ⟨firstCall, hmem, rfl⟩ := List.mem_map.mp hfirst
    obtain ⟨secondCall, hother, rfl⟩ := List.mem_map.mp hsecond
    have hown :=
      (ringIndex_mem_rings hratio firstCall.1 _).mpr
        (hstay firstCall hmem)
    have hshared :=
      (ringIndex_mem_rings hratio secondCall.1 _).mpr
        (hstay secondCall hother)
    change cfg.ringIndex _ _ = cfg.ringIndex _ _ at hequal
    rw [hequal] at hown
    exact hne (rings_disjoint hratio hown hshared)

def twoByTwo : PreloadConfig := ⟨2, 4⟩

theorem twoByTwo_separate :
    (2 ≤ twoByTwo.ringIndex 1 5 ∧ twoByTwo.ringIndex 1 5 < 4) ∧
      ∀ first ∈ twoByTwo.written
          [(0, .ngx (.close 5)), (1, .lighty (.shutdown 5 2))],
        ∀ second ∈ twoByTwo.written
          [(0, .ngx (.close 5)), (1, .lighty (.shutdown 5 2))],
          first.1 ≠ second.1 → first.2 ≠ second.2 := by
  have hset := queued_in_set_iff twoByTwo (by decide)
  refine ⟨(hset.1 1 (.ngx (.close 5))).mpr (Or.inl (by decide)),
    hset.2 _ ?_⟩
  intro call hmem
  simp only [List.mem_cons, List.not_mem_nil, or_false] at hmem
  rcases hmem with rfl | rfl
  · exact Or.inl (by decide)
  · exact Or.inl (by decide)

/-- The error value `-1` sends the second worker to a ring of the first. -/
theorem twoByTwo_close_strays :
    twoByTwo.ratio = 2 ∧
      twoByTwo.ringIndex 1 (WrappedCall.ngx (.close (-1))).descriptor =
        1 ∧
      1 ∉ twoByTwo.rings 1 ∧
      1 ∈ twoByTwo.rings 0 := by
  decide

end PreloadConfig

/-! ## Registration -/

/-- What the allocations and the registrations of an `init_worker` return. -/
structure SetupOutcomes where
  headerAllocated : Bool
  allocated : ℤ → Bool
  registers : ℤ → Bool

/-- A process that uses the library; `registered` are the rings whose header
and tables both sides know. -/
structure WorkerProcess where
  inSegment : Bool
  batchNum : ℕ
  thisWorkerId : ℤ
  registered : ℤ → Bool

inductive SegmentOp
  | batchStart
  | call (source : WrappedCall)
  | batchFlush

inductive LibraryOp
  | initWorker (idx : ℤ) (outcomes : SetupOutcomes)
  | segment (op : SegmentOp)

namespace WorkerProcess

variable {cfg : PreloadConfig} {outcomes : SetupOutcomes} {idx : ℤ}
  {start proc next : WorkerProcess}

def loaded : WorkerProcess where
  inSegment := false
  batchNum := 0
  thisWorkerId := 0
  registered := fun _ => false

/-- The registration of ring `i`.  With the first ring the whole set moves to
a new header page. -/
def registerRing (cfg : PreloadConfig) (outcomes : SetupOutcomes)
    (idx : ℤ) (registered : ℤ → Bool) (i : ℤ) : ℤ → Bool := fun k =>
  if k = i then outcomes.registers i
  else if i = cfg.firstRing idx ∧ outcomes.registers i ∧
      k ∈ cfg.rings idx then false
  else registered k

/-- The loop of `init_worker`: `table[i]` is set before the allocation, and
the result of the registration is not looked at. -/
def registerRings (cfg : PreloadConfig) (outcomes : SetupOutcomes)
    (idx : ℤ) : (ℤ → Bool) → List ℤ → ℤ → Bool
  | registered, [] => registered
  | registered, i :: rest =>
      if outcomes.allocated i then
        registerRings cfg outcomes idx
          (registerRing cfg outcomes idx registered i) rest
      else Function.update registered i false

/-- Without a header page the first registration does not return. -/
def initWorker (cfg : PreloadConfig) (outcomes : SetupOutcomes)
    (proc : WorkerProcess) (idx : ℤ) : Option WorkerProcess :=
  let entered :=
    { proc with inSegment := false, batchNum := 0, thisWorkerId := idx }
  if cfg.maxUsrWorker ≤ idx then some entered
  else if outcomes.headerAllocated = false ∧ 0 < cfg.ratio ∧
      outcomes.allocated (cfg.firstRing idx) then none
  else
    some { entered with
      registered :=
        registerRings cfg outcomes idx proc.registered (cfg.rings idx) }

/-- A wrapped call inside a segment divides by `RATIO`. -/
def segmentStep (cfg : PreloadConfig) (proc : WorkerProcess) :
    SegmentOp → Option WorkerProcess
  | .batchStart => some { proc with inSegment := true }
  | .call _ =>
      if proc.inSegment then
        if cfg.ratio = 0 then none
        else some { proc with batchNum := proc.batchNum + 1 }
      else some proc
  | .batchFlush => some { proc with inSegment := false, batchNum := 0 }

def step (cfg : PreloadConfig) (proc : WorkerProcess) :
    LibraryOp → Option WorkerProcess
  | .initWorker idx outcomes => proc.initWorker cfg outcomes idx
  | .segment op => proc.segmentStep cfg op

def touches (cfg : PreloadConfig) (proc : WorkerProcess) :
    SegmentOp → List ℤ
  | .batchStart => cfg.rings proc.thisWorkerId
  | .call source =>
      if proc.inSegment then
        [cfg.ringIndex proc.thisWorkerId source.descriptor]
      else []
  | .batchFlush => []

def TakesDirectPath (proc : WorkerProcess) : SegmentOp → Prop
  | .call _ => proc.inSegment = false
  | _ => True

def PassesThrough (cfg : PreloadConfig) (proc : WorkerProcess)
    (op : SegmentOp) : Prop :=
  (∀ k ∈ proc.touches cfg op, proc.registered k = true) ∧
    proc.TakesDirectPath op

end WorkerProcess

def SetupOutcomes.Fails (outcomes : SetupOutcomes)
    (cfg : PreloadConfig) (idx : ℤ) : Prop :=
  cfg.maxUsrWorker ≤ idx ∨
    ∃ i ∈ cfg.rings idx,
      outcomes.allocated i = false ∨ outcomes.registers i = false

def CallsOutside : Bool → List SegmentOp → Prop
  | _, [] => True
  | _, .batchStart :: rest => CallsOutside true rest
  | inSegment, .call _ :: rest =>
      inSegment = false ∧ CallsOutside inSegment rest
  | _, .batchFlush :: rest => CallsOutside false rest

namespace WorkerProcess

variable {cfg : PreloadConfig} {outcomes : SetupOutcomes} {idx : ℤ}
  {start proc next : WorkerProcess}

/-! ## Which rings are registered -/

theorem registerRings_of_not_mem {registered : ℤ → Bool}
    {rings : List ℤ} {k : ℤ} (hk : k ∉ cfg.rings idx)
    (hrings : rings ⊆ cfg.rings idx) :
    registerRings cfg outcomes idx registered rings k =
      registered k := by
  induction rings generalizing registered with
  | nil => rfl
  | cons i rest ih =>
      have hi : k ≠ i := by
        rintro rfl
        exact hk (hrings List.mem_cons_self)
      unfold registerRings
      split
      next =>
        rw [ih (List.subset_of_cons_subset hrings)]
        simp [registerRing, hi, hk]
      next => exact Function.update_of_ne hi _ _

/-- A ring that is not registered stays so if the loop does not come to
it. -/
theorem registerRings_stays {registered : ℤ → Bool} {rings : List ℤ}
    {k : ℤ} (hk : registered k = false) (hmem : k ∉ rings) :
    registerRings cfg outcomes idx registered rings k = false := by
  induction rings generalizing registered with
  | nil => exact hk
  | cons i rest ih =>
      rw [List.mem_cons, not_or] at hmem
      unfold registerRings
      split
      next =>
        apply ih _ hmem.2
        simp [registerRing, hmem.1, hk]
      next =>
        rw [Function.update_of_ne hmem.1]
        exact hk

theorem registerRings_fails {registered : ℤ → Bool} {rings : List ℤ}
    (hnodup : rings.Nodup)
    (hfails : ∃ i ∈ rings,
      outcomes.allocated i = false ∨ outcomes.registers i = false) :
    ∃ k ∈ rings,
      registerRings cfg outcomes idx registered rings k = false := by
  induction rings generalizing registered with
  | nil => simp at hfails
  | cons i rest ih =>
      rw [List.nodup_cons] at hnodup
      unfold registerRings
      split
      next hallocated =>
        by_cases hregisters : outcomes.registers i = false
        · refine ⟨i, List.mem_cons_self, ?_⟩
          apply registerRings_stays _ hnodup.1
          simp [registerRing, hregisters]
        · have hlater : ∃ k ∈ rest, outcomes.allocated k = false ∨
              outcomes.registers k = false := by
            obtain ⟨k, hmem, hk⟩ := hfails
            rcases List.mem_cons.mp hmem with rfl | hrest
            · simp [hallocated, hregisters] at hk
            · exact ⟨k, hrest, hk⟩
          obtain ⟨k, hmem, hk⟩ := ih hnodup.2 hlater
          exact ⟨k, List.mem_cons_of_mem _ hmem, hk⟩
      next =>
        exact ⟨i, List.mem_cons_self, Function.update_self i _ _⟩

/-- Behind the first ring a registration leaves the earlier ones alone. -/
theorem registerRings_keeps {registered : ℤ → Bool} {rings : List ℤ}
    {k : ℤ} (hfirst : cfg.firstRing idx ∉ rings)
    (hsucceeds : ∀ i ∈ rings,
      outcomes.allocated i = true ∧ outcomes.registers i = true)
    (hk : registered k = true ∨ k ∈ rings) :
    registerRings cfg outcomes idx registered rings k = true := by
  induction rings generalizing registered with
  | nil =>
      rw [registerRings]
      simpa using hk
  | cons i rest ih =>
      rw [List.mem_cons, not_or] at hfirst
      obtain ⟨hallocated, hregisters⟩ :=
        hsucceeds i List.mem_cons_self
      unfold registerRings
      rw [if_pos hallocated]
      apply ih hfirst.2
      · intro n hmem
        exact hsucceeds n (List.mem_cons_of_mem _ hmem)
      · by_cases hi : k = i
        · simp [registerRing, hi, hregisters]
        · have hold : registered k = true ∨ k ∈ rest := by
            simpa [hi] using hk
          simpa [registerRing, hi, Ne.symm hfirst.1] using hold

theorem rings_nodup (cfg : PreloadConfig) (id : ℤ) :
    (cfg.rings id).Nodup := by
  apply List.Nodup.map _ List.nodup_range
  intro first second hequal
  simpa using hequal

theorem rings_eq_cons (hratio : 1 ≤ cfg.ratio) (id : ℤ) :
    ∃ rest, cfg.rings id = cfg.firstRing id :: rest := by
  obtain ⟨count, hcount⟩ : ∃ count, cfg.ratio.toNat = count + 1 :=
    ⟨cfg.ratio.toNat - 1, by omega⟩
  unfold PreloadConfig.rings
  rw [hcount, List.range_succ_eq_map, List.map_cons, Int.natCast_zero,
    Int.add_zero]
  exact ⟨_, rfl⟩

/-- A set-up in which nothing fails registers the whole set, which is where
`Deployment.initWorker` starts. -/
theorem registered_of_not_fails (hratio : 1 ≤ cfg.ratio)
    (hinit : start.initWorker cfg outcomes idx = some proc)
    (hsucceeds : ¬ outcomes.Fails cfg idx) {k : ℤ}
    (hk : k ∈ cfg.rings idx) :
    proc.registered k = true := by
  unfold SetupOutcomes.Fails at hsucceeds
  push Not at hsucceeds
  obtain ⟨haccepted, hrings⟩ := hsucceeds
  simp only [ne_eq, Bool.not_eq_false] at hrings
  simp only [initWorker, if_neg (Int.not_le.mpr haccepted)] at hinit
  split at hinit
  next => simp at hinit
  next =>
    cases hinit
    have hnodup := rings_nodup cfg idx
    obtain ⟨rest, hcons⟩ := rings_eq_cons hratio idx
    change registerRings cfg outcomes idx start.registered _ k = true
    rw [hcons] at hk hnodup hrings ⊢
    obtain ⟨hallocated, hregisters⟩ := hrings _ List.mem_cons_self
    unfold registerRings
    rw [if_pos hallocated]
    apply registerRings_keeps (List.nodup_cons.mp hnodup).1
    · intro i hmem
      exact hrings i (List.mem_cons_of_mem _ hmem)
    · rcases List.mem_cons.mp hk with rfl | hmem
      · left
        simp [registerRing, hregisters]
      · exact Or.inr hmem

/-- Only rings of ids below `MAX_USR_WORKER` are ever registered. -/
def Owned (cfg : PreloadConfig) (proc : WorkerProcess) : Prop :=
  ∀ k, proc.registered k = true →
    ∃ id < cfg.maxUsrWorker, k ∈ cfg.rings id

theorem Owned.afterInitWorker (howned : proc.Owned cfg)
    (hinit : proc.initWorker cfg outcomes idx = some next) :
    next.Owned cfg := by
  simp only [initWorker] at hinit
  split at hinit
  next =>
    cases hinit
    exact howned
  next haccepted =>
    split at hinit
    next => simp at hinit
    next =>
      cases hinit
      intro k hk
      by_cases hmem : k ∈ cfg.rings idx
      · exact ⟨idx, Int.not_le.mp haccepted, hmem⟩
      · change registerRings cfg outcomes idx proc.registered _ k = true
          at hk
        rw [registerRings_of_not_mem hmem (List.Subset.refl _)] at hk
        exact howned k hk

theorem segmentStep_registered {op : SegmentOp}
    (hstep : proc.segmentStep cfg op = some next) :
    next.registered = proc.registered := by
  unfold segmentStep at hstep
  split at hstep
  next =>
    cases hstep
    rfl
  next =>
    split at hstep
    next =>
      split at hstep
      next => simp at hstep
      next =>
        cases hstep
        rfl
    next =>
      cases hstep
      rfl
  next =>
    cases hstep
    rfl

theorem owned_of_reaches
    (hreach : Transition.Reaches (step cfg) loaded proc) :
    proc.Owned cfg := by
  obtain ⟨ops, hrun⟩ := hreach
  refine Transition.run_invariant ?_ (by simp [Owned, loaded]) hrun
    (Transition.stepsMeet_true loaded ops)
  intro state op after howned _ hstep
  cases op with
  | initWorker idx outcomes => exact howned.afterInitWorker hstep
  | segment op =>
      unfold Owned
      rw [segmentStep_registered hstep]
      exact howned

theorem unregistered_of_fails (hratio : 1 ≤ cfg.ratio)
    (howned : start.Owned cfg)
    (hinit : start.initWorker cfg outcomes idx = some proc)
    (hfails : outcomes.Fails cfg idx) :
    ∃ k ∈ cfg.rings idx, proc.registered k = false := by
  simp only [initWorker] at hinit
  split at hinit
  next hrefused =>
    cases hinit
    have hfirst : cfg.firstRing idx ∈ cfg.rings idx := by
      rw [PreloadConfig.mem_rings]
      omega
    refine ⟨cfg.firstRing idx, hfirst, ?_⟩
    rw [← Bool.not_eq_true]
    intro hregistered
    obtain ⟨id, hid, hmem⟩ := howned _ hregistered
    have hsame := PreloadConfig.rings_disjoint hratio hfirst hmem
    omega
  next haccepted =>
    split at hinit
    next => simp at hinit
    next =>
      cases hinit
      exact registerRings_fails (rings_nodup cfg idx)
        (hfails.resolve_left haccepted)

/-! ## Operations after the set-up -/

theorem initWorker_entered
    (hinit : start.initWorker cfg outcomes idx = some proc) :
    proc.inSegment = false ∧ proc.thisWorkerId = idx := by
  simp only [initWorker] at hinit
  split at hinit
  next =>
    cases hinit
    exact ⟨rfl, rfl⟩
  next =>
    split at hinit
    next => simp at hinit
    next =>
      cases hinit
      exact ⟨rfl, rfl⟩

/-- With a ring of the set missing, the first `batch_start` is the first
operation that does not pass through. -/
theorem stepsMeet_iff_of_unregistered {ops : List SegmentOp}
    (hmissing : ∃ k ∈ cfg.rings proc.thisWorkerId,
      proc.registered k = false)
    (houtside : proc.inSegment = false) :
    Transition.StepsMeet (segmentStep cfg) (PassesThrough cfg) proc
        ops ↔
      .batchStart ∉ ops := by
  induction ops generalizing proc with
  | nil => simp [Transition.StepsMeet]
  | cons op rest ih =>
      cases op with
      | batchStart =>
          obtain ⟨k, hmem, hk⟩ := hmissing
          constructor
          · intro hmeet
            have hregistered := hmeet.1.1 k hmem
            rw [hk] at hregistered
            contradiction
          · intro hnot
            exact absurd List.mem_cons_self hnot
      | call source =>
          have hstep : proc.segmentStep cfg (.call source) =
              some proc := by
            simp [segmentStep, houtside]
          rw [Transition.stepsMeet_cons_iff hstep,
            ih hmissing houtside]
          simp [PassesThrough, touches, TakesDirectPath, houtside]
      | batchFlush =>
          rw [Transition.stepsMeet_cons_iff rfl,
            ih (by exact hmissing) rfl]
          simp [PassesThrough, touches, TakesDirectPath]

theorem stepsMeet_iff_of_nonpos {ops : List SegmentOp}
    (hratio : cfg.ratio ≤ 0) :
    Transition.StepsMeet (segmentStep cfg) (PassesThrough cfg) proc
        ops ↔
      CallsOutside proc.inSegment ops := by
  induction ops generalizing proc with
  | nil => simp [Transition.StepsMeet, CallsOutside]
  | cons op rest ih =>
      cases op with
      | batchStart =>
          rw [Transition.stepsMeet_cons_iff rfl, ih]
          simp [PassesThrough, touches, TakesDirectPath, CallsOutside,
            PreloadConfig.rings_of_nonpos hratio]
      | call source =>
          cases hsegment : proc.inSegment with
          | true =>
              constructor
              · intro hmeet
                have hdirect : proc.inSegment = false := hmeet.1.2
                rw [hsegment] at hdirect
                contradiction
              · intro hcalls
                exact absurd hcalls.1 (by simp)
          | false =>
              have hstep : proc.segmentStep cfg (.call source) =
                  some proc := by
                simp [segmentStep, hsegment]
              rw [Transition.stepsMeet_cons_iff hstep, ih]
              simp [PassesThrough, touches, TakesDirectPath,
                CallsOutside, hsegment]
      | batchFlush =>
          rw [Transition.stepsMeet_cons_iff rfl, ih]
          simp [PassesThrough, touches, TakesDirectPath, CallsOutside]

theorem callsOutside_of_not_mem {ops : List SegmentOp}
    (hnot : .batchStart ∉ ops) : CallsOutside false ops := by
  induction ops with
  | nil => trivial
  | cons op rest ih =>
      rw [List.mem_cons, not_or] at hnot
      cases op with
      | batchStart => exact absurd rfl hnot.1
      | call source => exact ⟨rfl, ih hnot.2⟩
      | batchFlush => exact ih hnot.2

/-- After a failed `init_worker` everything passes through exactly if no
segment is opened, or sets are empty and no call is made in a segment. -/
theorem failed_setup_passes_through_iff
    (hreach : Transition.Reaches (step cfg) loaded start)
    (hinit : start.initWorker cfg outcomes idx = some proc)
    (hfails : outcomes.Fails cfg idx) (ops : List SegmentOp) :
    Transition.StepsMeet (segmentStep cfg) (PassesThrough cfg) proc
        ops ↔
      .batchStart ∉ ops ∨ cfg.ratio ≤ 0 ∧ CallsOutside false ops := by
  obtain ⟨houtside, hid⟩ := initWorker_entered hinit
  by_cases hratio : cfg.ratio ≤ 0
  · rw [stepsMeet_iff_of_nonpos hratio, houtside]
    constructor
    · intro hcalls
      exact Or.inr ⟨hratio, hcalls⟩
    · rintro (hnot | ⟨_, hcalls⟩)
      · exact callsOutside_of_not_mem hnot
      · exact hcalls
  · have hmissing := unregistered_of_fails (by omega)
      (owned_of_reaches hreach) hinit hfails
    rw [← hid] at hmissing
    rw [stepsMeet_iff_of_unregistered hmissing houtside]
    simp [hratio]

def oneOfEach : PreloadConfig := ⟨1, 1⟩

def nothingFails : SetupOutcomes := ⟨true, fun _ => true, fun _ => true⟩

theorem secondWorker_passes_through :
    ∃ proc,
      loaded.initWorker oneOfEach nothingFails 1 = some proc ∧
      Transition.StepsMeet (segmentStep oneOfEach)
        (PassesThrough oneOfEach) proc
        [.call (.ngx (.close 5)), .batchFlush] := by
  have hinit :
      loaded.initWorker oneOfEach nothingFails 1 = some _ := rfl
  exact ⟨_, hinit,
    (failed_setup_passes_through_iff (Transition.Reaches.refl loaded)
      hinit (Or.inl (by decide)) _).mpr (Or.inl (by simp))⟩

/-- Its `batch_start` reads the ring of the id that was turned away, and the
calls that follow are queued there. -/
theorem secondWorker_touches_unregistered :
    ∃ proc,
      loaded.initWorker oneOfEach nothingFails 1 = some proc ∧
      nothingFails.Fails oneOfEach 1 ∧
      proc.touches oneOfEach .batchStart = [1] ∧
      proc.registered 1 = false ∧
      ¬ Transition.StepsMeet (segmentStep oneOfEach)
        (PassesThrough oneOfEach) proc
        [.batchStart, .call (.ngx (.close 5))] := by
  refine ⟨_, rfl, Or.inl (by decide), by decide, rfl, ?_⟩
  intro hmeet
  have hregistered := hmeet.1.1 1 (by decide)
  contradiction

end WorkerProcess

end Saio
