import Saio.SystemDelivery
import Mathlib.Tactic

/-!
# What a queued call meant, and what its entry sends

An entry often carries a pointer into the memory of the process, and the
worker follows it only when it executes the entry.  This file adds the process
around the system: the application stores to its memory between its calls,
and every call put on a ring is logged together with the memory it was made
in.

`read` is what an executed entry makes of the memory, and `meant` is what the
call was to send when it was made.  The two agree on every executed entry as
long as no step disturbs the memory behind a pending one; the logs then form a
bank whose lanes are the rings.
-/

namespace Saio

open FifoBank

/-- A call put on a ring, with the memory it was made in. -/
structure Queued (κ μ : Type) where
  source : κ
  ring : ℤ
  entry : SysCall
  memory : μ

structure Process (κ μ : Type) where
  sys : System κ μ
  queued : List (Queued κ μ)

/-- A step of the library or of a kernel worker, or a store of the application
to its own memory. -/
inductive ProcessAction (κ ω : Type)
  | library (action : SystemAction κ)
  | store (value : ω)

/-- For an application that does not write to the memory of its wrapper. -/
def noStore {μ : Type} (value : Empty) (_ : μ) : μ :=
  nomatch value

variable {κ μ ω π : Type} {dep : Deployment κ μ} {access : FlagAccess}
  {apply : ω → μ → μ}

def System.queuedBy (dep : Deployment κ μ) (sys : System κ μ) :
    SystemAction κ → List (Queued κ μ)
  | .call source =>
      if sys.inSegment then
        [⟨source, dep.route source, (sys.prepared dep source).1,
          sys.memory⟩]
      else []
  | _ => []

namespace Process

variable {proc next final : Process κ μ}

def step (dep : Deployment κ μ) (access : FlagAccess)
    (apply : ω → μ → μ) (proc : Process κ μ) :
    ProcessAction κ ω → Option (Process κ μ)
  | .library action =>
      match proc.sys.step dep access action with
      | none => none
      | some sys =>
          some ⟨sys, proc.queued ++ proc.sys.queuedBy dep action⟩
  | .store value =>
      match proc.sys.user with
      | .ready =>
          some { proc with
            sys := { proc.sys with
              memory := apply value proc.sys.memory } }
      | _ => none

def init (dep : Deployment κ μ) (pages : ℤ → ℕ → ℕ → TableEntry)
    (memory : μ) : Process κ μ :=
  ⟨dep.initWorker pages memory, []⟩

def NoOverrun (dep : Deployment κ μ) (proc : Process κ μ) :
    ProcessAction κ ω → Prop
  | .library action => proc.sys.NoOverrun dep action
  | .store _ => True

instance (dep : Deployment κ μ) (proc : Process κ μ)
    (action : ProcessAction κ ω) :
    Decidable (proc.NoOverrun dep action) :=
  match action with
  | .library action =>
      inferInstanceAs (Decidable (proc.sys.NoOverrun dep action))
  | .store _ => inferInstanceAs (Decidable True)

def queuedOn (proc : Process κ μ) (k : ℤ) : List (Queued κ μ) :=
  lane k (proc.queued.map fun call => (call.ring, call))

def meantLog (meant : κ → μ → π) (proc : Process κ μ) :
    List (ℤ × SysCall × π) :=
  proc.queued.map fun call =>
    (call.ring, call.entry, meant call.source call.memory)

def sentLog (read : SysCall → μ → π) (proc : Process κ μ) :
    List (ℤ × SysCall × π) :=
  proc.sys.executed.map fun record =>
    (record.ring, record.entry, read record.entry record.memory)

end Process

/-! ## Where the memory changes -/

namespace System

variable {sys next : System κ μ}

theorem onRing_memory {k : ℤ} {action : RingAction}
    (hstep : sys.onRing dep k action = some next) :
    next.memory = sys.memory := by
  obtain ⟨ring, _, rfl⟩ := onRing_frame hstep
  rfl

theorem userStep_memory
    (hstep : sys.userStep dep access = some next) :
    next.memory = sys.memory := by
  rcases userStep_cases hstep with
    hmove | ⟨idx, source, entry, moved, _, hmoved, rfl⟩ |
      ⟨idx, moved, _, hmoved, rfl⟩
  · cases hmove <;> rfl
  · have hmemory := onRing_memory hmoved
    exact hmemory
  · have hmemory := onRing_memory hmoved
    exact hmemory

theorem userStep_inSegment
    (hstep : sys.userStep dep access = some next) :
    next.inSegment = sys.inSegment := by
  rcases userStep_cases hstep with
    hmove | ⟨idx, source, entry, moved, _, hmoved, rfl⟩ |
      ⟨idx, moved, _, hmoved, rfl⟩
  · cases hmove <;> rfl
  · obtain ⟨ring, _, rfl⟩ := onRing_frame hmoved
    rfl
  · obtain ⟨ring, _, rfl⟩ := onRing_frame hmoved
    rfl

theorem batchStep_memory {k sysret : ℤ}
    (hstep : sys.batchStep dep k sysret = some next) :
    (next.memory = sys.memory ∧ next.executed = sys.executed) ∨
      next.executed ≠ sys.executed ∧ next.memory =
        dep.wrapper.perform (sys.ring k).cursorEntry.call sysret
          sys.memory := by
  rcases batchStep_cases hstep with
    rfl | ⟨ringAction, _, hring⟩ | hexecute
  · exact Or.inl ⟨rfl, rfl⟩
  · exact Or.inl ⟨onRing_memory hring, (onRing_eq_some hring).2.2.1⟩
  · obtain ⟨done, _, rfl⟩ := executeEntry_cases hexecute
    exact Or.inr ⟨by simp, rfl⟩

theorem workerStep_memory {k sysret : ℤ} {expired : Bool}
    (hstep : sys.workerStep dep access k expired sysret = some next) :
    (next.memory = sys.memory ∧ next.executed = sys.executed) ∨
      next.executed ≠ sys.executed ∧ next.memory =
        dep.wrapper.perform (sys.ring k).cursorEntry.call sysret
          sys.memory := by
  rcases workerStep_cases hstep with
    ⟨_, hbatch⟩ | ⟨n, _, rfl⟩ | ⟨worker, _, rfl⟩
  · exact batchStep_memory hbatch
  · left
    unfold scanStep
    split
    · split <;> exact ⟨rfl, rfl⟩
    · exact ⟨rfl, rfl⟩
  · exact Or.inl ⟨rfl, rfl⟩

/-- A call inside a segment, with what it does to the memory. -/
theorem call_queued {source : κ} (hsegment : sys.inSegment = true)
    (hstep : sys.call dep source = some next) :
    RingMoves dep sys next (dep.route source)
        (.write (sys.prepared dep source).1) ∧
      next.memory = (sys.prepared dep source).2 ∧
      next.issued = sys.issued ∧ next.executed = sys.executed ∧
      next.user = .advancing (dep.route source) source
        (sys.prepared dep source).1 := by
  rcases call_cases hstep with ⟨_, queued, hqueued, rfl⟩ | ⟨hnot, _⟩
  · obtain ⟨hmoves, hissued, hexecuted, _⟩ := onRing_eq_some hqueued
    exact ⟨⟨hmoves.moved, hmoves.others⟩, rfl, hissued, hexecuted, rfl⟩
  · simp [hsegment] at hnot

theorem call_direct {source : κ} (hsegment : sys.inSegment = false)
    (hstep : sys.call dep source = some next) :
    next = { sys with direct := sys.direct ++ [source] } := by
  rcases call_cases hstep with ⟨hinside, _⟩ | ⟨_, hnext⟩
  · simp [hsegment] at hinside
  · exact hnext

theorem call_inSegment {source : κ}
    (hstep : sys.call dep source = some next) :
    next.inSegment = sys.inSegment := by
  rcases call_cases hstep with ⟨_, queued, hqueued, rfl⟩ | ⟨_, rfl⟩
  · obtain ⟨ring, _, rfl⟩ := onRing_frame hqueued
    rfl
  · rfl

/-- The calls that have filled an entry: the issued ones and the one in
progress. -/
def called (sys : System κ μ) : List (Issued κ) :=
  match sys.user with
  | .advancing idx source entry => sys.issued ++ [⟨source, idx, entry⟩]
  | _ => sys.issued

theorem called_of_outside (houtside : sys.user.Outside) :
    sys.called = sys.issued := by
  unfold called
  cases hpc : sys.user with
  | advancing idx source entry =>
      rw [hpc] at houtside
      exact houtside.elim
  | _ => rfl

/-- Only a wrapped call inside a segment fills an entry. -/
theorem Effect.called_eq {action : SystemAction κ}
    (heffect : Effect dep sys action next)
    (hcall : ∀ source, action = .call source → next.user = sys.user) :
    next.called = sys.called := by
  cases heffect with
  | quiet _ hissued _ huser =>
      rcases huser with hsame | ⟨hbefore, hafter⟩
      · unfold called
        rw [hsame, hissued]
      · rw [called_of_outside hbefore, called_of_outside hafter, hissued]
  | drain k ringAction _ _ hissued _ huser =>
      unfold called
      rw [huser, hissued]
  | execute k _ hissued _ huser =>
      unfold called
      rw [huser, hissued]
  | write source entry hready _ _ hissued _ huser =>
      rw [hcall source rfl, hready] at huser
      contradiction
  | advance idx source entry hadvancing _ hissued _ huser =>
      unfold called
      rw [hadvancing, huser, hissued]
  | mark idx hmarking _ hissued _ huser =>
      unfold called
      rw [hmarking, huser, hissued]

end System

/-! ## Inversion of a process step -/

namespace Process

variable {proc next final : Process κ μ}

inductive Traffic (dep : Deployment κ μ) (apply : ω → μ → μ)
    (proc : Process κ μ) : ProcessAction κ ω → Process κ μ → Prop
  | other {action : SystemAction κ} {next : Process κ μ}
      (heffect : System.Effect dep proc.sys action next.sys)
      (hexecuted : next.sys.executed = proc.sys.executed)
      (hcalled : next.sys.called = proc.sys.called)
      (hmemory : next.sys.memory = proc.sys.memory)
      (hqueued : next.queued = proc.queued) :
      Traffic dep apply proc (.library action) next
  | execute {next : Process κ μ}
      (k : ℤ) (expired : Bool) (sysret : ℤ)
      (hmoves : System.RingMoves dep proc.sys next.sys k .execute)
      (hissued : next.sys.issued = proc.sys.issued)
      (hexecuted : next.sys.executed = proc.sys.executed ++
        [⟨k, (proc.sys.ring k).cursorEntry.call, proc.sys.memory⟩])
      (huser : next.sys.user = proc.sys.user)
      (hmemory : next.sys.memory =
        dep.wrapper.perform (proc.sys.ring k).cursorEntry.call sysret
          proc.sys.memory)
      (hqueued : next.queued = proc.queued) :
      Traffic dep apply proc (.library (.worker k expired sysret)) next
  | call {next : Process κ μ} (source : κ)
      (hready : proc.sys.user = .ready)
      (hsegment : proc.sys.inSegment = true)
      (hmoves : System.RingMoves dep proc.sys next.sys
        (dep.route source) (.write (proc.sys.prepared dep source).1))
      (hissued : next.sys.issued = proc.sys.issued)
      (hexecuted : next.sys.executed = proc.sys.executed)
      (huser : next.sys.user = .advancing (dep.route source) source
        (proc.sys.prepared dep source).1)
      (hmemory : next.sys.memory = (proc.sys.prepared dep source).2)
      (hqueued : next.queued = proc.queued ++
        [⟨source, dep.route source, (proc.sys.prepared dep source).1,
          proc.sys.memory⟩]) :
      Traffic dep apply proc (.library (.call source)) next
  | store (value : ω) (hready : proc.sys.user = .ready) :
      Traffic dep apply proc (.store value)
        { proc with
          sys := { proc.sys with
            memory := apply value proc.sys.memory } }

theorem step_store {value : ω}
    (hstep : proc.step dep access apply (.store value) = some next) :
    proc.sys.user = .ready ∧
      next = { proc with
        sys := { proc.sys with
          memory := apply value proc.sys.memory } } := by
  simp only [step] at hstep
  split at hstep
  next hready => exact ⟨hready, (Option.some.inj hstep).symm⟩
  next => simp at hstep

theorem step_library {action : SystemAction κ}
    (hstep : proc.step dep access apply (.library action) =
      some next) :
    proc.sys.step dep access action = some next.sys ∧
      next.queued = proc.queued ++ proc.sys.queuedBy dep action := by
  simp only [step] at hstep
  split at hstep
  next => simp at hstep
  next sys hsys =>
    cases hstep
    exact ⟨hsys, rfl⟩

theorem traffic_of_worker {k sysret : ℤ} {expired : Bool}
    (hstep : proc.sys.step dep access (.worker k expired sysret) =
      some next.sys)
    (hqueued : next.queued = proc.queued) :
    Traffic dep apply proc (.library (.worker k expired sysret))
      next := by
  have heffect := System.step_effect hstep
  have hcalled := heffect.called_eq (by simp)
  rcases System.workerStep_memory (System.step_worker hstep).2 with
    ⟨hmemory, hexecuted⟩ | ⟨hchanged, hmemory⟩
  · exact .other heffect hexecuted hcalled hmemory hqueued
  · cases heffect with
    | quiet _ _ hexecuted _ => exact absurd hexecuted hchanged
    | drain _ _ _ _ _ hexecuted _ => exact absurd hexecuted hchanged
    | execute _ hmoves hissued hexecuted huser =>
        exact .execute k expired sysret hmoves hissued hexecuted huser
          hmemory hqueued

theorem step_traffic {action : ProcessAction κ ω}
    (hstep : proc.step dep access apply action = some next) :
    Traffic dep apply proc action next := by
  cases action with
  | store value =>
      obtain ⟨hready, rfl⟩ := step_store hstep
      exact .store value hready
  | library action =>
      obtain ⟨hsys, hqueued⟩ := step_library hstep
      have heffect := System.step_effect hsys
      cases action with
      | call source =>
          obtain ⟨hready, hcall⟩ := System.step_call hsys
          cases hsegment : proc.sys.inSegment with
          | true =>
              obtain ⟨hmoves, hmemory, hissued, hexecuted, huser⟩ :=
                System.call_queued hsegment hcall
              refine .call source hready hsegment hmoves hissued
                hexecuted huser hmemory ?_
              simpa [System.queuedBy, hsegment] using hqueued
          | false =>
              have hdirect := System.call_direct hsegment hcall
              refine .other heffect ?_ ?_ ?_ ?_
              · rw [hdirect]
              · rw [hdirect]
                rfl
              · rw [hdirect]
              · simpa [System.queuedBy, hsegment] using hqueued
      | batchStart =>
          have hcalled := heffect.called_eq (by simp)
          obtain ⟨_, hnext⟩ := System.step_batchStart hsys
          refine .other heffect ?_ hcalled ?_ ?_
          · rw [hnext]
            rfl
          · rw [hnext]
            rfl
          · simpa [System.queuedBy] using hqueued
      | batchFlush =>
          have hcalled := heffect.called_eq (by simp)
          obtain ⟨_, hnext⟩ := System.step_batchFlush hsys
          refine .other heffect ?_ hcalled ?_ ?_
          · rw [hnext, System.batchFlush]
            split <;> rfl
          · rw [hnext, System.batchFlush]
            split <;> rfl
          · simpa [System.queuedBy] using hqueued
      | user =>
          have hcalled := heffect.called_eq (by simp)
          refine .other heffect ?_ hcalled
            (System.userStep_memory hsys) ?_
          · cases heffect with
            | quiet _ _ hexecuted _ => exact hexecuted
            | advance _ _ _ _ _ _ hexecuted _ => exact hexecuted
            | mark _ _ _ _ hexecuted _ => exact hexecuted
          · simpa [System.queuedBy] using hqueued
      | worker k expired sysret =>
          apply traffic_of_worker hsys
          simpa [System.queuedBy] using hqueued

/-- What holds of every queued call is a matter of the new ones. -/
theorem Traffic.forall_queued {property : Queued κ μ → Prop}
    {action : ProcessAction κ ω}
    (htraffic : Traffic dep apply proc action next)
    (hall : ∀ call ∈ proc.queued, property call)
    (hnew : ∀ source, action = .library (.call source) →
      property ⟨source, dep.route source,
        (proc.sys.prepared dep source).1, proc.sys.memory⟩) :
    ∀ call ∈ next.queued, property call := by
  cases htraffic with
  | other _ _ _ _ hqueued =>
      rw [hqueued]
      exact hall
  | execute _ _ _ _ _ _ _ _ hqueued =>
      rw [hqueued]
      exact hall
  | call source _ _ _ _ _ _ _ hqueued =>
      rw [hqueued]
      intro call hmem
      rcases List.mem_append.mp hmem with hold | hlast
      · exact hall call hold
      · rw [List.mem_singleton.mp hlast]
        exact hnew source rfl
  | store _ _ => exact hall

/-! ## The log of the queued calls -/

theorem queuedOn_append_self {call : Queued κ μ}
    (hqueued : next.queued = proc.queued ++ [call]) :
    next.queuedOn call.ring = proc.queuedOn call.ring ++ [call] := by
  simp [queuedOn, hqueued]

theorem queuedOn_append_of_ne {call : Queued κ μ} {k : ℤ}
    (hqueued : next.queued = proc.queued ++ [call])
    (hne : call.ring ≠ k) :
    next.queuedOn k = proc.queuedOn k := by
  simp [queuedOn, hqueued, lane_singleton_of_ne hne]

theorem getElem?_queuedOn_append {call last : Queued κ μ} {k : ℤ} {n : ℕ}
    (hqueued : next.queued = proc.queued ++ [last])
    (hget : (next.queuedOn k)[n]? = some call) :
    (proc.queuedOn k)[n]? = some call ∨
      k = last.ring ∧ n = (proc.queuedOn k).length ∧ call = last := by
  by_cases hk : last.ring = k
  · subst k
    rw [queuedOn_append_self hqueued] at hget
    rcases FifoChannel.get_append_cases hget with hold | ⟨hn, hcall⟩
    · exact Or.inl hold
    · exact Or.inr ⟨rfl, hn, hcall⟩
  · rw [queuedOn_append_of_ne hqueued hk] at hget
    exact Or.inl hget

def toIssued (call : Queued κ μ) : Issued κ :=
  ⟨call.source, call.ring, call.entry⟩

/-- The log lists the calls that have filled an entry; the `n`-th call on a
ring filled the slot of position `n`. -/
structure Tracked (dep : Deployment κ μ) (proc : Process κ μ) :
    Prop where
  recorded : proc.sys.Recorded dep
  good : proc.sys.AllGood dep
  called_eq : proc.queued.map toIssued = proc.sys.called
  built : ∀ k n call, (proc.queuedOn k)[n]? = some call →
    k = dep.route call.source ∧
      call.entry =
        (dep.wrapper.prepare dep.toTableConfig call.source call.memory k
          (dep.slotAt n).1 (dep.slotAt n).2).1

theorem init_tracked (dep : Deployment κ μ)
    (pages : ℤ → ℕ → ℕ → TableEntry) (memory : μ) :
    (init dep pages memory).Tracked dep where
  recorded := System.initWorker_recorded dep pages memory
  good := System.initWorker_allGood dep pages memory
  called_eq := rfl
  built := by simp [init, queuedOn]

namespace Tracked

theorem entries_eq (htracked : proc.Tracked dep) (k : ℤ) :
    (proc.queuedOn k).map Queued.entry =
      lane k (proc.sys.called.map fun record =>
        (record.ring, record.entry)) := by
  rw [← htracked.called_eq, List.map_map]
  exact (lane_map k Queued.ring Queued.entry proc.queued).symm

theorem issued_prefix (htracked : proc.Tracked dep) (k : ℤ) :
    (proc.sys.ring k).issued.map Submission.call <+:
      (proc.queuedOn k).map Queued.entry := by
  rw [htracked.entries_eq k, htracked.recorded.issued_eq k]
  unfold System.called System.sent
  split
  next =>
    rw [List.map_append, lane_append]
    exact List.prefix_append _ _
  next => exact List.prefix_refl _

theorem length_of_outside (htracked : proc.Tracked dep)
    (houtside : proc.sys.user.Outside) (k : ℤ) :
    (proc.queuedOn k).length = (proc.sys.ring k).issued.length := by
  have hentries := congrArg List.length (htracked.entries_eq k)
  have hissued := congrArg List.length (htracked.recorded.issued_eq k)
  rw [System.called_of_outside houtside, List.length_map] at hentries
  rw [List.length_map] at hissued
  exact hentries.trans hissued.symm

theorem length_le (htracked : proc.Tracked dep) (k : ℤ) :
    (proc.queuedOn k).length ≤ (proc.sys.ring k).issued.length + 1 := by
  have hentries := congrArg List.length (htracked.entries_eq k)
  have hissued := congrArg List.length (htracked.recorded.issued_eq k)
  rw [List.length_map] at hentries hissued
  rw [hentries, hissued]
  unfold System.called System.sent
  split
  next =>
    rw [List.map_append, lane_append, List.length_append]
    refine Nat.add_le_add_left ?_ _
    exact (List.length_map _).trans_le (List.length_filter_le _ _)
  next => exact Nat.le_succ _

theorem of_sameLog (htracked : proc.Tracked dep)
    (hrecorded : next.sys.Recorded dep) (hgood : next.sys.AllGood dep)
    (hcalled : next.sys.called = proc.sys.called)
    (hqueued : next.queued = proc.queued) :
    next.Tracked dep where
  recorded := hrecorded
  good := hgood
  called_eq := by
    rw [hqueued, hcalled]
    exact htracked.called_eq
  built := by
    unfold queuedOn
    rw [hqueued]
    exact htracked.built

theorem afterCall (htracked : proc.Tracked dep) {source : κ}
    (hready : proc.sys.user = .ready)
    (hrecorded : next.sys.Recorded dep) (hgood : next.sys.AllGood dep)
    (hissued : next.sys.issued = proc.sys.issued)
    (huser : next.sys.user = .advancing (dep.route source) source
      (proc.sys.prepared dep source).1)
    (hqueued : next.queued = proc.queued ++
      [⟨source, dep.route source, (proc.sys.prepared dep source).1,
        proc.sys.memory⟩]) :
    next.Tracked dep where
  recorded := hrecorded
  good := hgood
  called_eq := by
    have hbefore := htracked.called_eq
    have houtside : proc.sys.user.Outside := by
      rw [hready]
      trivial
    rw [System.called_of_outside houtside] at hbefore
    unfold System.called
    rw [hqueued, huser, hissued, List.map_append, hbefore]
    rfl
  built := by
    intro k n call hget
    rcases getElem?_queuedOn_append hqueued hget with
      hold | ⟨rfl, rfl, rfl⟩
    · exact htracked.built k n call hold
    · refine ⟨rfl, ?_⟩
      rw [htracked.length_of_outside (by rw [hready]; trivial),
        ← (htracked.good _).tail_eq]
      rfl

theorem afterTraffic (htracked : proc.Tracked dep)
    {action : ProcessAction κ ω}
    (hsafe : proc.NoOverrun dep action)
    (htraffic : Traffic dep apply proc action next) :
    next.Tracked dep := by
  cases htraffic with
  | other heffect _ hcalled _ hqueued =>
      exact htracked.of_sameLog (htracked.recorded.afterEffect heffect)
        (htracked.good.afterEffect hsafe heffect) hcalled hqueued
  | execute k expired sysret hmoves hissued hexecuted huser _ hqueued =>
      have heffect : System.Effect dep proc.sys
          (.worker k expired sysret) next.sys :=
        .execute k hmoves hissued hexecuted huser
      exact htracked.of_sameLog (htracked.recorded.afterEffect heffect)
        (htracked.good.afterEffect hsafe heffect)
        (heffect.called_eq (by simp)) hqueued
  | call source hready _ hmoves hissued hexecuted huser _ hqueued =>
      have heffect : System.Effect dep proc.sys _ next.sys :=
        .write source _ hready ⟨_, _, rfl⟩ hmoves hissued hexecuted huser
      exact htracked.afterCall hready
        (htracked.recorded.afterEffect heffect)
        (htracked.good.afterEffect hsafe heffect) hissued huser hqueued
  | store value hready =>
      refine htracked.of_sameLog ?_ htracked.good rfl rfl
      exact htracked.recorded.afterQuiet (fun _ => rfl) rfl rfl
        (Or.inl rfl)

theorem afterStep (htracked : proc.Tracked dep)
    {action : ProcessAction κ ω}
    (hstep : proc.step dep access apply action = some next)
    (hsafe : proc.NoOverrun dep action) :
    next.Tracked dep :=
  htracked.afterTraffic hsafe (step_traffic hstep)

theorem executed_prefix (htracked : proc.Tracked dep)
    (hnext : next.Tracked dep) {action : ProcessAction κ ω}
    (htraffic : Traffic dep apply proc action next) (k : ℤ) :
    (proc.sys.ring k).executed <+: (next.sys.ring k).executed := by
  have hgrows : proc.sys.executed <+: next.sys.executed := by
    cases htraffic with
    | other _ hexecuted _ _ _ => rw [hexecuted]
    | execute _ _ _ _ _ hexecuted _ _ _ =>
        rw [hexecuted]
        exact List.prefix_append _ _
    | call _ _ _ _ _ hexecuted _ _ _ => rw [hexecuted]
    | store _ _ => exact List.prefix_refl _
  obtain ⟨rest, hrest⟩ := hgrows
  rw [htracked.recorded.executed_eq k, hnext.recorded.executed_eq k]
  unfold System.taken
  rw [← hrest, List.map_append, lane_append]
  exact List.prefix_append _ _

theorem executed_le (htracked : proc.Tracked dep)
    (hnext : next.Tracked dep) {action : ProcessAction κ ω}
    (htraffic : Traffic dep apply proc action next) (k : ℤ) :
    (proc.sys.ring k).executed.length ≤
      (next.sys.ring k).executed.length :=
  (htracked.executed_prefix hnext htraffic k).length_le

theorem executed_le_queued (htracked : proc.Tracked dep) (k : ℤ) :
    (proc.sys.ring k).executed.length ≤ (proc.queuedOn k).length := by
  have hissued := (htracked.issued_prefix k).length_le
  rw [List.length_map, List.length_map] at hissued
  exact (htracked.good k).executed_le.trans hissued

/-- Rings are drained in order if the entries of the queued calls are
executed in their order. -/
theorem drainsInOrder_iff (htracked : proc.Tracked dep) :
    proc.sys.DrainsInOrder ↔
      ∀ k, (proc.sys.ring k).executed <+:
        (proc.queuedOn k).map Queued.entry := by
  constructor
  · intro horder k
    exact (horder k).trans (htracked.issued_prefix k)
  · intro horder k
    apply List.prefix_of_prefix_length_le (horder k)
      (htracked.issued_prefix k)
    rw [List.length_map]
    exact (htracked.good k).executed_le

/-- Rings that are drained in order after a step were so before it. -/
theorem drainsInOrder_before (htracked : proc.Tracked dep)
    (hnext : next.Tracked dep) {action : ProcessAction κ ω}
    (htraffic : Traffic dep apply proc action next)
    (horder : next.sys.DrainsInOrder) : proc.sys.DrainsInOrder := by
  rw [htracked.drainsInOrder_iff]
  rw [hnext.drainsInOrder_iff] at horder
  intro k
  have hqueued : (proc.queuedOn k).map Queued.entry <+:
      (next.queuedOn k).map Queued.entry := by
    apply List.IsPrefix.map
    unfold queuedOn
    cases htraffic with
    | other _ _ _ _ hqueued => rw [hqueued]
    | execute _ _ _ _ _ _ _ _ hqueued => rw [hqueued]
    | call _ _ _ _ _ _ _ _ hqueued =>
        rw [hqueued, List.map_append, lane_append]
        exact List.prefix_append _ _
    | store _ _ => exact List.prefix_refl _
  apply List.prefix_of_prefix_length_le _ hqueued
  · rw [List.length_map]
    exact htracked.executed_le_queued k
  · exact (htracked.executed_prefix hnext htraffic k).trans (horder k)

theorem mem_queuedOn (htracked : proc.Tracked dep)
    {call : Queued κ μ} (hmem : call ∈ proc.queued) :
    ∃ n : ℕ, (proc.queuedOn call.ring)[n]? = some call ∧
      call.ring = dep.route call.source := by
  have hlane : call ∈ proc.queuedOn call.ring :=
    mem_lane.mpr (List.mem_map_of_mem hmem)
  obtain ⟨n, hn⟩ := List.mem_iff_getElem?.mp hlane
  exact ⟨n, hn, (htracked.built _ n call hn).1⟩

/-- If the rings are still drained in order after it, an execution takes the
entry of the next call. -/
theorem front_of_order (hnext : next.Tracked dep)
    (horder : next.sys.DrainsInOrder)
    (hqueued : next.queued = proc.queued) {k : ℤ}
    (hmoves : System.RingMoves dep proc.sys next.sys k .execute) :
    ∃ call,
      (proc.queuedOn k)[(proc.sys.ring k).executed.length]? =
          some call ∧
        (proc.sys.ring k).cursorEntry.call = call.entry := by
  obtain ⟨_, _, hring⟩ := Ring.step_execute hmoves.moved
  have hexecuted : (next.sys.ring k).executed =
      (proc.sys.ring k).executed ++
        [(proc.sys.ring k).cursorEntry.call] := by
    rw [hring]
    rfl
  have hprefix := hnext.drainsInOrder_iff.mp horder k
  rw [hexecuted, queuedOn, hqueued, ← queuedOn] at hprefix
  obtain ⟨rest, hrest⟩ := hprefix
  have hget :
      ((proc.queuedOn k).map Queued.entry)[
          (proc.sys.ring k).executed.length]? =
        some (proc.sys.ring k).cursorEntry.call := by
    rw [← hrest, List.append_assoc, List.getElem?_append_right le_rfl,
      Nat.sub_self]
    rfl
  rw [List.getElem?_map, Option.map_eq_some_iff] at hget
  obtain ⟨call, hcall, hentry⟩ := hget
  exact ⟨call, hcall, hentry.symm⟩

/-- The next call of a ring that is not drained is the one whose entry is at
the cursor. -/
theorem front (htracked : proc.Tracked dep)
    (hshares : dep.SharesEntries) {k : ℤ}
    (hpending : (proc.sys.ring k).executed.length <
      (proc.sys.ring k).issued.length) :
    ∃ call,
      (proc.queuedOn k)[(proc.sys.ring k).executed.length]? =
          some call ∧
        (proc.sys.ring k).cursorEntry.call = call.entry := by
  have hissued := List.getElem?_eq_getElem hpending
  obtain ⟨rest, hrest⟩ := htracked.issued_prefix k
  have hget :
      ((proc.queuedOn k).map Queued.entry)[
          (proc.sys.ring k).executed.length]? =
        some ((proc.sys.ring k).issued[
          (proc.sys.ring k).executed.length]).call := by
    rw [← hrest, List.getElem?_append_left (by simpa using hpending),
      List.getElem?_map, hissued]
    rfl
  rw [List.getElem?_map, Option.map_eq_some_iff] at hget
  obtain ⟨call, hcall, hentry⟩ := hget
  refine ⟨call, hcall, ?_⟩
  have hcontent :=
    ((htracked.good k).contents hshares).content _ _ hissued le_rfl
  rw [hentry, RingBase.cursorEntry, (htracked.good k).cursor_eq]
  exact hcontent

theorem front_of_execute (htracked : proc.Tracked dep)
    (hshares : dep.SharesEntries) {k : ℤ}
    (hmoves : System.RingMoves dep proc.sys next.sys k .execute) :
    ∃ call,
      (proc.queuedOn k)[(proc.sys.ring k).executed.length]? =
          some call ∧
        (proc.sys.ring k).cursorEntry.call = call.entry := by
  obtain ⟨hdrain, hsubmitted, _⟩ := Ring.step_execute hmoves.moved
  obtain ⟨remaining, _, hbound⟩ :=
    (htracked.good k).executed_lt_of_submitted hdrain hsubmitted
  exact htracked.front hshares (by omega)

end Tracked

/-! ## Pending calls -/

/-- The `n`-th call of ring `k`, which is still to be executed. -/
def Pending (proc : Process κ μ) (k : ℤ) (n : ℕ)
    (call : Queued κ μ) : Prop :=
  (proc.queuedOn k)[n]? = some call ∧
    (proc.sys.ring k).executed.length ≤ n

/-- Pending calls of one ring are less than a lap apart. -/
theorem Tracked.pending_lt (htracked : proc.Tracked dep) {k : ℤ} {n : ℕ}
    {call : Queued κ μ} (hpending : proc.Pending k n call) :
    n < (proc.sys.ring k).executed.length + dep.capacity := by
  have hn := (List.getElem?_eq_some_iff.mp hpending.1).1
  have hlength := htracked.length_le k
  have hlap := (htracked.good k).issued_lt
  omega

theorem Pending.ne_front {k m : ℤ} {n : ℕ} {call : Queued κ μ}
    (hpending : next.Pending m n call)
    (hmoves : System.RingMoves dep proc.sys next.sys k .execute) :
    m ≠ k ∨ n ≠ (proc.sys.ring k).executed.length := by
  by_cases hring : m = k
  · right
    subst m
    obtain ⟨_, _, hring⟩ := Ring.step_execute hmoves.moved
    have hlength : (next.sys.ring k).executed.length =
        (proc.sys.ring k).executed.length + 1 := by
      rw [hring]
      simp [Ring.execute]
    have hle := hpending.2
    omega
  · exact Or.inl hring

theorem Pending.of_sameLog {k : ℤ} {n : ℕ} {call : Queued κ μ}
    (hpending : next.Pending k n call)
    (hqueued : next.queued = proc.queued)
    (hle : (proc.sys.ring k).executed.length ≤
      (next.sys.ring k).executed.length) :
    proc.Pending k n call := by
  have hget := hpending.1
  rw [queuedOn, hqueued] at hget
  exact ⟨hget, hle.trans hpending.2⟩

/-- A call pending after a step was pending before, or has just been
queued. -/
theorem Traffic.pending_cases {action : ProcessAction κ ω}
    (htraffic : Traffic dep apply proc action next)
    (htracked : proc.Tracked dep) (hnext : next.Tracked dep)
    {k : ℤ} {n : ℕ} {call : Queued κ μ}
    (hpending : next.Pending k n call) :
    proc.Pending k n call ∨
      ∃ source, action = .library (.call source) ∧
        proc.sys.user = .ready ∧
        next.sys.memory = (proc.sys.prepared dep source).2 ∧
        k = dep.route source ∧ n = (proc.queuedOn k).length ∧
        call = ⟨source, dep.route source,
          (proc.sys.prepared dep source).1, proc.sys.memory⟩ := by
  have hle := htracked.executed_le hnext htraffic k
  cases htraffic with
  | other _ _ _ _ hqueued =>
      exact Or.inl (hpending.of_sameLog hqueued hle)
  | execute _ _ _ _ _ _ _ _ hqueued =>
      exact Or.inl (hpending.of_sameLog hqueued hle)
  | call source hready _ _ _ _ _ hmemory hqueued =>
      rcases getElem?_queuedOn_append hqueued hpending.1 with
        hbefore | ⟨hk, hn, hcall⟩
      · exact Or.inl ⟨hbefore, hle.trans hpending.2⟩
      · exact Or.inr ⟨source, rfl, hready, hmemory, hk, hn, hcall⟩
  | store _ _ => exact Or.inl (hpending.of_sameLog rfl hle)

/-! ## Waiting calls -/

/-- The `g`-th call of all rings together, which is still to be executed. -/
def Waiting (proc : Process κ μ) (g : ℕ) (call : Queued κ μ) : Prop :=
  proc.queued[g]? = some call ∧
    (proc.sys.ring call.ring).executed.length ≤
      (lane call.ring ((proc.queued.take g).map fun other =>
        (other.ring, other))).length

theorem forall_waiting_iff {property : ℕ → Queued κ μ → Prop} :
    (∀ g call, proc.Waiting g call → property g call) ↔
      ∀ g < proc.queued.length, ∀ call ∈ proc.queued[g]?,
        (proc.sys.ring call.ring).executed.length ≤
            (lane call.ring ((proc.queued.take g).map fun other =>
              (other.ring, other))).length →
          property g call := by
  constructor
  · intro hall g _ call hmem hbound
    exact hall g call ⟨hmem, hbound⟩
  · intro hall g call hwaiting
    have hg := (List.getElem?_eq_some_iff.mp hwaiting.1).1
    exact hall g hg call hwaiting.1 hwaiting.2

instance (property : ℕ → Queued κ μ → Prop)
    [∀ g call, Decidable (property g call)] :
    Decidable (∀ g call, proc.Waiting g call → property g call) :=
  decidable_of_iff' _ forall_waiting_iff

theorem Pending.waiting {k : ℤ} {n : ℕ} {call : Queued κ μ}
    (hpending : proc.Pending k n call) :
    ∃ g, proc.Waiting g call := by
  obtain ⟨g, hget, hlength⟩ := getElem?_lane hpending.1
  rw [List.getElem?_map, Option.map_eq_some_iff] at hget
  obtain ⟨other, hother, hequal⟩ := hget
  obtain ⟨rfl, rfl⟩ := Prod.mk.inj hequal
  refine ⟨g, hother, ?_⟩
  rw [List.map_take, hlength]
  exact hpending.2

theorem Traffic.waiting_cases {action : ProcessAction κ ω}
    (htraffic : Traffic dep apply proc action next)
    (htracked : proc.Tracked dep) (hnext : next.Tracked dep) {g : ℕ}
    {call : Queued κ μ} (hwaiting : next.Waiting g call) :
    proc.Waiting g call ∨
      g = proc.queued.length ∧ next.queued = proc.queued ++ [call] := by
  obtain ⟨hget, hbound⟩ := hwaiting
  have hle := htracked.executed_le hnext htraffic call.ring
  cases htraffic with
  | other _ _ _ _ hqueued =>
      rw [hqueued] at hget hbound
      exact Or.inl ⟨hget, hle.trans hbound⟩
  | execute _ _ _ _ _ _ _ _ hqueued =>
      rw [hqueued] at hget hbound
      exact Or.inl ⟨hget, hle.trans hbound⟩
  | call _ _ _ _ _ _ _ _ hqueued =>
      rw [hqueued] at hget hbound
      rcases FifoChannel.get_append_cases hget with hold | ⟨hg, hlast⟩
      · have hlt := (List.getElem?_eq_some_iff.mp hold).1
        rw [List.take_append_of_le_length hlt.le] at hbound
        exact Or.inl ⟨hold, hle.trans hbound⟩
      · rw [hlast]
        exact Or.inr ⟨hg, hqueued⟩
  | store _ _ => exact Or.inl ⟨hget, hle.trans hbound⟩

/-! ## What is sent is what was meant -/

/-- The memory behind every pending entry still holds what its call was to
send. -/
def Intact (read : SysCall → μ → π) (meant : κ → μ → π)
    (proc : Process κ μ) : Prop :=
  ∀ k n call, proc.Pending k n call →
    read call.entry proc.sys.memory = meant call.source call.memory

/-- On each ring the executed entries sent what the first queued calls
meant. -/
def Conveys (read : SysCall → μ → π) (meant : κ → μ → π)
    (proc : Process κ μ) : Prop :=
  ∀ k, lane k (proc.sentLog read) <+: lane k (proc.meantLog meant)

variable {read : SysCall → μ → π} {meant : κ → μ → π}

theorem init_intact (dep : Deployment κ μ)
    (pages : ℤ → ℕ → ℕ → TableEntry) (memory : μ) :
    (init dep pages memory).Intact read meant := by
  intro k n call hpending
  simp [Pending, init, queuedOn] at hpending

/-- The pending calls stay intact as long as no step disturbs what one of them
reads and a new call can be read back. -/
theorem Intact.afterTraffic (hintact : proc.Intact read meant)
    {action : ProcessAction κ ω}
    (htraffic : Traffic dep apply proc action next)
    (htracked : proc.Tracked dep) (hnext : next.Tracked dep)
    (hkept : ∀ k n call, proc.Pending k n call →
      next.Pending k n call →
        read call.entry next.sys.memory =
          read call.entry proc.sys.memory)
    (hnew : ∀ source, action = .library (.call source) →
      proc.sys.user = .ready →
        read (proc.sys.prepared dep source).1
            (proc.sys.prepared dep source).2 =
          meant source proc.sys.memory) :
    next.Intact read meant := by
  intro k n call hpending
  rcases htraffic.pending_cases htracked hnext hpending with
    hbefore | ⟨source, haction, hready, hmemory, _, _, rfl⟩
  · rw [hkept k n call hbefore hpending]
    exact hintact k n call hbefore
  · rw [hmemory]
    exact hnew source haction hready

theorem init_conveys (dep : Deployment κ μ)
    (pages : ℤ → ℕ → ℕ → TableEntry) (memory : μ) :
    (init dep pages memory).Conveys read meant := by
  intro k
  exact List.prefix_refl _

theorem meantLog_lane (proc : Process κ μ) (k : ℤ) :
    lane k (proc.meantLog meant) =
      (proc.queuedOn k).map fun call =>
        (call.entry, meant call.source call.memory) :=
  lane_map k Queued.ring _ proc.queued

theorem Tracked.sentLog_length (htracked : proc.Tracked dep) (k : ℤ) :
    (lane k (proc.sentLog read)).length =
      (proc.sys.ring k).executed.length := by
  rw [htracked.recorded.executed_eq k]
  unfold sentLog System.taken
  rw [lane_map k Executed.ring, lane_map k Executed.ring Executed.entry,
    List.length_map, List.length_map]

namespace Conveys

def bank (hconveys : proc.Conveys read meant) :
    FifoBank ℤ (SysCall × π) where
  sent := proc.meantLog meant
  taken := proc.sentLog read
  delivers := hconveys

theorem afterExecute (hconveys : proc.Conveys read meant)
    (htracked : proc.Tracked dep) (hnext : next.Tracked dep)
    (horder : next.sys.DrainsInOrder)
    (hintact : proc.Intact read meant) {k : ℤ}
    (hmoves : System.RingMoves dep proc.sys next.sys k .execute)
    (hexecuted : next.sys.executed = proc.sys.executed ++
      [⟨k, (proc.sys.ring k).cursorEntry.call, proc.sys.memory⟩])
    (hqueued : next.queued = proc.queued) :
    next.Conveys read meant := by
  obtain ⟨call, hcall, hentry⟩ :=
    hnext.front_of_order horder hqueued hmoves
  have hfront : hconveys.bank.front k =
      some (call.entry, meant call.source call.memory) := by
    unfold FifoBank.front bank
    rw [htracked.sentLog_length k, meantLog_lane, List.getElem?_map,
      hcall]
    rfl
  have hsent : next.sentLog read = proc.sentLog read ++
      [(k, call.entry, meant call.source call.memory)] := by
    unfold sentLog
    rw [hexecuted, List.map_append,
      ← hintact k _ call ⟨hcall, le_rfl⟩, ← hentry]
    rfl
  have hmeant : next.meantLog meant = proc.meantLog meant := by
    unfold meantLog
    rw [hqueued]
  intro n
  rw [hsent, hmeant]
  exact (hconveys.bank.take k _ hfront).delivers n

theorem afterTraffic (hconveys : proc.Conveys read meant)
    (htracked : proc.Tracked dep) (hnext : next.Tracked dep)
    (horder : next.sys.DrainsInOrder)
    (hintact : proc.Intact read meant)
    {action : ProcessAction κ ω}
    (htraffic : Traffic dep apply proc action next) :
    next.Conveys read meant := by
  cases htraffic with
  | other _ hexecuted _ _ hqueued =>
      intro k
      unfold sentLog meantLog
      rw [hexecuted, hqueued]
      exact hconveys k
  | execute k expired sysret hmoves _ hexecuted _ _ hqueued =>
      exact hconveys.afterExecute htracked hnext horder hintact hmoves
        hexecuted hqueued
  | call source _ _ _ _ hexecuted _ _ hqueued =>
      intro k
      unfold sentLog meantLog
      rw [hexecuted, hqueued, List.map_append, lane_append]
      exact (hconveys k).trans (List.prefix_append _ _)
  | store value _ => exact hconveys

end Conveys

end Process

end Saio
