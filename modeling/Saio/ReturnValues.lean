import Saio.Transparency
import Mathlib.Tactic

/-!
# What the calls return

A call outside a segment returns what the kernel returns.  A wrapper inside a
segment does not wait for the kernel: it assumes success and returns the number
of bytes, or zero.  What the kernel has really returned goes to the `sysret` of
the entry, an `unsigned` that nobody reads.

A dialogue adds these values to a session: what every call has told the
program, and what was due, that is, what the call would have returned to the
program without the library.  As long as calls on different sockets do not
notice each other, a call outside a segment tells what was due, a call inside
one tells what its wrapper assumes, and the `sysret` of every executed entry
holds the low bits of what was due.  Hence the program is misled by exactly
those executed calls whose `sysret` is not what it was told, as far as the
values fit into an `int`.
-/

namespace Saio

open FifoBank

structure ReturnValues (κ μ π ς : Type) where
  /-- What the kernel returns. -/
  result : π → ς → ℤ
  /-- What the wrapper returns inside a segment. -/
  assumed : κ → μ → ℤ

structure Answer (π : Type) where
  ask : π
  /-- What the call has returned to the program. -/
  told : ℤ
  /-- What it would have returned to the program without the library. -/
  due : ℤ

structure Dialogue (κ μ π ς : Type) where
  session : Session κ μ ς
  direct : List (Answer π)
  /-- The answers to queued calls, with their rings. -/
  queued : List (ℤ × Answer π)
  /-- What the workers have stored in `sysret`, with their rings. -/
  sysrets : List (ℤ × BitVec 32)

variable {κ μ ω π ς : Type} {dep : Deployment κ μ} {access : FlagAccess}
  {apply : ω → μ → μ} {meaning : CallMeaning κ μ π ς}
  {values : ReturnValues κ μ π ς}

namespace Dialogue

variable {dialogue next final : Dialogue κ μ π ς}

/-- The answer to a call that tells `told`. -/
def answer (meaning : CallMeaning κ μ π ς)
    (values : ReturnValues κ μ π ς) (dialogue : Dialogue κ μ π ς)
    (source : κ) (told : ℤ) : Answer π where
  ask := meaning.meant source dialogue.session.proc.sys.memory
  told := told
  due := values.result (meaning.meant source dialogue.session.plain)
    dialogue.session.unbatched

/-- A worker step executes at most one entry; what the kernel returns for it is
cut down to the `sysret` of the entry. -/
def step (dep : Deployment κ μ) (access : FlagAccess)
    (apply : ω → μ → μ) (meaning : CallMeaning κ μ π ς)
    (values : ReturnValues κ μ π ς) (dialogue : Dialogue κ μ π ς)
    (action : SessionAction κ ω) : Option (Dialogue κ μ π ς) :=
  let session := dialogue.session
  match session.step dep access apply meaning action with
  | none => none
  | some next =>
      match action with
      | .process (.library (.call source)) =>
          if session.proc.sys.inSegment then
            some { dialogue with
              session := next
              queued := dialogue.queued ++
                [(dep.route source, dialogue.answer meaning values source
                  (values.assumed source session.proc.sys.memory))] }
          else
            some { dialogue with
              session := next
              direct := dialogue.direct ++
                [dialogue.answer meaning values source
                  (values.result
                    (meaning.meant source session.proc.sys.memory)
                    session.kernel)] }
      | .process (.library (.worker k _ sysret)) =>
          match next.proc.sys.executed.drop
              session.proc.sys.executed.length with
          | [] => some { dialogue with session := next }
          | record :: _ =>
              if values.result (meaning.read record.entry record.memory)
                  session.kernel = sysret then
                some { dialogue with
                  session := next
                  sysrets := dialogue.sysrets ++
                    [(k, BitVec.ofInt 32 sysret)] }
              else none
      | _ => some { dialogue with session := next }

def init (dep : Deployment κ μ) (pages : ℤ → ℕ → ℕ → TableEntry)
    (memory : μ) (kernel : ς) : Dialogue κ μ π ς :=
  ⟨Session.init dep pages memory kernel, [], [], []⟩

/-! ## Inversion of a step -/

theorem step_session {action : SessionAction κ ω}
    (hstep : dialogue.step dep access apply meaning values action =
      some next) :
    dialogue.session.step dep access apply meaning action =
      some next.session := by
  simp only [step] at hstep
  split at hstep
  next => simp at hstep
  next session hsession =>
    rw [hsession]
    split at hstep
    next => split at hstep <;> cases hstep <;> rfl
    next =>
      split at hstep
      next => cases hstep; rfl
      next => split at hstep <;> cases hstep; rfl
    next => cases hstep; rfl

/-- A step that makes no call and executes nothing adds no answer. -/
theorem step_other {action : SessionAction κ ω}
    (hcall : ∀ source, action ≠ .process (.library (.call source)))
    (hexecuted : next.session.proc.sys.executed =
      dialogue.session.proc.sys.executed)
    (hstep : dialogue.step dep access apply meaning values action =
      some next) :
    next = { dialogue with session := next.session } := by
  have hsession := step_session hstep
  symm
  cases action with
  | toggleRegion =>
      simpa only [step, hsession, Option.some.injEq] using hstep
  | process action =>
      cases action with
      | store value =>
          simpa only [step, hsession, Option.some.injEq] using hstep
      | library action =>
          cases action with
          | call source => exact absurd rfl (hcall source)
          | worker k expired sysret =>
              simpa only [step, hsession, hexecuted, List.drop_length,
                Option.some.injEq] using hstep
          | batchStart | batchFlush | user =>
              simpa only [step, hsession, Option.some.injEq] using hstep

theorem step_executed {k sysret : ℤ} {expired : Bool}
    {entry : SysCall} {memory : μ}
    (hexecuted : next.session.proc.sys.executed =
      dialogue.session.proc.sys.executed ++ [⟨k, entry, memory⟩])
    (hstep : dialogue.step dep access apply meaning values
      (.process (.library (.worker k expired sysret)) :
        SessionAction κ ω) = some next) :
    values.result (meaning.read entry memory) dialogue.session.kernel =
        sysret ∧
      next = { dialogue with
        session := next.session
        sysrets := dialogue.sysrets ++
          [(k, BitVec.ofInt 32 sysret)] } := by
  have hsession := step_session hstep
  simp only [step, hsession, hexecuted, List.drop_left] at hstep
  split at hstep
  next hsysret => exact ⟨hsysret, (Option.some.inj hstep).symm⟩
  next => simp at hstep

theorem step_queued {source : κ}
    (hsegment : dialogue.session.proc.sys.inSegment = true)
    (hstep : dialogue.step dep access apply meaning values
      (.process (.library (.call source)) : SessionAction κ ω) =
        some next) :
    next = { dialogue with
      session := next.session
      queued := dialogue.queued ++
        [(dep.route source, dialogue.answer meaning values source
          (values.assumed source
            dialogue.session.proc.sys.memory))] } := by
  have hsession := step_session hstep
  simp only [step, hsession, if_pos hsegment, Option.some.injEq] at hstep
  exact hstep.symm

theorem step_direct {source : κ}
    (hsegment : dialogue.session.proc.sys.inSegment = false)
    (hstep : dialogue.step dep access apply meaning values
      (.process (.library (.call source)) : SessionAction κ ω) =
        some next) :
    next = { dialogue with
      session := next.session
      direct := dialogue.direct ++
        [dialogue.answer meaning values source
          (values.result
            (meaning.meant source dialogue.session.proc.sys.memory)
            dialogue.session.kernel)] } := by
  have hsession := step_session hstep
  simp only [step, hsession, hsegment, Bool.false_eq_true, if_false,
    Option.some.injEq] at hstep
  exact hstep.symm

/-- A call adds one answer, and nothing else does. -/
theorem step_answers {action : SessionAction κ ω}
    (hstep : dialogue.step dep access apply meaning values action =
      some next) :
    next.direct.length + next.queued.length =
      dialogue.direct.length + dialogue.queued.length +
        if action.IsCall then 1 else 0 := by
  by_cases hcall : action.IsCall
  · rw [if_pos hcall]
    obtain ⟨source, rfl⟩ := hcall.eq_call
    cases hsegment : dialogue.session.proc.sys.inSegment with
    | true =>
        rw [step_queued hsegment hstep]
        simp only [List.length_append, List.length_singleton]
        omega
    | false =>
        rw [step_direct hsegment hstep]
        simp only [List.length_append, List.length_singleton]
        omega
  · rw [if_neg hcall]
    simp only [step] at hstep
    split at hstep
    next => simp at hstep
    next =>
      split at hstep
      next => exact absurd trivial hcall
      next =>
        split at hstep
        next => cases hstep; rfl
        next => split at hstep <;> cases hstep; rfl
      next => cases hstep; rfl

/-- Every call of a run has an answer. -/
theorem run_answers {actions : List (SessionAction κ ω)}
    (hrun : Transition.run (step dep access apply meaning values)
      dialogue actions = some final) :
    final.direct.length + final.queued.length =
      dialogue.direct.length + dialogue.queued.length +
        actions.countP fun action => action.IsCall := by
  induction actions generalizing dialogue with
  | nil =>
      obtain rfl := Option.some.inj hrun
      rfl
  | cons action rest ih =>
      obtain ⟨next, hstep, hrest⟩ := Transition.run_cons_eq_some hrun
      rw [ih hrest, step_answers hstep, List.countP_cons]
      simp only [decide_eq_true_eq]
      omega

/-! ## One step -/

/-- The queued calls have told what their wrappers assume.  Every waiting call
will return what was due when it was made, the `sysret` of every executed one
was due, and so was what the calls outside segments have told. -/
structure Truthful (dep : Deployment κ μ) (meaning : CallMeaning κ μ π ς)
    (values : ReturnValues κ μ π ς) (dialogue : Dialogue κ μ π ς) :
    Prop where
  settled : dialogue.session.Settled dep meaning
  asked : dialogue.queued.map (Prod.map id Answer.ask) =
    dialogue.session.proc.askedLog meaning
  told : dialogue.queued.map (Prod.map id Answer.told) =
    dialogue.session.proc.queued.map fun call =>
      (call.ring, values.assumed call.source call.memory)
  foretells : Foretells (fun answer => meaning.effect answer.ask)
    (fun answer => values.result answer.ask) Answer.due
    ((waiting dialogue.session.proc.executedCount dialogue.queued).map
      Prod.snd) dialogue.session.kernel
  sysrets : ∀ k, lane k dialogue.sysrets =
    ((lane k dialogue.queued).map fun answer =>
      BitVec.ofInt 32 answer.due).take
      (dialogue.session.proc.executedCount k)
  direct : ∀ answer ∈ dialogue.direct, answer.told = answer.due

theorem init_truthful (dep : Deployment κ μ)
    (pages : ℤ → ℕ → ℕ → TableEntry) (memory : μ) (kernel : ς) :
    (init dep pages memory kernel).Truthful dep meaning values where
  settled := Session.init_settled dep pages memory kernel
  asked := rfl
  told := rfl
  foretells := trivial
  sysrets := fun _ => rfl
  direct := by simp [init]

namespace Truthful

theorem lane_asked (htruthful : dialogue.Truthful dep meaning values)
    (k : ℤ) :
    (lane k dialogue.queued).map Answer.ask =
      lane k (dialogue.session.proc.askedLog meaning) := by
  rw [← htruthful.asked, lane_map_snd]

theorem settles (htruthful : dialogue.Truthful dep meaning values) :
    Settles (fun answer : Answer π => meaning.effect answer.ask)
      dialogue.session.proc.executedCount dialogue.queued
      dialogue.session.kernel dialogue.session.unbatched := by
  rw [← settles_map_iff Answer.ask, htruthful.asked]
  exact htruthful.settled.settles

theorem executedCount_le
    (htruthful : dialogue.Truthful dep meaning values) (k : ℤ) :
    dialogue.session.proc.executedCount k ≤
      (lane k dialogue.queued).length := by
  have hle : dialogue.session.proc.executedCount k ≤
      (lane k (dialogue.session.proc.askedLog meaning)).length :=
    htruthful.settled.tracked.executedCount_le k
  rwa [← htruthful.lane_asked k, List.length_map] at hle

theorem mem_pendingLog (htruthful : dialogue.Truthful dep meaning values)
    {item : ℤ × Answer π}
    (hmem : item ∈ waiting dialogue.session.proc.executedCount
      dialogue.queued) :
    (item.1, item.2.ask) ∈
      dialogue.session.proc.pendingLog meaning := by
  unfold Process.pendingLog
  rw [← htruthful.asked, waiting_map]
  exact List.mem_map_of_mem hmem

variable {session : Session κ μ ς}

theorem afterQueued (htruthful : dialogue.Truthful dep meaning values)
    (hsettled : session.Settled dep meaning) (source : κ)
    (halike : meaning.meant source dialogue.session.plain =
      meaning.meant source dialogue.session.proc.sys.memory)
    (hexecuted : session.proc.sys.executed =
      dialogue.session.proc.sys.executed)
    (hkernel : session.kernel = dialogue.session.kernel)
    {entry : SysCall}
    (hqueued : session.proc.queued = dialogue.session.proc.queued ++
      [⟨source, dep.route source, entry,
        dialogue.session.proc.sys.memory⟩]) :
    ({ dialogue with
      session := session
      queued := dialogue.queued ++
        [(dep.route source, dialogue.answer meaning values source
          (values.assumed source
            dialogue.session.proc.sys.memory))] } :
      Dialogue κ μ π ς).Truthful dep meaning values := by
  have hcounts := Process.executedCount_of_same hexecuted
  refine ⟨hsettled, ?_, ?_, ?_, ?_, htruthful.direct⟩
  · rw [List.map_append, htruthful.asked,
      Process.askedLog_of_queued hqueued]
    rfl
  · rw [List.map_append, htruthful.told, hqueued, List.map_append]
    rfl
  · simp only [hcounts, hkernel]
    refine htruthful.foretells.afterSend htruthful.settles
      (htruthful.executedCount_le _) ?_
    simp only [answer, halike]
  · intro k
    rw [hcounts, lane_append, List.map_append,
      List.take_append_of_le_length]
    · exact htruthful.sysrets k
    · rw [List.length_map]
      exact htruthful.executedCount_le k

theorem afterDirect (htruthful : dialogue.Truthful dep meaning values)
    (hsettled : session.Settled dep meaning) (source : κ)
    (halike : meaning.meant source dialogue.session.plain =
      meaning.meant source dialogue.session.proc.sys.memory)
    (hexecuted : session.proc.sys.executed =
      dialogue.session.proc.sys.executed)
    (hkernel : session.kernel = meaning.effect
      (meaning.meant source dialogue.session.proc.sys.memory)
      dialogue.session.kernel)
    (hqueued : session.proc.queued = dialogue.session.proc.queued)
    (hindependent : ∀ pending ∈
      dialogue.session.proc.pendingLog meaning,
        Independent meaning.effect values.result pending.2
          (meaning.meant source dialogue.session.proc.sys.memory))
    {told : ℤ}
    (htold : told = values.result
      (meaning.meant source dialogue.session.proc.sys.memory)
      dialogue.session.kernel) :
    ({ dialogue with
      session := session
      direct := dialogue.direct ++
        [dialogue.answer meaning values source told] } :
      Dialogue κ μ π ς).Truthful dep meaning values := by
  have hcounts := Process.executedCount_of_same hexecuted
  have hwaiting : ∀ answer ∈ (waiting
      dialogue.session.proc.executedCount dialogue.queued).map Prod.snd,
      Independent (fun answer => meaning.effect answer.ask)
        (fun answer => values.result answer.ask) answer
        (dialogue.answer meaning values source told) := by
    intro answer hanswer
    obtain ⟨item, hitem, rfl⟩ := List.mem_map.mp hanswer
    have hpending := hindependent _ (htruthful.mem_pendingLog hitem)
    exact hpending.comap Answer.ask
  refine ⟨hsettled, ?_, ?_, ?_, ?_, ?_⟩
  · rw [htruthful.asked, Process.askedLog_of_same hqueued]
  · rw [htruthful.told, hqueued]
  · simp only [hcounts, hkernel]
    exact htruthful.foretells.afterEffect hwaiting
  · intro k
    rw [hcounts]
    exact htruthful.sysrets k
  · intro answer hmem
    rcases List.mem_append.mp hmem with hbefore | hnew
    · exact htruthful.direct answer hbefore
    · rw [List.mem_singleton.mp hnew]
      have hdue := result_perform_of_independent hwaiting
        dialogue.session.kernel
      rw [htruthful.settles] at hdue
      simp only [Dialogue.answer, halike, htold]
      exact hdue.symm

theorem afterExecuted (htruthful : dialogue.Truthful dep meaning values)
    (hsettled : session.Settled dep meaning) {k sysret : ℤ} {ask : π}
    (hfront : (lane k (dialogue.session.proc.askedLog meaning))[
      dialogue.session.proc.executedCount k]? = some ask)
    (hcounts : session.proc.executedCount =
      Function.update dialogue.session.proc.executedCount k
        (dialogue.session.proc.executedCount k + 1))
    (hkernel : session.kernel =
      meaning.effect ask dialogue.session.kernel)
    (hqueued : session.proc.queued = dialogue.session.proc.queued)
    (hsysret : values.result ask dialogue.session.kernel = sysret)
    (hindependent : LanesIndependent meaning.effect values.result
      dialogue.session.proc.executedCount
      (dialogue.session.proc.askedLog meaning)) :
    ({ dialogue with
      session := session
      sysrets := dialogue.sysrets ++ [(k, BitVec.ofInt 32 sysret)] } :
      Dialogue κ μ π ς).Truthful dep meaning values := by
  obtain ⟨answer, hanswer, rfl⟩ : ∃ answer,
      (lane k dialogue.queued)[
        dialogue.session.proc.executedCount k]? = some answer ∧
        answer.ask = ask := by
    rwa [← htruthful.lane_asked k, List.getElem?_map,
      Option.map_eq_some_iff] at hfront
  have hlanes : LanesIndependent (fun answer => meaning.effect answer.ask)
      (fun answer => values.result answer.ask)
      dialogue.session.proc.executedCount dialogue.queued := by
    intro first hfirst second hsecond hne
    have hpair := hindependent _ (htruthful.mem_pendingLog hfirst) _
      (htruthful.mem_pendingLog hsecond) hne
    exact hpair.comap Answer.ask
  obtain ⟨hdue, hforetells⟩ :=
    htruthful.foretells.afterTake hlanes hanswer
  refine ⟨hsettled, ?_, ?_, ?_, ?_, htruthful.direct⟩
  · rw [htruthful.asked, Process.askedLog_of_same hqueued]
  · rw [htruthful.told, hqueued]
  · simp only [hcounts, hkernel]
    exact hforetells
  · intro n
    rw [hcounts, lane_append, htruthful.sysrets n]
    by_cases hring : n = k
    · subst n
      rw [Function.update_self, lane_singleton_self, List.take_add_one,
        List.getElem?_map, hanswer, ← hsysret, hdue]
      rfl
    · rw [Function.update_of_ne hring,
        lane_singleton_of_ne (Ne.symm hring), List.append_nil]

end Truthful

end Dialogue

/-! ## Whole runs -/

/-- The step disturbs no pending call, and calls that may overtake each other
do not notice it. -/
structure Session.Unnoticed (dep : Deployment κ μ)
    (meaning : CallMeaning κ μ π ς) (values : ReturnValues κ μ π ς)
    (session : Session κ μ ς) (action : SessionAction κ ω) :
    Prop where
  undisturbed : session.Undisturbed dep meaning action
  rings : LanesIndependent meaning.effect values.result
    session.proc.executedCount (session.proc.askedLog meaning)
  direct : ∀ source, action = .process (.library (.call source)) →
    session.proc.sys.inSegment = false →
      ∀ pending ∈ session.proc.pendingLog meaning,
        Independent meaning.effect values.result pending.2
          (meaning.meant source session.proc.sys.memory)

namespace Dialogue

variable {dialogue next final : Dialogue κ μ π ς}

theorem Truthful.afterStep
    (htruthful : dialogue.Truthful dep meaning values)
    (hshares : dep.SharesEntries) {action : SessionAction κ ω}
    (hunnoticed : dialogue.session.Unnoticed dep meaning values action)
    (hstep : dialogue.step dep access apply meaning values action =
      some next) :
    next.Truthful dep meaning values := by
  have hsettled := htruthful.settled.afterStep hshares
    hunnoticed.undisturbed (step_session hstep)
  have halike := hunnoticed.undisturbed.alike
  cases Session.step_move (step_session hstep) with
  | queued source hsegment hexecuted hqueued hkernel _ =>
      rw [step_queued hsegment hstep]
      exact htruthful.afterQueued hsettled source halike hexecuted hkernel
        hqueued
  | direct source hsegment hexecuted hqueued hkernel _ =>
      rw [step_direct hsegment hstep]
      exact htruthful.afterDirect hsettled source halike hexecuted hkernel
        hqueued (hunnoticed.direct source rfl hsegment) rfl
  | executed k _ sysret hmoves hexecuted hqueued hkernel _ =>
      obtain ⟨hsysret, hnext⟩ := step_executed hexecuted hstep
      rw [hnext]
      exact htruthful.afterExecuted hsettled
        (htruthful.settled.tracked.asked_of_execute hshares
          hunnoticed.undisturbed.intact hmoves)
        (Process.executedCount_of_execute hexecuted) hkernel hqueued
        hsysret hunnoticed.rings
  | other hcall hexecuted hqueued hkernel _ =>
      rw [step_other hcall hexecuted hstep]
      have hcounts := Process.executedCount_of_same hexecuted
      refine ⟨hsettled, ?_, ?_, ?_, ?_, htruthful.direct⟩
      · rw [htruthful.asked, Process.askedLog_of_same hqueued]
      · rw [htruthful.told, hqueued]
      · simp only [hcounts, hkernel]
        exact htruthful.foretells
      · intro k
        rw [hcounts]
        exact htruthful.sysrets k

end Dialogue

/-- The value fits into an `int`. -/
def FitsInt (value : ℤ) : Prop :=
  -2 ^ 31 ≤ value ∧ value < 2 ^ 31

theorem toInt_of_fitsInt {value : ℤ} (hfits : FitsInt value) :
    toInt value = value := by
  obtain ⟨hlow, hhigh⟩ := hfits
  rw [toInt, BitVec.toInt_ofInt]
  exact Int.bmod_eq_of_le_mul_two (by push_cast; omega)
    (by push_cast; omega)

/-- Values of an `int` differ in their low bits. -/
theorem ofInt_eq_iff {first second : ℤ} (hfirst : FitsInt first)
    (hsecond : FitsInt second) :
    BitVec.ofInt 32 first = BitVec.ofInt 32 second ↔ first = second := by
  constructor
  · intro hequal
    have hvalue : toInt first = toInt second :=
      congrArg BitVec.toInt hequal
    rwa [toInt_of_fitsInt hfirst, toInt_of_fitsInt hsecond] at hvalue
  · exact congrArg (BitVec.ofInt 32)

namespace Dialogue

variable {dialogue next final : Dialogue κ μ π ς}

/-- What the program has been told in these steps, and what the workers have
left in `sysret`. -/
structure AnsweredAsDue (meaning : CallMeaning κ μ π ς)
    (values : ReturnValues κ μ π ς)
    (actions : List (SessionAction κ ω)) (dialogue : Dialogue κ μ π ς) :
    Prop where
  /-- Every call has been answered. -/
  answered : dialogue.direct.length + dialogue.queued.length =
    actions.countP fun action => action.IsCall
  /-- A call outside a segment has told what was due. -/
  direct : ∀ answer ∈ dialogue.direct, answer.told = answer.due
  /-- The queued calls have told what their wrappers assume. -/
  assumed : ∀ k,
    (lane k dialogue.queued).map (fun answer =>
        (answer.ask, answer.told)) =
      (dialogue.session.proc.queuedOn k).map fun call =>
        (meaning.meant call.source call.memory,
          values.assumed call.source call.memory)
  /-- Every executed entry has a `sysret`. -/
  executed : ∀ k, (lane k dialogue.sysrets).length =
    (dialogue.session.proc.sys.ring k).executed.length
  /-- It holds the low bits of what was due when the call was made. -/
  sysret : ∀ (k : ℤ) (n : ℕ) (answer : Answer π) (sysret : BitVec 32),
    (lane k dialogue.queued)[n]? = some answer →
      (lane k dialogue.sysrets)[n]? = some sysret →
        sysret = BitVec.ofInt 32 answer.due
  /-- The program was told the truth exactly if the `sysret` is what it was
  told. -/
  misled : ∀ (k : ℤ) (n : ℕ) (answer : Answer π) (sysret : BitVec 32),
    (lane k dialogue.queued)[n]? = some answer →
      (lane k dialogue.sysrets)[n]? = some sysret →
        FitsInt answer.told → FitsInt answer.due →
          (answer.told = answer.due ↔
            sysret = BitVec.ofInt 32 answer.told)

theorem Truthful.lane_told
    (htruthful : dialogue.Truthful dep meaning values) (k : ℤ) :
    (lane k dialogue.queued).map Answer.told =
      (dialogue.session.proc.queuedOn k).map fun call =>
        values.assumed call.source call.memory := by
  rw [← lane_map_snd, htruthful.told]
  exact lane_map k Queued.ring _ dialogue.session.proc.queued

theorem Truthful.sysret_eq
    (htruthful : dialogue.Truthful dep meaning values) {k : ℤ} {n : ℕ}
    {answer : Answer π} {sysret : BitVec 32}
    (hanswer : (lane k dialogue.queued)[n]? = some answer)
    (hsysret : (lane k dialogue.sysrets)[n]? = some sysret) :
    sysret = BitVec.ofInt 32 answer.due := by
  rw [htruthful.sysrets k, List.getElem?_take] at hsysret
  split at hsysret
  next =>
    rw [List.getElem?_map, hanswer] at hsysret
    exact (Option.some.inj hsysret).symm
  next => simp at hsysret

theorem Truthful.answeredAsDue {pages : ℤ → ℕ → ℕ → TableEntry}
    {memory : μ} {kernel : ς} {actions : List (SessionAction κ ω)}
    (htruthful : final.Truthful dep meaning values)
    (hrun : Transition.run (step dep access apply meaning values)
      (init dep pages memory kernel) actions = some final) :
    final.AnsweredAsDue meaning values actions where
  answered := by
    rw [run_answers hrun]
    exact Nat.zero_add _
  direct := htruthful.direct
  assumed := by
    intro k
    have hasked := htruthful.lane_asked k
    rw [Process.askedLog_lane] at hasked
    rw [← List.zip_map', ← List.zip_map', hasked, htruthful.lane_told k]
  executed := by
    intro k
    rw [htruthful.sysrets k, List.length_take, List.length_map,
      Nat.min_eq_left (htruthful.executedCount_le k),
      htruthful.settled.tracked.executedCount_eq k]
  sysret := fun _ _ _ _ => htruthful.sysret_eq
  misled := by
    intro k n answer sysret hanswer hsysret htold hdue
    rw [htruthful.sysret_eq hanswer hsysret, ofInt_eq_iff hdue htold,
      eq_comm]

/-- The answers are truthful, and the session meets the invariant. -/
structure TruthfulIn (invariant : Session κ μ ς → Prop)
    (dep : Deployment κ μ) (meaning : CallMeaning κ μ π ς)
    (values : ReturnValues κ μ π ς) (dialogue : Dialogue κ μ π ς) :
    Prop where
  inside : invariant dialogue.session
  truthful : dialogue.Truthful dep meaning values

/-- Dialogues of a run, from an invariant under which no allowed step is
noticed by a pending call. -/
theorem truthful_of_run
    {invariant : Session κ μ ς → Prop}
    {condition : Dialogue κ μ π ς → SessionAction κ ω → Prop}
    (hshares : dep.SharesEntries)
    (hunnoticed : ∀ dialogue action,
      dialogue.session.SettledIn invariant dep meaning →
        condition dialogue action →
          dialogue.session.Unnoticed dep meaning values action)
    (hpreserved : ∀ dialogue action session,
      dialogue.session.SettledIn invariant dep meaning →
        condition dialogue action →
          dialogue.session.step dep access apply meaning action =
            some session → invariant session)
    {pages : ℤ → ℕ → ℕ → TableEntry} {memory : μ} {kernel : ς}
    {actions : List (SessionAction κ ω)}
    (hstart : invariant (Session.init dep pages memory kernel))
    (hrun : Transition.run (step dep access apply meaning values)
      (init dep pages memory kernel) actions = some final)
    (hmeet : Transition.StepsMeet (step dep access apply meaning values)
      condition (init dep pages memory kernel) actions) :
    final.Truthful dep meaning values := by
  have hboth : TruthfulIn invariant dep meaning values final := by
    refine Transition.run_invariant ?_
      ⟨hstart, init_truthful dep pages memory kernel⟩ hrun hmeet
    rintro dialogue action next ⟨hinside, htruthful⟩ hcondition hstep
    have hsettled := htruthful.settled
    exact ⟨hpreserved _ action _ ⟨hinside, hsettled⟩ hcondition
        (step_session hstep),
      htruthful.afterStep hshares
        (hunnoticed _ action ⟨hinside, hsettled⟩ hcondition) hstep⟩
  exact hboth.truthful

end Dialogue

/-! ## Kernels in which sockets are independent -/

/-- What a call returns does not depend on the calls on other sockets. -/
def ReturnValues.BySocket (values : ReturnValues κ μ π ς)
    (meaning : CallMeaning κ μ π ς) (socket : π → ℤ) : Prop :=
  ∀ first second, socket first ≠ socket second → ∀ state,
    values.result first (meaning.effect second state) =
      values.result first state

section Sockets

variable {socket : π → ℤ}

theorem ReturnValues.BySocket.independent
    (hvalues : values.BySocket meaning socket)
    (hsockets : meaning.BySocket dep socket) {first second : π}
    (hne : socket first ≠ socket second) :
    Independent meaning.effect values.result first second where
  commute := hsockets.commute first second hne
  left := hvalues first second hne
  right := hvalues second first (Ne.symm hne)

theorem Session.unnoticed_of_bySocket {session : Session κ μ ς}
    (hsockets : meaning.BySocket dep socket)
    (hvalues : values.BySocket meaning socket)
    (htracked : session.proc.Tracked dep) {action : SessionAction κ ω}
    (hsafe : session.NoOverrun dep action)
    (hintact : session.proc.Intact meaning.read meaning.meant)
    (halike : session.Alike meaning action)
    (hidle : session.SocketIdle meaning socket action) :
    session.Unnoticed dep meaning values action where
  undisturbed :=
    undisturbed_of_bySocket hsockets htracked hsafe hintact halike hidle
  rings := by
    intro first hfirst second hsecond hne
    apply hvalues.independent hsockets
    exact hsockets.socket_ne_of_asked htracked
      (mem_of_mem_waiting hfirst) (mem_of_mem_waiting hsecond) hne
  direct := by
    rintro source rfl hsegment pending hmem
    exact hvalues.independent hsockets (hidle hsegment pending hmem)

/-- One ring leaves nothing to notice. -/
theorem Session.unnoticed_of_oneRing {session : Session κ μ ς}
    (hratio : dep.ratio = 1)
    (htracked : session.proc.Tracked dep) {action : SessionAction κ ω}
    (hsafe : session.NoOverrun dep action)
    (hintact : session.proc.Intact meaning.read meaning.meant)
    (halike : session.Alike meaning action)
    (hfree : session.PendingFree meaning action) :
    session.Unnoticed dep meaning values action where
  undisturbed :=
    undisturbed_of_oneRing hratio htracked hsafe hintact halike hfree
  rings := by
    intro first hfirst second hsecond hne
    exact absurd (htracked.pending_sameRing hratio hfirst hsecond) hne
  direct := by
    rintro source rfl hsegment pending hmem
    rw [hfree hsegment] at hmem
    exact absurd hmem List.not_mem_nil

/-- The answers are as due, as long as no ring is overrun, no memory behind a
pending entry is disturbed, both programs ask for the same calls, and no call
outside a segment is made on a socket with a pending call. -/
theorem Dialogue.answers_as_unbatched {final : Dialogue κ μ π ς}
    {pages : ℤ → ℕ → ℕ → TableEntry} {memory : μ} {kernel : ς}
    {actions : List (SessionAction κ ω)}
    (hshares : dep.SharesEntries)
    (hsockets : meaning.BySocket dep socket)
    (hvalues : values.BySocket meaning socket)
    (hrun : Transition.run (step dep access apply meaning values)
      (init dep pages memory kernel) actions = some final)
    (hmeet : Transition.StepsMeet (step dep access apply meaning values)
      (fun dialogue action => dialogue.session.NoOverrun dep action ∧
        dialogue.session.proc.Intact meaning.read meaning.meant ∧
        dialogue.session.Alike meaning action ∧
        dialogue.session.SocketIdle meaning socket action)
      (init dep pages memory kernel) actions) :
    final.AnsweredAsDue meaning values actions := by
  have htruthful : final.Truthful dep meaning values := by
    refine Transition.run_invariant ?_
      (init_truthful dep pages memory kernel) hrun hmeet
    rintro dialogue action next htruthful
      ⟨hsafe, hintact, halike, hidle⟩ hstep
    exact htruthful.afterStep hshares
      (Session.unnoticed_of_bySocket hsockets hvalues
        htruthful.settled.tracked hsafe hintact halike hidle) hstep
  exact htruthful.answeredAsDue hrun

end Sockets

/-! ## A kernel that refuses a write -/

def RedisCall.assumed (source : RedisCall) : ℤ := source.count

/-- A socket takes one write; another one returns `-EAGAIN`. -/
def oneWriteEach :
    ReturnValues RedisCall Unit (List ℤ) (ℤ → List (List ℤ)) where
  result := fun ask log =>
    if (log (firstArg ask)).isEmpty then ask.getLastD 0 else -11
  assumed := fun source _ => source.assumed

theorem oneWriteEach_bySocket :
    oneWriteEach.BySocket redisRecords firstArg := by
  intro first second hne log
  simp only [oneWriteEach, redisRecords, recordAt,
    Function.update_of_ne hne]

namespace Dialogue

/-- Of two writes to socket 4 the second one is refused, and a write to socket
5 is executed before both; the last write is made outside the segment. -/
def refusedWrite : List (SessionAction RedisCall Empty) :=
  (SystemAction.segmentStart twoWorkerSet ++
      SystemAction.wholeCall (RedisCall.mk 4 64 7) ++
      SystemAction.wholeCall (RedisCall.mk 5 96 3) ++
      SystemAction.wholeCall (RedisCall.mk 4 72 2) ++
      SystemAction.workerSteps 1 false 2 ++
      [SystemAction.worker 1 false 3] ++
      SystemAction.workerSteps 0 false 2 ++
      [SystemAction.worker 0 false 7, SystemAction.worker 0 false 0,
        SystemAction.worker 0 false (-11)]).map
      (fun action => .process (.library action)) ++
    [.toggleRegion, .process (.library (.call ⟨6, 128, 2⟩))]

theorem refusedWrite_answers :
    ∃ final,
      Transition.run
        (step Session.twoRedis .atomic noStore redisRecords oneWriteEach)
        (init Session.twoRedis (fun _ => blankMemory) () fun _ => [])
        refusedWrite = some final ∧
      lane 0 final.sysrets = [7, 4294967285] ∧
      (lane 0 final.queued).map Answer.told = [7, 2] ∧
      (lane 0 final.queued).map Answer.due = [7, -11] ∧
      final.AnsweredAsDue redisRecords oneWriteEach refusedWrite := by
  have hfacts :
      (Transition.run
        (step Session.twoRedis .atomic noStore redisRecords oneWriteEach)
        (init Session.twoRedis (fun _ => blankMemory) () fun _ => [])
        refusedWrite).map (fun final => (lane 0 final.sysrets,
          (lane 0 final.queued).map Answer.told,
          (lane 0 final.queued).map Answer.due)) =
        some ([7, 4294967285], [7, 2], [7, -11]) := by
    decide +kernel
  obtain ⟨final, hrun, hfinal⟩ := Option.map_eq_some_iff.mp hfacts
  simp only [Prod.mk.injEq] at hfinal
  exact ⟨final, hrun, hfinal.1, hfinal.2.1, hfinal.2.2,
    answers_as_unbatched (by decide) (redisRecords_bySocket _ _)
      oneWriteEach_bySocket hrun (by decide +kernel)⟩

end Dialogue

end Saio
