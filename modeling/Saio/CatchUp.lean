import Saio.Transparency
import Saio.WorkerService
import Saio.IndexBounds
import Mathlib.Tactic

/-!
# The kernel catches up

Carrying out the pending calls would lead to the kernel of direct calls; that
the workers do carry them out is another matter.  A program that makes no more
calls leaves every worker with a bounded amount of work.  Unless one of them
has not been given its steps yet, although it could take the next one, the
kernel has become the one of the program without the library, whatever the
program has done to its memory or its segment in the meantime.
-/

namespace Saio

open FifoBank

variable {κ μ ω π ς : Type} {dep : Deployment κ μ} {access : FlagAccess}
  {apply : ω → μ → μ} {meaning : CallMeaning κ μ π ς}
  {sys later : System κ μ} {k : ℤ}

/-! ## Steps that leave the workers alone -/

namespace System

theorem Serving.of_sameWorkers {p : ℕ} (hserving : sys.Serving dep k p)
    (hsame : later.workers = sys.workers) : later.Serving dep k p := by
  obtain ⟨hgood, haligned, hawake, hreturned⟩ := hserving
  unfold AllGood ring at hgood
  rw [← hsame] at hgood haligned hawake
  refine ⟨hgood, haligned, hawake, ?_⟩
  unfold ring at *
  rwa [hsame]

theorem Served.of_sameWorkers {p : ℕ} (hserved : sys.Served k p)
    (hsame : later.workers = sys.workers) : later.Served k p := by
  unfold Served ring at *
  rwa [hsame]

end System

instance (user : UserPc κ) : Decidable user.Outside :=
  match user with
  | .advancing _ _ _ | .marking _ => isFalse id
  | .ready | .startTest _ | .startSet _ | .startSetLoaded _ _
  | .wakeupTest _ | .wakeup _ | .startClear _ | .startClearLoaded _ _
  | .flushWait => isTrue trivial

instance (worker : KernelWorker) : Decidable worker.Awake :=
  inferInstanceAs (Decidable (_ ∨ _ → _ = _))

namespace SessionAction

def isOf (k : ℤ) : SessionAction κ ω → Bool
  | .process (.library action) => action.isOf k
  | _ => false

end SessionAction

namespace Session

variable {session next final : Session κ μ ς}

/-- A step is one of the system, or leaves the workers and the control point of
the library as they are, as a call outside a segment does. -/
theorem step_system {action : SessionAction κ ω}
    (hstep : session.step dep access apply meaning action = some next) :
    (∃ inner, action = .process (.library inner) ∧
      session.proc.sys.step dep access inner = some next.proc.sys) ∨
    (∀ k, action.isOf k = false) ∧
      next.proc.sys.workers = session.proc.sys.workers ∧
      next.proc.sys.user = session.proc.sys.user := by
  cases action with
  | toggleRegion =>
      rw [step_toggleRegion hstep]
      exact Or.inr ⟨fun _ => rfl, rfl, rfl⟩
  | process action =>
      by_cases hdirect : ∃ source, action = .library (.call source) ∧
          session.proc.sys.inSegment = false
      · obtain ⟨source, rfl, hsegment⟩ := hdirect
        obtain ⟨hsame, huser, _⟩ := step_outside hsegment hstep
        exact Or.inr ⟨fun _ => rfl, hsame.workers_eq, huser⟩
      · have hproc : session.proc.step dep access apply action =
            some next.proc := by
          refine step_inside ?_ hstep
          intro source hsource
          by_contra hnot
          exact hdirect ⟨source, hsource, by simpa using hnot⟩
        cases action with
        | store value =>
            obtain ⟨_, hnext⟩ := Process.step_store hproc
            rw [hnext]
            exact Or.inr ⟨fun _ => rfl, rfl, rfl⟩
        | library inner =>
            exact Or.inl ⟨inner, rfl, (Process.step_library hproc).1⟩

theorem step_worker_isSome {expired : Bool} {sysret : ℤ}
    (hsome : (session.proc.sys.step dep access
      (.worker k expired sysret)).isSome) :
    (session.step dep access apply meaning
      (.process (.library (.worker k expired sysret)))).isSome := by
  obtain ⟨sys, hsys⟩ := Option.isSome_iff_exists.mp hsome
  simp [step, Process.step, hsys]

def NonNegativeCalls (dep : Deployment κ μ) (session : Session κ μ ς) :
    SessionAction κ ω → Prop
  | .process (.library action) =>
      session.proc.sys.NonNegativeCalls dep action
  | _ => True

instance (dep : Deployment κ μ) (session : Session κ μ ς)
    (action : SessionAction κ ω) :
    Decidable (session.NonNegativeCalls dep action) :=
  match action with
  | .process (.library action) =>
      inferInstanceAs
        (Decidable (session.proc.sys.NonNegativeCalls dep action))
  | .process (.store _) | .toggleRegion =>
      inferInstanceAs (Decidable True)

/-- What holds along the runs: every queued call is on a ring that has a
worker. -/
structure Attended (dep : Deployment κ μ)
    (meaning : CallMeaning κ μ π ς) (session : Session κ μ ς) :
    Prop where
  settled : session.Settled dep meaning
  steady : session.proc.sys.Steady dep
  inSet : ∀ call ∈ session.proc.queued, dep.InSet call.ring

theorem Attended.afterStep (hattended : session.Attended dep meaning)
    (hshares : dep.SharesEntries) {action : SessionAction κ ω}
    (hundisturbed : session.Undisturbed dep meaning action)
    (hcalls : session.NonNegativeCalls dep action)
    (hstep : session.step dep access apply meaning action = some next) :
    next.Attended dep meaning := by
  have hsettled := hattended.settled.afterStep hshares hundisturbed hstep
  refine ⟨hsettled, ?_, ?_⟩
  · rcases step_system hstep with ⟨inner, rfl, hsys⟩ | ⟨_, hsame, _⟩
    · exact hattended.steady.afterStep hundisturbed.noOverrun hsys
    · refine ⟨hsettled.tracked.recorded, hsettled.tracked.good, ?_, ?_⟩
      · rw [hsame]
        exact hattended.steady.aligned
      · unfold System.ScansFromFirst
        rw [hsame]
        exact hattended.steady.scans
  · cases step_move hstep with
    | queued source _ _ hqueued _ _ =>
        intro call hmem
        rw [hqueued, List.mem_append, List.mem_singleton] at hmem
        rcases hmem with hbefore | rfl
        · exact hattended.inSet call hbefore
        · exact dep.inSet_ringIndex hcalls
    | direct _ _ _ hqueued _ _ =>
        rw [hqueued]
        exact hattended.inSet
    | executed _ _ _ _ _ hqueued _ _ =>
        rw [hqueued]
        exact hattended.inSet
    | other _ _ hqueued _ _ =>
        rw [hqueued]
        exact hattended.inSet

end Session

end Saio
