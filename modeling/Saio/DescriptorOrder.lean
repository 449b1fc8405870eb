import Saio.SystemDelivery
import Saio.Wrappers
import Mathlib.Tactic

/-!
# Program order on one descriptor

The lanes of the bank progress independently, so two calls keep their order if
and because they are on the same ring.  The lighttpd wrappers route a call by
its first argument, and all calls on one socket are in one lane.

A `sendfile` mentions two descriptors.  The nginx wrappers route it by the one
it reads from, while `close` and `write` on the one it writes to may be routed
to another ring and overtake it.  Order holds as long as any two issued calls
that mention a common descriptor are routed to the same ring.
-/

namespace Saio

open FifoBank SystemAction

namespace System

variable {κ μ : Type} {dep : Deployment κ μ} {sys : System κ μ}

/-- The entries issued for the calls that meet the condition. -/
def issuedFor (sys : System κ μ) (condition : κ → Prop)
    [DecidablePred condition] : List SysCall :=
  (sys.issued.filter fun record => condition record.source).map
    Issued.entry

def executedWith (sys : System κ μ) (condition : SysCall → Prop)
    [DecidablePred condition] : List SysCall :=
  (sys.executed.map Executed.entry).filter fun entry => condition entry

/-- The cursor of every ring of the set has reached the tail. -/
def Drained (dep : Deployment κ μ) (sys : System κ μ) : Prop :=
  ∀ k, dep.InSet k → (sys.ring k).cursor = (sys.ring k).table.tail

variable {ofCall : κ → Prop} {ofEntry : SysCall → Prop}
  [DecidablePred ofCall] [DecidablePred ofEntry]

theorem sent_filter
    (hagree : ∀ record ∈ sys.issued,
      ofEntry record.entry ↔ ofCall record.source) :
    (sys.sent.map Prod.snd).filter (fun entry => ofEntry entry) =
      sys.issuedFor ofCall := by
  unfold sent issuedFor
  rw [List.map_map, List.filter_map]
  congr 1
  apply List.filter_congr
  intro record hmem
  simpa using hagree record hmem

theorem taken_filter :
    (sys.taken.map Prod.snd).filter (fun entry => ofEntry entry) =
      sys.executedWith ofEntry := by
  unfold taken executedWith
  rw [List.map_map]
  rfl

/-- Calls that are all routed to one ring are executed in issue order. -/
theorem Implements.executedWith_prefix {bank : FifoBank ℤ SysCall}
    (himplements : sys.Implements dep bank)
    (hagree : ∀ record ∈ sys.issued,
      ofEntry record.entry ↔ ofCall record.source)
    {k : ℤ}
    (hroute : ∀ record ∈ sys.issued,
      ofCall record.source → record.ring = k) :
    sys.executedWith ofEntry <+: sys.issuedFor ofCall ∧
      ((sys.ring k).cursor = (sys.ring k).table.tail →
        sys.executedWith ofEntry = sys.issuedFor ofCall) := by
  obtain ⟨hrecorded, hgood, hsent, htaken⟩ := himplements
  have hlanes := bank.delivers k
  have hconfined : Confined ofEntry k bank.sent := by
    rw [hsent]
    rintro item hmem hitem
    unfold sent at hmem
    obtain ⟨record, hrecord, rfl⟩ := List.mem_map.mp hmem
    exact hroute record hrecord ((hagree record hrecord).mp hitem)
  rw [← sent_filter hagree, ← taken_filter, ← hsent, ← htaken]
  refine ⟨bank.filter_prefix_of_confined hconfined, ?_⟩
  intro hcursor
  apply bank.filter_eq_of_drained hconfined
  have hlength := (hgood k).executed_length_of_cursor hcursor
  apply hlanes.eq_of_length
  rw [hsent, htaken, ← hrecorded.issued_eq, ← hrecorded.executed_eq,
    List.length_map]
  exact hlength

end System

theorem Deployment.inSet_ringIndex {κ μ : Type}
    (dep : Deployment κ μ) {fd : ℤ} (hfd : 0 ≤ fd) :
    dep.InSet (dep.ringIndex fd) := by
  have hratio : (0 : ℤ) < dep.ratio := by
    exact_mod_cast dep.ratio_pos
  unfold Deployment.InSet Deployment.ringIndex
  rw [Int.tmod_eq_emod_of_nonneg hfd]
  have hnonneg := Int.emod_nonneg fd hratio.ne'
  have hlt := Int.emod_lt_of_pos fd hratio
  omega

/-! ## lighttpd -/

def SetConfig.lighty (cfg : SetConfig) (arch : Architecture)
    (offArr : ℤ) : Deployment LightyCall LightyMemory :=
  ⟨cfg, Saio.lighty arch offArr⟩

/-- The entry has the kind and the arguments of the call; the offset is passed
in a cell of `off_arr`. -/
def LightyCall.CarriedBy (cfg : TableConfig) (arch : Architecture)
    (offArr idx : ℤ) : LightyCall → SysCall → Prop
  | .shutdown fd how, entry => entry = shutdownEntry arch fd how
  | .sendfile64 outFd inFd _ count, entry =>
      ∃ i j, entry =
        sendfileEntry arch outFd inFd (offArrCell cfg offArr idx i j) count

/-- The first argument of the entry is the socket. -/
def SysCall.OnSocket (s : ℤ) (entry : SysCall) : Prop :=
  entry.args.head? = some s

instance (s : ℤ) : DecidablePred (SysCall.OnSocket s) := fun entry =>
  inferInstanceAs (Decidable (entry.args.head? = some s))

/-- The call is made on the socket. -/
def LightyCall.OnSocket (s : ℤ) (call : LightyCall) : Prop :=
  call.descriptor = s

instance (s : ℤ) : DecidablePred (LightyCall.OnSocket s) := fun call =>
  inferInstanceAs (Decidable (call.descriptor = s))

section Lighty

variable {cfg : SetConfig} {arch : Architecture} {offArr : ℤ}
  {access : FlagAccess} {pages : ℤ → ℕ → ℕ → TableEntry}
  {memory : LightyMemory} {actions : List (SystemAction LightyCall)}
  {final : System LightyCall LightyMemory}

theorem LightyCall.carriedBy_of_builds {source : LightyCall} {idx : ℤ}
    {entry : SysCall}
    (hbuilds : (cfg.lighty arch offArr).Builds source idx entry) :
    source.CarriedBy cfg.toTableConfig arch offArr idx entry := by
  obtain ⟨_, memory, i, j, rfl⟩ := hbuilds
  cases source with
  | shutdown fd how => rfl
  | sendfile64 outFd inFd offset count => exact ⟨i, j, rfl⟩

theorem LightyCall.CarriedBy.onSocket_iff {source : LightyCall}
    {idx s : ℤ} {entry : SysCall}
    (hcarried : source.CarriedBy cfg.toTableConfig arch offArr idx entry) :
    entry.OnSocket s ↔ source.OnSocket s := by
  cases source with
  | shutdown fd how =>
      unfold LightyCall.CarriedBy at hcarried
      subst entry
      simp [SysCall.OnSocket, shutdownEntry, LightyCall.OnSocket,
        LightyCall.descriptor]
  | sendfile64 outFd inFd offset count =>
      obtain ⟨i, j, rfl⟩ := hcarried
      simp [SysCall.OnSocket, sendfileEntry, LightyCall.OnSocket,
        LightyCall.descriptor]

/-- On each socket the executed calls are a prefix of the issued ones, and all
of them once the rings are drained. -/
theorem lighty_socket_order (hshares : cfg.SharesEntries)
    (hrun : Transition.run (System.step (cfg.lighty arch offArr) access)
      ((cfg.lighty arch offArr).initWorker pages memory) actions =
        some final)
    (hsafe : Transition.StepsMeet
      (System.step (cfg.lighty arch offArr) access)
      (System.NoOverrun (cfg.lighty arch offArr))
      ((cfg.lighty arch offArr).initWorker pages memory) actions)
    (s : ℤ) :
    final.executedWith (SysCall.OnSocket s) <+:
        final.issuedFor (LightyCall.OnSocket s) ∧
      (∀ record ∈ final.issued,
        record.source.CarriedBy cfg.toTableConfig arch offArr
          record.ring record.entry) ∧
      (0 ≤ s → final.Drained (cfg.lighty arch offArr) →
        final.executedWith (SysCall.OnSocket s) =
          final.issuedFor (LightyCall.OnSocket s)) := by
  obtain ⟨bank, himplements⟩ :=
    System.run_implements hshares hrun hsafe
  have hcarried : ∀ record ∈ final.issued,
      record.source.CarriedBy cfg.toTableConfig arch offArr
        record.ring record.entry := by
    intro record hmem
    exact LightyCall.carriedBy_of_builds
      (himplements.1.built record hmem)
  have hroute : ∀ record ∈ final.issued,
      record.source.OnSocket s →
        record.ring = (cfg.lighty arch offArr).ringIndex s := by
    intro record hmem hsocket
    rw [(himplements.1.built record hmem).1, ← hsocket]
    rfl
  obtain ⟨hfront, hdrained⟩ :=
    himplements.executedWith_prefix
      (fun record hmem => (hcarried record hmem).onSocket_iff) hroute
  refine ⟨hfront, hcarried, ?_⟩
  intro hs hall
  exact hdrained (hall _ ((cfg.lighty arch offArr).inSet_ringIndex hs))

/-- Two calls on socket 4 and one on socket 5, drained by both workers. -/
def twoSockets : List (SystemAction LightyCall) :=
  segmentStart twoWorkerSet ++
    wholeCall (.sendfile64 4 9 1000 7) ++
    wholeCall (.shutdown 4 1) ++
    wholeCall (.shutdown 5 1) ++
    workerSteps 1 false 3 ++ workerSteps 0 false 5

theorem twoSockets_in_order :
    ∃ final,
      Transition.run
        (System.step (twoWorkerSet.lighty .x86 4096) .atomic)
        ((twoWorkerSet.lighty .x86 4096).initWorker
          (fun _ => blankMemory) (fun _ => 0)) twoSockets =
        some final ∧
      final.executedWith (SysCall.OnSocket 4) =
        [sendfileEntry .x86 4 9 4096 7, shutdownEntry .x86 4 1] := by
  have hrun :
      Transition.run
        (System.step (twoWorkerSet.lighty .x86 4096) .atomic)
        ((twoWorkerSet.lighty .x86 4096).initWorker
          (fun _ => blankMemory) (fun _ => 0)) twoSockets =
        some _ := rfl
  have horder := lighty_socket_order (by decide) hrun (by decide) 4
  refine ⟨_, hrun, horder.2.2 (by decide) ?_⟩
  rintro k ⟨hlow, hhigh⟩
  change 0 ≤ k at hlow
  change k < 2 at hhigh
  interval_cases k
  · rfl
  · rfl

/-- Two calls are drained and the head stands at `(0, 2)`; the transfer to
socket 4 is queued at `(1, 0)` and its `shutdown` at `(0, 0)`, and the worker
executes the whole batch. -/
def shortTransfer : List (SystemAction LightyCall) :=
  segmentStart shortTableSet ++
    wholeCall (.shutdown 5 1) ++ wholeCall (.shutdown 6 1) ++
    workerSteps 0 false 8 ++
    wholeCall (.shutdown 7 1) ++ wholeCall (.sendfile64 4 9 1000 7) ++
    wholeCall (.shutdown 8 1) ++ wholeCall (.shutdown 9 1) ++
    wholeCall (.shutdown 4 1) ++ workerSteps 0 false 14

/-- The transfer lies in the first page, where the worker does not look for
the second table, and only the `shutdown` is executed on socket 4. -/
theorem shortTransfer_skips_sendfile :
    ∃ final,
      Transition.run
        (System.step (shortTableSet.lighty .x86 4096) .atomic)
        ((shortTableSet.lighty .x86 4096).initWorker
          (fun _ => blankMemory) (fun _ => 0)) shortTransfer =
        some final ∧
      Transition.StepsMeet
        (System.step (shortTableSet.lighty .x86 4096) .atomic)
        (System.NoOverrun (shortTableSet.lighty .x86 4096))
        ((shortTableSet.lighty .x86 4096).initWorker
          (fun _ => blankMemory) (fun _ => 0)) shortTransfer ∧
      (final.ring 0).cursor = (final.ring 0).table.tail ∧
      final.executedWith (SysCall.OnSocket 4) =
        [shutdownEntry .x86 4 1] ∧
      final.issuedFor (LightyCall.OnSocket 4) =
        [sendfileEntry .x86 4 9 4120 7, shutdownEntry .x86 4 1] := by
  have hends :
      (Transition.run
          (System.step (shortTableSet.lighty .x86 4096) .atomic)
          ((shortTableSet.lighty .x86 4096).initWorker
            (fun _ => blankMemory) (fun _ => 0)) shortTransfer).map
        (fun final =>
          ((final.ring 0).cursor, (final.ring 0).table.tail,
            final.executedWith (SysCall.OnSocket 4),
            final.issuedFor (LightyCall.OnSocket 4))) =
      some ((0, 1), (0, 1), [shutdownEntry .x86 4 1],
        [sendfileEntry .x86 4 9 4120 7, shutdownEntry .x86 4 1]) := by
    decide +kernel
  obtain ⟨final, hrun, hfinal⟩ := Option.map_eq_some_iff.mp hends
  simp only [Prod.mk.injEq] at hfinal
  obtain ⟨hcursor, htail, hexecuted, hissued⟩ := hfinal
  exact ⟨final, hrun, by decide +kernel, hcursor.trans htail.symm,
    hexecuted, hissued⟩

end Lighty

/-! ## nginx -/

def SetConfig.ngx (cfg : SetConfig) (arch : Architecture) (mpool : ℤ) :
    Deployment NgxCall NgxMemory :=
  ⟨cfg, Saio.ngx arch mpool⟩

/-- The descriptors a call reads from or writes to. -/
def NgxCall.mentions : NgxCall → List ℤ
  | .close fd => [fd]
  | .sendfile64 outFd inFd _ _ => [outFd, inFd]
  | .write fd _ => [fd]
  | .sendfile outFd inFd _ _ => [outFd, inFd]

def NgxCall.Mentions (d : ℤ) (call : NgxCall) : Prop :=
  d ∈ call.mentions

instance (d : ℤ) : DecidablePred (NgxCall.Mentions d) := fun call =>
  inferInstanceAs (Decidable (d ∈ call.mentions))

/-- The first argument of every nginx entry is a descriptor, and so is the
second one of a `sendfile`. -/
def SysCall.Mentions (arch : Architecture) (d : ℤ) (entry : SysCall) :
    Prop :=
  entry.args.head? = some d ∨
    entry.sysnum = EscaCall.sendfile.number arch ∧
      entry.args[1]? = some d

instance (arch : Architecture) (d : ℤ) :
    DecidablePred (SysCall.Mentions arch d) := fun entry =>
  inferInstanceAs (Decidable (entry.args.head? = some d ∨
    entry.sysnum = EscaCall.sendfile.number arch ∧
      entry.args[1]? = some d))

/-- Any two calls that mention a common descriptor are routed to the same
ring. -/
def RoutedTogether (dep : Deployment NgxCall NgxMemory)
    (calls : List NgxCall) : Prop :=
  ∀ first ∈ calls, ∀ second ∈ calls, ∀ d,
    first.Mentions d → second.Mentions d →
      dep.route first = dep.route second

section Ngx

variable {cfg : SetConfig} {arch : Architecture} {mpool : ℤ}
  {access : FlagAccess} {pages : ℤ → ℕ → ℕ → TableEntry}
  {memory : NgxMemory} {actions : List (SystemAction NgxCall)}
  {final : System NgxCall NgxMemory}

theorem sendfileEntry_mentions
    (arch : Architecture) (outFd inFd offset count d : ℤ) :
    (sendfileEntry arch outFd inFd offset count).Mentions arch d ↔
      d = outFd ∨ d = inFd := by
  simp [SysCall.Mentions, sendfileEntry, eq_comm]

theorem SysCall.mentions_of_not_sendfile {entry : SysCall}
    {kind : EscaCall} (hnumber : entry.sysnum = kind.number arch)
    (hkind : kind ≠ .sendfile) (d : ℤ) :
    entry.Mentions arch d ↔ entry.args.head? = some d := by
  unfold SysCall.Mentions
  constructor
  · rintro (hfirst | ⟨hsendfile, _⟩)
    · exact hfirst
    · rw [hnumber] at hsendfile
      exact absurd (EscaCall.number_injective arch hsendfile) hkind
  · exact Or.inl

theorem closeEntry_mentions (arch : Architecture) (fd d : ℤ) :
    (closeEntry arch fd).Mentions arch d ↔ d = fd := by
  have hnumber :
      (closeEntry arch fd).sysnum = EscaCall.close.number arch := rfl
  rw [SysCall.mentions_of_not_sendfile hnumber (by decide)]
  simp [closeEntry, eq_comm]

theorem writeEntry_mentions (arch : Architecture)
    (fd buf count d : ℤ) :
    (writeEntry arch fd buf count).Mentions arch d ↔ d = fd := by
  have hnumber :
      (writeEntry arch fd buf count).sysnum =
        EscaCall.write.number arch := rfl
  rw [SysCall.mentions_of_not_sendfile hnumber (by decide)]
  simp [writeEntry, eq_comm]

theorem NgxCall.mentions_iff_of_builds {source : NgxCall} {idx : ℤ}
    {entry : SysCall}
    (hbuilds : (cfg.ngx arch mpool).Builds source idx entry) (d : ℤ) :
    entry.Mentions arch d ↔ source.Mentions d := by
  obtain ⟨_, memory, i, j, rfl⟩ := hbuilds
  cases source with
  | close fd =>
      change (closeEntry arch fd).Mentions arch d ↔ d ∈ [fd]
      rw [closeEntry_mentions, List.mem_singleton]
  | sendfile64 outFd inFd offset count =>
      change (sendfileEntry arch outFd inFd 0 count).Mentions arch d ↔
        d ∈ [outFd, inFd]
      rw [sendfileEntry_mentions, List.mem_pair]
  | write fd buf =>
      change (writeEntry arch fd _ _).Mentions arch d ↔ d ∈ [fd]
      rw [writeEntry_mentions, List.mem_singleton]
  | sendfile outFd inFd offset count =>
      change (sendfileEntry arch outFd inFd 0 count).Mentions arch d ↔
        d ∈ [outFd, inFd]
      rw [sendfileEntry_mentions, List.mem_pair]

/-- For each descriptor the executed calls that mention it are a prefix of the
issued ones, as long as calls with a common descriptor share a ring and each
ring is drained in order. -/
theorem ngx_descriptor_order
    (hrun : Transition.run (System.step (cfg.ngx arch mpool) access)
      ((cfg.ngx arch mpool).initWorker pages memory) actions =
        some final)
    (hsafe : Transition.StepsMeet
      (System.step (cfg.ngx arch mpool) access)
      (System.NoOverrun (cfg.ngx arch mpool))
      ((cfg.ngx arch mpool).initWorker pages memory) actions)
    (horder : final.DrainsInOrder)
    (htogether : RoutedTogether (cfg.ngx arch mpool)
      (final.issued.map Issued.source))
    (d : ℤ) :
    final.executedWith (SysCall.Mentions arch d) <+:
      final.issuedFor (NgxCall.Mentions d) := by
  obtain ⟨hrecorded, hgood⟩ := System.run_recorded hrun hsafe
  obtain ⟨bank, himplements⟩ := hrecorded.implements hgood horder
  have hbuilt := himplements.1.built
  have hlane : ∃ k, ∀ record ∈ final.issued,
      record.source.Mentions d → record.ring = k := by
    by_cases hany : ∃ first ∈ final.issued, first.source.Mentions d
    · obtain ⟨first, hfirst, hmentions⟩ := hany
      refine ⟨first.ring, ?_⟩
      intro record hmem hrecord
      rw [(hbuilt record hmem).1, (hbuilt first hfirst).1]
      exact htogether _ (List.mem_map_of_mem hmem) _
        (List.mem_map_of_mem hfirst) d hrecord hmentions
    · refine ⟨0, ?_⟩
      intro record hmem hrecord
      exact absurd ⟨record, hmem, hrecord⟩ hany
  obtain ⟨k, hroute⟩ := hlane
  exact
    (himplements.executedWith_prefix
      (fun record hmem =>
        NgxCall.mentions_iff_of_builds (hbuilt record hmem) d)
      hroute).1

/-- A transfer to descriptor 4 and its `close`, with the file on a descriptor
of the same residue; only the first of them is executed. -/
def sharedRing : List (SystemAction NgxCall) :=
  segmentStart twoWorkerSet ++
    wholeCall (.sendfile64 4 2 0 7) ++
    wholeCall (.close 4) ++
    workerSteps 0 false 3

theorem sharedRing_in_order :
    ∃ final,
      Transition.run (System.step (twoWorkerSet.ngx .x86 4096) .atomic)
        ((twoWorkerSet.ngx .x86 4096).initWorker
          (fun _ => blankMemory) ⟨fun _ => 0, 0⟩) sharedRing =
        some final ∧
      final.executed.length = 1 ∧
      final.executedWith (SysCall.Mentions .x86 4) <+:
        final.issuedFor (NgxCall.Mentions 4) := by
  have hrun :
      Transition.run (System.step (twoWorkerSet.ngx .x86 4096) .atomic)
        ((twoWorkerSet.ngx .x86 4096).initWorker
          (fun _ => blankMemory) ⟨fun _ => 0, 0⟩) sharedRing =
        some _ := rfl
  have hsafe :
      Transition.StepsMeet
        (System.step (twoWorkerSet.ngx .x86 4096) .atomic)
        (System.NoOverrun (twoWorkerSet.ngx .x86 4096))
        ((twoWorkerSet.ngx .x86 4096).initWorker
          (fun _ => blankMemory) ⟨fun _ => 0, 0⟩) sharedRing := by
    decide
  have horder := (System.run_recorded hrun hsafe).2.drainsInOrder
    (by decide)
  refine ⟨_, hrun, rfl, ngx_descriptor_order hrun hsafe horder ?_ 4⟩
  have hring : ∀ call ∈ [NgxCall.sendfile64 4 2 0 7, .close 4],
      (twoWorkerSet.ngx .x86 4096).route call = 0 := by
    simp only [List.mem_cons, List.not_mem_nil, or_false]
    rintro call (rfl | rfl) <;> rfl
  intro first hfirst second hsecond _ _ _
  rw [hring first hfirst, hring second hsecond]

/-- The file is on descriptor 3: the transfer to descriptor 4 is queued on
ring 1 and its `close` on ring 0. -/
def splitRings : List (SystemAction NgxCall) :=
  segmentStart twoWorkerSet ++
    wholeCall (.sendfile64 4 3 0 7) ++
    wholeCall (.close 4) ++
    workerSteps 0 false 3

/-- The descriptor is closed before the transfer to it. -/
theorem splitRings_close_overtakes :
    ∃ final,
      Transition.run (System.step (twoWorkerSet.ngx .x86 4096) .atomic)
        ((twoWorkerSet.ngx .x86 4096).initWorker
          (fun _ => blankMemory) ⟨fun _ => 0, 0⟩) splitRings =
        some final ∧
      Transition.StepsMeet
        (System.step (twoWorkerSet.ngx .x86 4096) .atomic)
        (System.NoOverrun (twoWorkerSet.ngx .x86 4096))
        ((twoWorkerSet.ngx .x86 4096).initWorker
          (fun _ => blankMemory) ⟨fun _ => 0, 0⟩) splitRings ∧
      final.DrainsInOrder ∧
      final.issuedFor (NgxCall.Mentions 4) =
        [sendfileEntry .x86 4 3 0 7, closeEntry .x86 4] ∧
      final.executedWith (SysCall.Mentions .x86 4) =
        [closeEntry .x86 4] ∧
      ¬ final.executedWith (SysCall.Mentions .x86 4) <+:
        final.issuedFor (NgxCall.Mentions 4) := by
  have hrun :
      Transition.run (System.step (twoWorkerSet.ngx .x86 4096) .atomic)
        ((twoWorkerSet.ngx .x86 4096).initWorker
          (fun _ => blankMemory) ⟨fun _ => 0, 0⟩) splitRings =
        some _ := rfl
  have hsafe :
      Transition.StepsMeet
        (System.step (twoWorkerSet.ngx .x86 4096) .atomic)
        (System.NoOverrun (twoWorkerSet.ngx .x86 4096))
        ((twoWorkerSet.ngx .x86 4096).initWorker
          (fun _ => blankMemory) ⟨fun _ => 0, 0⟩) splitRings := by
    decide
  have horder := (System.run_recorded hrun hsafe).2.drainsInOrder
    (by decide)
  refine ⟨_, hrun, hsafe, horder, rfl, rfl, ?_⟩
  change ¬ [closeEntry .x86 4] <+:
    [sendfileEntry .x86 4 3 0 7, closeEntry .x86 4]
  decide

end Ngx

end Saio
