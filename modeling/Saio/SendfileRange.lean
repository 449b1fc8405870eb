import Saio.Transition
import Saio.Wrappers
import Mathlib.Tactic

/-!
# The file range of a deferred nginx transfer

A direct `sendfile` with an offset reads at that offset, advances it, and
leaves the position of the file alone; with a null offset it reads at the
position and advances that.  The nginx wrappers queue every transfer with a
null offset and do not look at the offset of the caller.

This file runs the two side by side, with every transfer in full and the
queued entries executed in issue order.  They agree exactly on the transfers
that have no offset or no bytes.
-/

namespace Saio

/-- A `sendfile64`, or a `sendfile` of the kTLS build; `offset` is the address
of the caller's file offset, or null. -/
structure SendfileCall where
  kTls : Bool
  outFd : ℤ
  inFd : ℤ
  offset : ℤ
  count : ℕ

namespace SendfileCall

def toNgx (call : SendfileCall) : NgxCall :=
  if call.kTls then .sendfile call.outFd call.inFd call.offset call.count
  else .sendfile64 call.outFd call.inFd call.offset call.count

def entry (arch : Architecture) (call : SendfileCall) : SysCall :=
  sendfileEntry arch call.outFd call.inFd 0 call.count

theorem prepare_toNgx (arch : Architecture) (mpool : ℤ)
    (cfg : TableConfig) (call : SendfileCall) (memory : NgxMemory)
    (idx : ℤ) (i j : ℕ) :
    (ngx arch mpool).prepare cfg call.toNgx memory idx i j =
      (call.entry arch, memory) := by
  unfold toNgx
  split <;> rfl

/-- The transfer reads at the file position, or reads nothing. -/
def AtPosition (call : SendfileCall) : Prop :=
  call.offset = 0 ∨ call.count = 0

end SendfileCall

/-! ## The system call -/

/-- The position of each open file, the file offsets in the memory of the
caller, and what each descriptor was sent. -/
structure Files where
  position : ℤ → ℤ
  offsets : ℤ → ℤ
  sent : List (ℤ × List UInt8)

variable {content : ℤ → ℤ → UInt8} {arch : Architecture}

def fileBytes (content : ℤ → ℤ → UInt8) (fd start : ℤ) (count : ℕ) :
    List UInt8 :=
  (List.range count).map fun n : ℕ => content fd (start + n)

namespace Files

variable {files : Files}

/-- `sendfile`, with a transfer of all `count` bytes. -/
def sysSendfile (content : ℤ → ℤ → UInt8) (files : Files)
    (outFd inFd offset : ℤ) (count : ℕ) : Files :=
  if offset = 0 then
    { files with
      position := Function.update files.position inFd
        (files.position inFd + count)
      sent := files.sent ++
        [(outFd, fileBytes content inFd (files.position inFd) count)] }
  else
    { files with
      offsets := Function.update files.offsets offset
        (files.offsets offset + count)
      sent := files.sent ++
        [(outFd, fileBytes content inFd (files.offsets offset) count)] }

def execute (content : ℤ → ℤ → UInt8) (files : Files) (entry : SysCall) :
    Files :=
  match entry.args with
  | [outFd, inFd, offset, count] =>
      files.sysSendfile content outFd inFd offset count.toNat
  | _ => files

def offsetOf (files : Files) (call : SendfileCall) : Option ℤ :=
  if call.offset = 0 then none else some (files.offsets call.offset)

def assign (files : Files) (offset value : ℤ) : Files :=
  { files with offsets := Function.update files.offsets offset value }

theorem execute_entry (call : SendfileCall) :
    files.execute content (call.entry arch) =
      files.sysSendfile content call.outFd call.inFd 0 call.count := by
  simp [execute, SendfileCall.entry, sendfileEntry]

theorem sysSendfile_assign (outFd inFd offset value : ℤ) (count : ℕ) :
    (files.assign offset value).sysSendfile content outFd inFd 0 count =
      (files.sysSendfile content outFd inFd 0 count).assign offset
        value := by
  simp [sysSendfile, assign]

theorem sysSendfile_of_atPosition {call : SendfileCall}
    (hposition : call.AtPosition) :
    files.sysSendfile content call.outFd call.inFd call.offset
        call.count =
      files.sysSendfile content call.outFd call.inFd 0 call.count := by
  rcases hposition with hnull | hempty
  · rw [hnull]
  · rw [hempty]
    unfold sysSendfile
    split
    next => simp
    next => simp [fileBytes]

end Files

/-! ## Direct and deferred transfers -/

inductive CallerOp
  | assign (offset value : ℤ)
  | sendfile (call : SendfileCall)

/-- `after` is the caller's offset after each call, and `queue` the entries
still to be executed. -/
structure Transfers where
  files : Files
  after : List (Option ℤ)
  queue : List SysCall

inductive DeferredAction
  | caller (op : CallerOp)
  | execute

def DeferredAction.callerOp : DeferredAction → Option CallerOp
  | .caller op => some op
  | .execute => none

namespace Transfers

variable {direct deferred final : Transfers}

def issue (content : ℤ → ℤ → UInt8) (transfers : Transfers) :
    CallerOp → Transfers
  | .assign offset value =>
      { transfers with files := transfers.files.assign offset value }
  | .sendfile call =>
      let files := transfers.files.sysSendfile content call.outFd
        call.inFd call.offset call.count
      { transfers with
        files := files
        after := transfers.after ++ [files.offsetOf call] }

def defer (arch : Architecture) (transfers : Transfers) :
    CallerOp → Transfers
  | .assign offset value =>
      { transfers with files := transfers.files.assign offset value }
  | .sendfile call =>
      { transfers with
        queue := transfers.queue ++ [call.entry arch]
        after := transfers.after ++ [transfers.files.offsetOf call] }

def step (content : ℤ → ℤ → UInt8) (arch : Architecture)
    (transfers : Transfers) : DeferredAction → Option Transfers
  | .caller op => some (transfers.defer arch op)
  | .execute =>
      match transfers.queue with
      | [] => none
      | entry :: rest =>
          some { transfers with
            files := transfers.files.execute content entry
            queue := rest }

def drained (content : ℤ → ℤ → UInt8) (transfers : Transfers) : Files :=
  transfers.queue.foldl (Files.execute content) transfers.files

/-- Whatever the schedule, the deferred transfers leave the caller's offsets
as the direct ones do, and send the same bytes once all are executed. -/
def SameTransfers (content : ℤ → ℤ → UInt8) (arch : Architecture)
    (files : Files) (ops : List CallerOp) : Prop :=
  ∀ (schedule : List DeferredAction) (final : Transfers),
    schedule.filterMap DeferredAction.callerOp = ops →
    Transition.run (step content arch) ⟨files, [], []⟩ schedule =
      some final →
      final.after = (ops.foldl (issue content) ⟨files, [], []⟩).after ∧
        (final.queue = [] →
          final.files.sent =
            (ops.foldl (issue content) ⟨files, [], []⟩).files.sent)

/-- Draining the deferred side gives the direct one. -/
structure Matches (content : ℤ → ℤ → UInt8) (arch : Architecture)
    (direct deferred : Transfers) : Prop where
  files_eq : direct.files = deferred.drained content
  offsets_eq : direct.files.offsets = deferred.files.offsets
  after_eq : direct.after = deferred.after
  entries : ∀ entry ∈ deferred.queue,
    ∃ call : SendfileCall, entry = call.entry arch

theorem drained_assign {queue : List SysCall} {files : Files}
    (hentries : ∀ entry ∈ queue,
      ∃ call : SendfileCall, entry = call.entry arch)
    (offset value : ℤ) :
    queue.foldl (Files.execute content) (files.assign offset value) =
      (queue.foldl (Files.execute content) files).assign offset
        value := by
  induction queue generalizing files with
  | nil => rfl
  | cons entry rest ih =>
      obtain ⟨call, rfl⟩ := hentries entry List.mem_cons_self
      rw [List.foldl_cons, List.foldl_cons, Files.execute_entry,
        Files.execute_entry, Files.sysSendfile_assign]
      exact ih fun other hmem =>
        hentries other (List.mem_cons_of_mem _ hmem)

namespace Matches

theorem afterAssign (hmatches : Matches content arch direct deferred)
    (offset value : ℤ) :
    Matches content arch (direct.issue content (.assign offset value))
      (deferred.defer arch (.assign offset value)) where
  files_eq := by
    change direct.files.assign offset value = _
    rw [hmatches.files_eq]
    exact (drained_assign hmatches.entries offset value).symm
  offsets_eq := by
    change Function.update direct.files.offsets offset value = _
    rw [hmatches.offsets_eq]
    rfl
  after_eq := hmatches.after_eq
  entries := hmatches.entries

theorem afterSendfile (hmatches : Matches content arch direct deferred)
    {call : SendfileCall} (hposition : call.AtPosition) :
    Matches content arch (direct.issue content (.sendfile call))
      (deferred.defer arch (.sendfile call)) := by
  have hoffsets :
      (direct.files.sysSendfile content call.outFd call.inFd
        call.offset call.count).offsets = deferred.files.offsets := by
    rw [Files.sysSendfile_of_atPosition hposition]
    exact hmatches.offsets_eq
  constructor
  · change direct.files.sysSendfile content _ _ _ _ =
      (deferred.queue ++ [call.entry arch]).foldl _ deferred.files
    rw [Files.sysSendfile_of_atPosition hposition, hmatches.files_eq,
      List.foldl_append, List.foldl_cons, List.foldl_nil,
      Files.execute_entry]
    rfl
  · exact hoffsets
  · change direct.after ++ [_] = deferred.after ++ [_]
    rw [hmatches.after_eq]
    unfold Files.offsetOf
    rw [hoffsets]
  · intro entry hmem
    rcases List.mem_append.mp hmem with hold | hnew
    · exact hmatches.entries entry hold
    · exact ⟨call, List.mem_singleton.mp hnew⟩

theorem afterExecute (hmatches : Matches content arch direct deferred)
    {entry : SysCall} {rest : List SysCall}
    (hqueue : deferred.queue = entry :: rest) :
    Matches content arch direct
      { deferred with
        files := deferred.files.execute content entry
        queue := rest } := by
  have hfiles := hmatches.files_eq
  have hentries := hmatches.entries
  unfold drained at hfiles
  rw [hqueue] at hfiles hentries
  obtain ⟨call, rfl⟩ := hentries entry List.mem_cons_self
  refine ⟨hfiles, ?_, hmatches.after_eq, ?_⟩
  · rw [hmatches.offsets_eq, Files.execute_entry]
    rfl
  · intro other hmem
    exact hentries other (List.mem_cons_of_mem _ hmem)

/-- One deferred step is answered by the direct call that it stands for. -/
theorem afterStep (hmatches : Matches content arch direct deferred)
    {action : DeferredAction} {next : Transfers}
    (hposition : ∀ call, action = .caller (.sendfile call) →
      call.AtPosition)
    (hstep : deferred.step content arch action = some next) :
    Matches content arch
      (action.callerOp.toList.foldl (issue content) direct) next := by
  cases action with
  | caller op =>
      cases op with
      | assign offset value =>
          cases hstep
          exact hmatches.afterAssign offset value
      | sendfile call =>
          cases hstep
          exact hmatches.afterSendfile (hposition call rfl)
  | execute =>
      simp only [step] at hstep
      split at hstep
      next => simp at hstep
      next entry rest hqueue =>
        cases hstep
        exact hmatches.afterExecute hqueue

theorem run (hmatches : Matches content arch direct deferred)
    {schedule : List DeferredAction}
    (hposition : ∀ call,
      .sendfile call ∈ schedule.filterMap DeferredAction.callerOp →
        call.AtPosition)
    (hrun : Transition.run (step content arch) deferred schedule =
      some final) :
    Matches content arch
      ((schedule.filterMap DeferredAction.callerOp).foldl
        (issue content) direct) final := by
  induction schedule generalizing direct deferred with
  | nil =>
      cases hrun
      exact hmatches
  | cons action rest ih =>
      obtain ⟨next, hstep, hrest⟩ := Transition.run_cons_eq_some hrun
      have hsplit : (action :: rest).filterMap DeferredAction.callerOp =
          action.callerOp.toList ++
            rest.filterMap DeferredAction.callerOp := by
        cases action <;> rfl
      rw [hsplit] at hposition ⊢
      rw [List.foldl_append]
      refine ih (hmatches.afterStep ?_ hstep) ?_ hrest
      · rintro call rfl
        exact hposition call (by simp [DeferredAction.callerOp])
      · intro call hmem
        exact hposition call (List.mem_append_right _ hmem)

end Matches

/-! ## Where the two differ -/

theorem foldl_after_prefix
    {act : Transfers → CallerOp → Transfers}
    (hgrows : ∀ transfers op, transfers.after <+: (act transfers op).after)
    (transfers : Transfers) (ops : List CallerOp) :
    transfers.after <+: (ops.foldl act transfers).after := by
  induction ops generalizing transfers with
  | nil => exact List.prefix_refl _
  | cons op rest ih => exact (hgrows transfers op).trans (ih _)

theorem issue_after (content : ℤ → ℤ → UInt8)
    (transfers : Transfers) (op : CallerOp) :
    transfers.after <+: (transfers.issue content op).after := by
  cases op with
  | assign offset value => exact List.prefix_refl _
  | sendfile call => exact List.prefix_append _ _

theorem defer_after (arch : Architecture)
    (transfers : Transfers) (op : CallerOp) :
    transfers.after <+: (transfers.defer arch op).after := by
  cases op with
  | assign offset value => exact List.prefix_refl _
  | sendfile call => exact List.prefix_append _ _

theorem run_caller (transfers : Transfers) (ops : List CallerOp) :
    Transition.run (step content arch) transfers (ops.map .caller) =
      some (ops.foldl (defer arch) transfers) := by
  induction ops generalizing transfers with
  | nil => rfl
  | cons op rest ih => exact ih (transfers.defer arch op)

theorem filterMap_caller (ops : List CallerOp) :
    (ops.map DeferredAction.caller).filterMap DeferredAction.callerOp =
      ops := by
  rw [List.filterMap_map]
  exact List.filterMap_some

/-- A transfer with an offset and bytes moves the caller's offset only when it
is made directly. -/
theorem atPosition_of_offsetOf {files : Files} {call : SendfileCall}
    (hsame : (files.sysSendfile content call.outFd call.inFd call.offset
      call.count).offsetOf call = files.offsetOf call) :
    call.AtPosition := by
  by_cases hnull : call.offset = 0
  · exact Or.inl hnull
  · right
    simpa [Files.offsetOf, Files.sysSendfile, hnull] using hsame

theorem offsetOf_eq {call : SendfileCall} {ops : List CallerOp}
    (hafter : direct.after = deferred.after)
    (hsame :
      (ops.foldl (defer arch)
          (deferred.defer arch (.sendfile call))).after =
        (ops.foldl (issue content)
          (direct.issue content (.sendfile call))).after) :
    (direct.files.sysSendfile content call.outFd call.inFd call.offset
      call.count).offsetOf call = deferred.files.offsetOf call := by
  have hissued :=
    foldl_after_prefix (issue_after content)
      (direct.issue content (.sendfile call)) ops
  have hdeferred :=
    foldl_after_prefix (defer_after arch)
      (deferred.defer arch (.sendfile call)) ops
  rw [hsame] at hdeferred
  have hlength :
      (direct.issue content (.sendfile call)).after.length =
        (deferred.defer arch (.sendfile call)).after.length := by
    simp [issue, defer, hafter]
  have hlast :=
    (List.prefix_of_prefix_length_le hissued hdeferred
      hlength.le).eq_of_length hlength
  simpa [issue, defer, hafter] using hlast

theorem atPosition_of_after_eq {ops : List CallerOp}
    (hoffsets : direct.files.offsets = deferred.files.offsets)
    (hafter : direct.after = deferred.after)
    (hsame : (ops.foldl (defer arch) deferred).after =
      (ops.foldl (issue content) direct).after) :
    ∀ call, .sendfile call ∈ ops → call.AtPosition := by
  induction ops generalizing direct deferred with
  | nil => simp
  | cons op rest ih =>
      rw [List.foldl_cons, List.foldl_cons] at hsame
      cases op with
      | assign offset value =>
          have hassigned :
              (direct.issue content (.assign offset value)).files.offsets =
                (deferred.defer arch
                  (.assign offset value)).files.offsets := by
            simp [issue, defer, Files.assign, hoffsets]
          simpa using ih hassigned hafter hsame
      | sendfile call =>
          have hoffset := offsetOf_eq hafter hsame
          have hposition : call.AtPosition := by
            refine atPosition_of_offsetOf (hoffset.trans ?_)
            rw [Files.offsetOf, Files.offsetOf, hoffsets]
          have hkept :
              (direct.issue content (.sendfile call)).files.offsets =
                (deferred.defer arch (.sendfile call)).files.offsets := by
            change (direct.files.sysSendfile content _ _ _ _).offsets = _
            rw [Files.sysSendfile_of_atPosition hposition]
            exact hoffsets
          have hlogged :
              (direct.issue content (.sendfile call)).after =
                (deferred.defer arch (.sendfile call)).after := by
            change direct.after ++ [_] = deferred.after ++ [_]
            rw [hafter, hoffset]
          intro other hmem
          rcases List.mem_cons.mp hmem with hfirst | hrest
          · cases hfirst
            exact hposition
          · exact ih hkept hlogged hsame other hrest

/-- The deferred transfers are the direct ones exactly if no call has both an
offset and bytes to send. -/
theorem sameTransfers_iff (content : ℤ → ℤ → UInt8)
    (arch : Architecture) (files : Files) (ops : List CallerOp) :
    SameTransfers content arch files ops ↔
      ∀ call, .sendfile call ∈ ops → call.AtPosition := by
  constructor
  · intro hsame
    have hrun : Transition.run (step content arch) ⟨files, [], []⟩
        (ops.map .caller) = _ := run_caller _ ops
    have hafter := (hsame _ _ (filterMap_caller ops) hrun).1
    exact atPosition_of_after_eq rfl rfl hafter
  · intro hposition schedule final hops hrun
    have hstart :
        Matches content arch ⟨files, [], []⟩ ⟨files, [], []⟩ :=
      ⟨rfl, rfl, rfl, by simp⟩
    rw [← hops] at hposition ⊢
    have hend := hstart.run hposition hrun
    refine ⟨hend.after_eq.symm, ?_⟩
    intro hempty
    rw [hend.files_eq, drained, hempty]
    rfl

def countingFile : ℤ → ℤ → UInt8 := fun _ position => position.toNat.toUInt8

/-- One transfer of two bytes from offset 1, as `nginx` makes it for a range
request. -/
def rangeRequest : List CallerOp :=
  [.assign 8 1, .sendfile ⟨false, 4, 3, 8, 2⟩]

/-- The deferred transfer starts at the file position and leaves the offset
behind. -/
theorem rangeRequest_differs :
    ∃ final,
      Transition.run (step countingFile .x86)
        ⟨⟨fun _ => 0, fun _ => 0, []⟩, [], []⟩
        (rangeRequest.map .caller ++ [.execute]) = some final ∧
      final.queue = [] ∧
      final.files.sent = [(4, [0, 1])] ∧
      final.after = [some 1] ∧
      (rangeRequest.foldl (issue countingFile)
        ⟨⟨fun _ => 0, fun _ => 0, []⟩, [], []⟩).files.sent =
          [(4, [1, 2])] ∧
      (rangeRequest.foldl (issue countingFile)
        ⟨⟨fun _ => 0, fun _ => 0, []⟩, [], []⟩).after = [some 3] := by
  refine ⟨_, rfl, rfl, by decide, by decide, by decide, by decide⟩

end Transfers

end Saio
