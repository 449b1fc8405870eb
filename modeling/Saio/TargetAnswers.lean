import Saio.TargetSessions
import Saio.ReturnValues
import Mathlib.Tactic

/-!
# What lighttpd and nginx are told

The two servers decide by the return value of a call whether a response is
complete.  lighttpd also hands the kernel a cell with the file offset, to which
the executed call adds what it has transferred, while the caller's own offset
has been advanced by all that was asked for: after a short transfer the program
without the library would go on from another place in the file.  nginx with one
worker per process makes calls that need not be independent of each other.
-/

namespace Saio

open FifoBank

variable {ς : Type} {cfg : SetConfig} {arch : Architecture}
  {access : FlagAccess}

/-! ## lighttpd -/

def LightyCall.assumed : LightyCall → ℤ
  | .shutdown _ _ => 0
  | .sendfile64 _ _ _ count => count

section Lighty

variable {offArr : ℤ} {effect : LightyAsk → ς → ς}
  {result : LightyAsk → ς → ℤ} {memory : LightyMemory}
  {final : Dialogue LightyCall LightyMemory LightyAsk ς}

end Lighty

/-! ## nginx -/

def NgxCall.assumed : NgxCall → ℤ
  | .close _ => 0
  | .sendfile64 _ _ _ count => count
  | .write _ buf => buf.length
  | .sendfile _ _ _ count => count

def ngxValues (result : NgxAsk → ς → ℤ) :
    ReturnValues NgxCall NgxMemory NgxAsk ς where
  result := result
  assumed := fun source _ => source.assumed

section Ngx

variable {mpool : ℤ} {bound : ℕ} {effect : NgxAsk → ς → ς}
  {result : NgxAsk → ς → ℤ}
  {final : Dialogue NgxCall NgxMemory NgxAsk ς}

/-- With one worker every deferred call returns what the direct call would
have returned, whatever the calls do to each other. -/
theorem ngx_answers_as_unbatched
    {pages : ℤ → ℕ → ℕ → TableEntry} {bytes : ℕ → UInt8} {kernel : ς}
    {actions : List (SessionAction NgxCall Empty)}
    (hshares : cfg.SharesEntries) (hratio : cfg.ratio = 1)
    (hbound : (cfg.maxTableEntry * cfg.maxTableLen + 1) * bound ≤
      maxPoolSize)
    (hrun : Transition.run
      (Dialogue.step (cfg.ngx arch mpool) access noStore
        (ngxMeaning arch mpool effect) (ngxValues result))
      (Dialogue.init (cfg.ngx arch mpool) pages ⟨bytes, 0⟩ kernel)
      actions = some final)
    (hmeet : Transition.StepsMeet
      (Dialogue.step (cfg.ngx arch mpool) access noStore
        (ngxMeaning arch mpool effect) (ngxValues result))
      (fun dialogue action =>
        dialogue.session.NoOverrun (cfg.ngx arch mpool) action ∧
        dialogue.session.NgxProper bound action ∧
        dialogue.session.PendingFree (ngxMeaning arch mpool effect)
          action)
      (Dialogue.init (cfg.ngx arch mpool) pages ⟨bytes, 0⟩ kernel)
      actions) :
    final.AnsweredAsDue (ngxMeaning arch mpool effect)
      (ngxValues result) actions := by
  have htruthful : final.Truthful (cfg.ngx arch mpool)
      (ngxMeaning arch mpool effect) (ngxValues result) := by
    have hstart : Session.ProcMeets (NgxKept cfg arch mpool bound)
        (Session.init (cfg.ngx arch mpool) pages ⟨bytes, 0⟩ kernel) :=
      init_ngxKept pages bytes
    refine Dialogue.truthful_of_run hshares ?_ ?_ hstart hrun hmeet
    · rintro dialogue action hboth ⟨hsafe, _, hfree⟩
      exact Session.unnoticed_of_oneRing hratio hboth.settled.tracked
        hsafe (NgxKept.intact hboth.inside) (ngx_alike action) hfree
    · rintro dialogue action session hboth ⟨hsafe, hproper, _⟩ hstep
      exact NgxKept.afterSession hboth.inside hratio hbound hsafe hproper
        hstep
  exact htruthful.answeredAsDue hrun

/-- A closed descriptor takes no more bytes (`-EBADF`). -/
def sentUnlessClosed (ask : NgxAsk) (log : List NgxAsk) : ℤ :=
  match ask with
  | .write _ bytes => if log.isEmpty then bytes.length else -9
  | _ => 0

/-- A write is queued behind the close of its descriptor. -/
def writeBehindClose : List (SessionAction NgxCall Empty) :=
  (SystemAction.segmentStart oneWorkerSet ++
    SystemAction.wholeCall (NgxCall.close 4) ++
    SystemAction.wholeCall (NgxCall.write 4 [97, 98]) ++
    SystemAction.workerSteps 0 false 4 ++
    [SystemAction.worker 0 false (-9)]).map
    fun action => .process (.library action)

theorem writeBehindClose_answers :
    ∃ final,
      Transition.run
        (Dialogue.step (oneWorkerSet.ngx .x86 16) .atomic noStore
          (ngxMeaning .x86 16 fun ask log => log ++ [ask])
          (ngxValues sentUnlessClosed))
        (Dialogue.init (oneWorkerSet.ngx .x86 16)
          (fun _ => blankMemory) ⟨fun _ => 0, 0⟩ []) writeBehindClose =
        some final ∧
      lane 0 final.sysrets = [0, 4294967287] ∧
      (lane 0 final.queued).map Answer.told = [0, 2] ∧
      final.AnsweredAsDue
        (ngxMeaning .x86 16 fun ask log => log ++ [ask])
        (ngxValues sentUnlessClosed) writeBehindClose := by
  have hfacts :
      (Transition.run
        (Dialogue.step (oneWorkerSet.ngx .x86 16) .atomic noStore
          (ngxMeaning .x86 16 fun ask log => log ++ [ask])
          (ngxValues sentUnlessClosed))
        (Dialogue.init (oneWorkerSet.ngx .x86 16)
          (fun _ => blankMemory) ⟨fun _ => 0, 0⟩ [])
        writeBehindClose).map (fun final =>
          (lane 0 final.sysrets,
            (lane 0 final.queued).map Answer.told)) =
        some ([0, 4294967287], [0, 2]) := by
    decide +kernel
  obtain ⟨final, hrun, hfinal⟩ := Option.map_eq_some_iff.mp hfacts
  obtain ⟨hsysrets, htold⟩ := Prod.mk.inj hfinal
  have hbound : (oneWorkerSet.maxTableEntry * oneWorkerSet.maxTableLen +
      1) * 2 ≤ maxPoolSize := by decide
  exact ⟨final, hrun, hsysrets, htold,
    ngx_answers_as_unbatched (by decide) rfl hbound hrun
      (by decide +kernel)⟩

end Ngx

end Saio
