import SpdkConnector.Context.LifeSteps
import SpdkConnector.Context.Callers

/-!
# The life cycle by itself

Construction and teardown as a machine of their own: the context's members, its owner, and for each reactor
the life cycle calls it has still to make, those of the running callback first, then those of its messages.
`Lived` is what one call does. `step_turn`: every step of the context is a turn of this machine, and the
I/O steps are turns that do nothing.
-/

namespace SpdkConnector
namespace SpdkBdevContext

open Interleaving

def Frame.life? : Frame → Option LifeFrame
  | .io _ => none
  | .life f => some f

/-- The life cycle calls a reactor has still to make. -/
def Reactor.agenda (x : Reactor) : List LifeFrame :=
  x.stack.filterMap Frame.life? ++ x.queue.filterMap fun m => m.frame.life?

structure Cycle where
  ctx : Members
  owner : OwnerPc
  runtimeAvailable : Bool
  agenda : Nat → List LifeFrame

def Sys.cycle (s : Sys) : Cycle := ⟨s.ctx, s.owner, s.runtimeAvailable, fun w => (s.reactor w).agenda⟩

/-- What a call does: the members, the calls it makes, the message it posts, whether it notifies. -/
structure Effect where
  ctx : Members
  calls : List LifeFrame := []
  post : Option (Nat × LifeFrame) := none
  notify : Bool := false

/-- `initialization_cv_` is notified. -/
def OwnerPc.woken : OwnerPc → OwnerPc
  | .sleepingInitialization => .constructing
  | .sleepingShutdown => .closeWaiting
  | pc => pc

def Cycle.put (κ : Cycle) (w : Nat) (a : List LifeFrame) : Cycle :=
  { κ with agenda := Function.update κ.agenda w a }

def Cycle.post (κ : Cycle) : Option (Nat × LifeFrame) → Cycle
  | none => κ
  | some (u, f) => κ.put u (κ.agenda u ++ [f])

/-- A call of reactor `w` with `rest` behind it has its effect. -/
def Cycle.run (κ : Cycle) (w : Nat) (rest : List LifeFrame) (x : Effect) : Cycle :=
  { (κ.put w (x.calls ++ rest)).post x.post with
    ctx := x.ctx, owner := if x.notify then κ.owner.woken else κ.owner }

section
variable (e : Env) (available : Bool) (c : Members) (w : Nat)

/-- One life cycle call on SPDK thread `w`. -/
inductive Lived : LifeFrame → Choice → Effect → Prop
  | openFailed (rc : Int) (h : rc ≠ 0) (message : String) :
      Lived .onRuntimeReady (.code rc)
        { ctx := c, calls := [.publishInitializationFailure message, .requestShutdown rc ""] }
  | opened : Lived .onRuntimeReady (.code 0) { ctx := { c with bdevDescriptor := true }, calls := [.configure] }
  | rejected (created : Nat) (error : String) (h : created < e.ioThreadCount) :
      Lived .configure (.reject created error)
        { ctx := { c with ioWorkers := created }
          calls := [.publishInitializationFailure error, .requestShutdown einval ""] }
  | configured : Lived .configure .next
      { ctx := { c with ioWorkers := e.ioThreadCount, workersInitializing := e.ioThreadCount }
        calls := [.postSetUp 1] }
  | setUpPosted (i : Nat) (h : i < c.ioWorkers) : Lived (.postSetUp i) (.code 0)
      { ctx := c, calls := [.postSetUp (i + 1)], post := some (i, .initializeIoWorker) }
  | setUpFailed (i : Nat) (rc : Int) (h : i < c.ioWorkers) (hrc : rc ≠ 0) (error : String) :
      Lived (.postSetUp i) (.code rc) { ctx := c, calls := [.onIoWorkerInitialized error, .postSetUp (i + 1)] }
  | setUpOwn (i : Nat) (h : ¬ i < c.ioWorkers) : Lived (.postSetUp i) .next
      { ctx := c, calls := [.initializeIoWorker] }
  | setUp (onReactor channel : Bool) (obtained : Nat) (error : String) :
      Lived .initializeIoWorker (.setUp onReactor channel obtained)
        { ctx := c, calls := [.onIoWorkerInitialized error] }
  | initialized (error lastError : String) (h : c.workersInitializing - 1 ≠ 0) :
      Lived (.onIoWorkerInitialized error) .next
        { ctx := { c with lastError, workersInitializing := c.workersInitializing - 1 } }
  | initializedLast (error lastError : String) (h : c.workersInitializing - 1 = 0) :
      Lived (.onIoWorkerInitialized error) .next
        { ctx := { c with
            lastError, workersInitializing := c.workersInitializing - 1
            initializationSucceeded := lastError == "", initializationComplete := true }
          calls := .notifyAll :: if lastError == "" then [] else [.requestShutdown einval ""] }
  | published (message : String) : Lived (.publishInitializationFailure message) .next
      { ctx := { c with
          lastError := message, initializationSucceeded := false, initializationComplete := true }
        calls := [.notifyAll] }
  | notified : Lived .notifyAll .next { ctx := c, notify := true }
  | requested (rc : Int) (error lastError : String) (code : Int) (start : Bool)
      (h : start = (!c.shutdownRequested && c.runtime && available)) :
      Lived (.requestShutdown rc error) .next
        { ctx := { c with
            lastError, shutdownReturnCode := code, shutdownRequested := c.shutdownRequested || start }
          calls := if start then [.postBeginShutdown] else [] }
  | beginPosted (h : available = true) : Lived .postBeginShutdown (.code 0)
      { ctx := c, post := some (0, .beginShutdown) }
  | beginFailed (rc : Int) (lastError : String) (h : ¬ (available = true ∧ rc = 0)) :
      Lived .postBeginShutdown (.code rc)
        { ctx := { c with lastError, shutdownComplete := true }, notify := true }
  | begunAlready (h : c.shutdownStarted = true) : Lived .beginShutdown .next { ctx := c }
  | begun (h : c.shutdownStarted = false) : Lived .beginShutdown .next
      { ctx := { c with shutdownStarted := true, workersShuttingDown := c.ioWorkers }
        calls := if c.ioWorkers = 0 then [.releaseDescriptor] else [.postShutdown 1] }
  | shutdownPosted (i : Nat) (h : i < c.ioWorkers) : Lived (.postShutdown i) (.code 0)
      { ctx := c, calls := [.postShutdown (i + 1)], post := some (i, .shutdownIoWorker) }
  | shutdownFailed (i : Nat) (rc : Int) (h : i < c.ioWorkers) (hrc : rc ≠ 0) (lastError : String) :
      Lived (.postShutdown i) (.code rc)
        { ctx := { c with lastError }, calls := [.onIoWorkerShutdown, .postShutdown (i + 1)] }
  | shutdownOwn (i : Nat) (h : ¬ i < c.ioWorkers) : Lived (.postShutdown i) .next
      { ctx := c, calls := [.shutdownIoWorker] }
  | flushed : Lived .shutdownIoWorker .next { ctx := c, calls := [.shutdownIoWorker] }
  | flushedAll : Lived .shutdownIoWorker .next { ctx := c, calls := [.releaseIoWorker] }
  | released : Lived .releaseIoWorker .next
      { ctx := c, calls := if w = 0 then [.onIoWorkerShutdown] else [.postFinish] }
  | finishPosted : Lived .postFinish (.code 0)
      { ctx := c, calls := [.threadExit 0], post := some (0, .onIoWorkerShutdown) }
  | finishFailed (rc : Int) (h : rc ≠ 0) : Lived .postFinish (.code rc) { ctx := c, calls := [.threadExit rc] }
  | exited (rc : Int) : Lived (.threadExit rc) .next { ctx := c }
  | acknowledged : Lived .onIoWorkerShutdown .next
      { ctx := { c with workersShuttingDown := c.workersShuttingDown - 1 }
        calls := if c.workersShuttingDown - 1 = 0 then [.releaseDescriptor] else [] }
  | descriptorReleased : Lived .releaseDescriptor .next
      { ctx := { c with bdevDescriptor := false }, calls := [.finishShutdown] }
  | finished : Lived .finishShutdown .next
      { ctx := { c with shutdownComplete := true }, calls := [.notifyAll] }

end

/-- A call that a message makes. -/
def LifeFrame.Posted : LifeFrame → Prop
  | .onRuntimeReady | .initializeIoWorker | .beginShutdown | .shutdownIoWorker | .onIoWorkerShutdown => True
  | _ => False

/-- One step of the owner. -/
inductive Owned (e : Env) (κ : Cycle) : Choice → Cycle → Prop
  | checked (h : κ.owner = .constructing) : Owned e κ .next
      { κ with owner := if κ.ctx.initializationComplete then
          if κ.ctx.initializationSucceeded then .running else .closing
        else .sleepingInitialization }
  | wokenInitialization (h : κ.owner = .sleepingInitialization) : Owned e κ .next { κ with owner := .constructing }
  | wokenShutdown (h : κ.owner = .sleepingShutdown) : Owned e κ .next { κ with owner := .closeWaiting }
  | close (h : κ.owner = .running ∨ κ.owner = .closed) : Owned e κ .next { κ with owner := .closing }
  | closedAlready (h : κ.owner = .closing) (hc : κ.ctx.closed = true) : Owned e κ .next { κ with owner := .closed }
  | marked (h : κ.owner = .closing) (hc : κ.ctx.closed = false)
      (hr : κ.ctx.bdevDescriptor = true ∨ κ.ctx.ioWorkers ≠ 0) :
      Owned e κ .next { κ with ctx := { κ.ctx with closed := true }, owner := .requesting }
  | nothingOpen (h : κ.owner = .closing) (hc : κ.ctx.closed = false) (hd : κ.ctx.bdevDescriptor = false)
      (hw : κ.ctx.ioWorkers = 0) :
      Owned e κ .next { κ with
        ctx := { κ.ctx with closed := true, shutdownComplete := true }, owner := .closeWaiting }
  | requested (h : κ.owner = .requesting) (lastError : String) (code : Int) (start : Bool)
      (hs : start = (!κ.ctx.shutdownRequested && κ.ctx.runtime && κ.runtimeAvailable)) :
      Owned e κ .next { κ with
        ctx := { κ.ctx with
          lastError, shutdownReturnCode := code, shutdownRequested := κ.ctx.shutdownRequested || start }
        owner := if start then .postingShutdown else .closeWaiting }
  | beginPosted (h : κ.owner = .postingShutdown) (ha : κ.runtimeAvailable = true) :
      Owned e κ (.code 0) { κ.put 0 (κ.agenda 0 ++ [.beginShutdown]) with owner := .closeWaiting }
  | beginFailed (h : κ.owner = .postingShutdown) (rc : Int) (lastError : String)
      (ha : ¬ (κ.runtimeAvailable = true ∧ rc = 0)) :
      Owned e κ (.code rc) { κ with
        ctx := { κ.ctx with lastError, shutdownComplete := true }, owner := .closeWaiting }
  | waited (h : κ.owner = .closeWaiting) : Owned e κ .next
      { κ with owner := if κ.ctx.shutdownComplete then .releasing else .sleepingShutdown }
  | claimReleased (h : κ.owner = .releasing) : Owned e κ .next
      { κ with ctx := { κ.ctx with runtime := false, bdevClaimed := false }, owner := .closed }

/-- One step of the context, as its life cycle sees it. -/
inductive Turn (e : Env) (s : Sys) : Action → Cycle → Prop
  | idle (a : Action) : Turn e s a s.cycle
  | counted (operation : Operation) (items : List IoBatchItem) (memory : Nat → Nat → UInt8) (n : Nat) :
      Turn e s (.submit operation items memory) { s.cycle with ctx := { s.ctx with nextIoWorker := n } }
  | run (w : Nat) (c : Choice) (f : LifeFrame) (stack : List Frame) (rest : List LifeFrame) (x : Effect)
      (hst : (s.reactor w).stack = .life f :: stack) (h : s.cycle.agenda w = f :: rest)
      (hl : Lived e s.runtimeAvailable s.ctx w f c x) : Turn e s (.reactor w c) (s.cycle.run w rest x)
  | event (c : Choice) (rc : Int) (error : String) (hd : s.ctx.bdevDescriptor = true)
      (h : ∀ f ∈ s.cycle.agenda 0, f.Posted) :
      Turn e s (.reactor 0 c) (s.cycle.put 0 (.requestShutdown rc error :: s.cycle.agenda 0))
  | owner (c : Choice) (κ : Cycle) (h : Owned e s.cycle c κ) : Turn e s (.owner c) κ
  | stops : Turn e s .runtimeStops { s.cycle with runtimeAvailable := false }

variable {e : Env} {s s' s1 : Sys} {w : Nat}

/-! ## The steps that do nothing -/

/-- The life cycle calls of reactor `v` are as before, up to the frames of running callbacks. -/
structure Undisturbed (s s1 : Sys) : Prop where
  ctx : s1.ctx = s.ctx
  owner : s1.owner = s.owner
  runtimeAvailable : s1.runtimeAvailable = s.runtimeAvailable
  stack : ∀ v, (s1.reactor v).stack = (s.reactor v).stack
  queue : ∀ v, ((s1.reactor v).queue.filterMap fun m => m.frame.life?) =
    (s.reactor v).queue.filterMap fun m => m.frame.life?

theorem Undisturbed.refl (s : Sys) : Undisturbed s s := ⟨rfl, rfl, rfl, fun _ => rfl, fun _ => rfl⟩

theorem Undisturbed.trans {s2 : Sys} (h : Undisturbed s s1) (h' : Undisturbed s1 s2) : Undisturbed s s2 :=
  ⟨h'.ctx.trans h.ctx, h'.owner.trans h.owner, h'.runtimeAvailable.trans h.runtimeAvailable,
    fun v => (h'.stack v).trans (h.stack v), fun v => (h'.queue v).trans (h.queue v)⟩

theorem Undisturbed.cycle (h : Undisturbed s s1) : s1.cycle = s.cycle := by
  simp only [Sys.cycle, Reactor.agenda, h.ctx, h.owner, h.runtimeAvailable, h.stack, h.queue]

/-- A reactor changes neither its frames nor its messages. -/
theorem undisturbed_reactor {x : Reactor} (hs : s1.reactor = Function.update s.reactor w x)
    (hstack : x.stack = (s.reactor w).stack)
    (hqueue : (x.queue.filterMap fun m => m.frame.life?) = (s.reactor w).queue.filterMap fun m => m.frame.life?)
    (hctx : s1.ctx = s.ctx) (howner : s1.owner = s.owner)
    (hruntime : s1.runtimeAvailable = s.runtimeAvailable) : Undisturbed s s1 := by
  refine ⟨hctx, howner, hruntime, fun v => ?_, fun v => ?_⟩ <;> rw [hs] <;> rcases eq_or_ne v w with rfl | hv
  · simpa using hstack
  · simp [hv]
  · simpa using hqueue
  · simp [hv]

/-- No reactor changes. -/
theorem undisturbed_same (hs : s1.reactor = s.reactor) (hctx : s1.ctx = s.ctx) (howner : s1.owner = s.owner)
    (hruntime : s1.runtimeAvailable = s.runtimeAvailable) : Undisturbed s s1 :=
  ⟨hctx, howner, hruntime, fun v => by rw [hs], fun v => by rw [hs]⟩

theorem releaseBuffer_undisturbed (s : Sys) (r : Ref) : Undisturbed s (releaseBuffer e s r) := by
  unfold releaseBuffer
  dsimp only
  split
  · exact .refl s
  · split
    · exact undisturbed_reactor (w := (s.request r).worker) rfl rfl rfl rfl rfl rfl
    · exact undisturbed_same rfl rfl rfl rfl

theorem failIo_undisturbed (s : Sys) (r : Ref) (error : String) : Undisturbed s (failIo e s r error).1 :=
  releaseBuffer_undisturbed s r

theorem completeRequest_undisturbed (s : Sys) (r : Ref) (success : Bool) (error : String) :
    Undisturbed s (completeRequest s r success error).1 := by
  unfold completeRequest
  dsimp only
  split <;> exact undisturbed_same rfl rfl rfl rfl

theorem submitIo_undisturbed (s : Sys) (r : Ref) (index : Nat) (submitResult waitResult sendResult : Int) :
    Undisturbed s (submitIo e s r index submitResult waitResult sendResult).1 := by
  unfold submitIo
  dsimp only
  split
  · exact releaseBuffer_undisturbed s r
  · rename_i buffer _
    -- the bytes are staged and the block range is noted
    let s0 := (s.setReactor (s.request r).worker { s.reactor (s.request r).worker with
      dma := if (s.request r).operation = .write then Function.update (s.reactor (s.request r).worker).dma buffer
        (stagedByte (s.batch r.1).memory (s.request r).item ((s.reactor (s.request r).worker).dma buffer))
        else (s.reactor (s.request r).worker).dma }).setRequest r { s.request r with
          blockOffset := (s.request r).item.byteOffset / e.geometry.blockSize
          blockCount := (s.request r).item.physicalLength / e.geometry.blockSize
          immediateSubmitResult := submitResult }
    have hstaged : Undisturbed s s0 := undisturbed_reactor (w := (s.request r).worker) rfl rfl rfl rfl rfl rfl
    have hreleased : Undisturbed s (releaseBuffer e s0 r) := hstaged.trans (releaseBuffer_undisturbed s0 r)
    split
    · split
      · exact hreleased.trans (undisturbed_reactor (w := (s.request r).worker) rfl rfl rfl rfl rfl rfl)
      · split
        · refine hreleased.trans (undisturbed_reactor (w := (s.request r).worker) rfl rfl ?_ rfl rfl rfl)
          simp only [List.filterMap_append, List.filterMap_cons, List.filterMap_nil, Msg.frame, Frame.life?,
            List.append_nil]
          rfl
        · exact hreleased.trans (undisturbed_same rfl rfl rfl rfl)
    · split
      · exact hreleased
      · exact hstaged.trans (undisturbed_reactor (w := (s.request r).worker) rfl rfl rfl rfl rfl rfl)

theorem executeIo_undisturbed (s : Sys) (w : Nat) (r : Ref) (submitResult waitResult sendResult : Int) :
    Undisturbed s (executeIo e s w r submitResult waitResult sendResult).1 := by
  unfold executeIo
  dsimp only
  split
  · exact releaseBuffer_undisturbed s r
  · split
    · refine .trans ?_ (failIo_undisturbed _ r _)
      exact undisturbed_reactor (w := (s.request r).worker) rfl rfl rfl rfl rfl rfl
    · exact undisturbed_reactor (w := (s.request r).worker) rfl rfl rfl rfl rfl rfl
    · refine .trans ?_ (submitIo_undisturbed _ r _ _ _ _)
      exact undisturbed_reactor (w := (s.request r).worker) rfl rfl rfl rfl rfl rfl

theorem completeIo_undisturbed (s : Sys) (r : Ref) (success : Bool) :
    Undisturbed s (completeIo e s r success).1 := by
  unfold completeIo
  dsimp only
  split
  · split
    · exact releaseBuffer_undisturbed s r
    · refine .trans ?_ (releaseBuffer_undisturbed _ r)
      exact undisturbed_same rfl rfl rfl rfl
  · exact releaseBuffer_undisturbed s r

theorem runIo_undisturbed {f : IoFrame} {c : Choice} {fs : List IoFrame} (h : runIo e s w f c = some (s1, fs)) :
    Undisturbed s s1 := by
  unfold runIo at h
  split at h
  · cases h
    exact .refl s
  · cases h
    exact .refl s
  · rename_i r submitResult waitResult sendResult
    have h1 := executeIo_undisturbed (e := e) s w r submitResult waitResult sendResult
    rwa [Option.some.inj h] at h1
  · dsimp only at h
    split at h
    · cases h
    · split at h
      · cases h
        exact undisturbed_reactor (w := w) rfl rfl rfl rfl rfl rfl
      · cases h
  · cases h
    exact .refl s
  · rename_i r success
    have h1 := completeIo_undisturbed (e := e) s r success
    rwa [Option.some.inj h] at h1
  · rename_i r success error
    have h1 := completeRequest_undisturbed s r success error
    cases h
    exact h1
  · split at h
    · cases h
      exact undisturbed_same rfl rfl rfl rfl
    · cases h
      exact .refl s
  · rename_i v
    dsimp only at h
    split at h
    · cases h
      exact .refl s
    · cases h
      exact undisturbed_reactor (w := v) rfl rfl rfl rfl rfl rfl
  · rename_i v
    dsimp only at h
    split at h
    · split at h
      · cases h
        exact undisturbed_reactor (w := v) rfl rfl rfl rfl rfl rfl
      · cases h
        exact undisturbed_reactor (w := v) rfl rfl rfl rfl rfl rfl
    · cases h
      exact undisturbed_reactor (w := v) rfl rfl rfl rfl rfl rfl
  · cases h

theorem callerStep_undisturbed {b : Nat} {c : Choice} (h : callerStep e s b c = some s') : Undisturbed s s' := by
  have hgo : ∀ (s0 : Sys) pc, Undisturbed s s0 → Undisturbed s (s0.setBatch b { s0.batch b with caller := pc }) :=
    fun s0 pc h0 => h0.trans (undisturbed_same rfl rfl rfl rfl)
  unfold callerStep at h
  dsimp only at h
  split at h
  · cases h
    exact hgo s _ (.refl s)
  · split at h <;> cases h <;> exact hgo s _ (.refl s)
  · rename_i d todo rc hpc
    split at h
    · cases h
      exact hgo s _ (.refl s)
    · split at h
      · cases h
        exact hgo s _ (.refl s)
      · cases h
        refine hgo _ _ (undisturbed_reactor (w := d.worker) rfl rfl ?_ rfl rfl rfl)
        simp [Msg.frame, Frame.life?]
  · cases h
    exact hgo s _ (.refl s)
  · rename_i r rs error todo hpc
    cases h
    exact hgo _ _ (completeRequest_undisturbed s r false error)
  · cases h
    exact hgo s _ (.refl s)
  · cases h
    exact hgo s _ (.refl s)
  · cases h
    exact hgo s _ (.refl s)
  · cases h
    exact hgo s _ (.refl s)
  · cases h

theorem transfer_undisturbed {k n : Nat} (h : transfer e s w k n = some s') : Undisturbed s s' := by
  unfold transfer at h
  dsimp only at h
  split at h
  · cases h
  · split at h
    · split at h <;> cases h <;> exact undisturbed_reactor (w := w) rfl rfl rfl rfl rfl rfl
    · cases h

theorem disturb_undisturbed {k : Nat} {noise : Nat → UInt8} (h : disturb e s w k noise = some s') :
    Undisturbed s s' := by
  unfold disturb at h
  dsimp only at h
  split at h
  · cases h
  · split at h <;> cases h <;> exact undisturbed_reactor (w := w) rfl rfl rfl rfl rfl rfl

/-! ## The steps of the life cycle -/

def Effect.postedTo (x : Effect) (v : Nat) : List LifeFrame :=
  match x.post with
  | none => []
  | some (u, f) => if v = u then [f] else []

/-- `s1` is `s` after effect `x`, but for the calls it makes. -/
structure Affected (s s1 : Sys) (x : Effect) : Prop where
  ctx : s1.ctx = x.ctx
  owner : s1.owner = if x.notify then s.owner.woken else s.owner
  runtimeAvailable : s1.runtimeAvailable = s.runtimeAvailable
  stack : ∀ v, (s1.reactor v).stack = (s.reactor v).stack
  queue : ∀ v, ((s1.reactor v).queue.filterMap fun m => m.frame.life?) =
    ((s.reactor v).queue.filterMap fun m => m.frame.life?) ++ x.postedTo v

theorem notifyAll_owner (s : Sys) : s.notifyAll.owner = s.owner.woken := by
  cases h : s.owner <;> simp [Sys.notifyAll, OwnerPc.woken, h]

/-- Only members change, and the owner may be woken. -/
theorem affected_members {x : Effect} (hs : s1.reactor = s.reactor) (hctx : s1.ctx = x.ctx)
    (howner : s1.owner = if x.notify then s.owner.woken else s.owner)
    (hruntime : s1.runtimeAvailable = s.runtimeAvailable) (hpost : x.post = none) : Affected s s1 x := by
  refine ⟨hctx, howner, hruntime, fun v => by rw [hs], fun v => ?_⟩
  simp [hs, Effect.postedTo, hpost]

/-- A life cycle message is posted. -/
theorem affected_post {x : Effect} {u : Nat} {m : Msg} {f : LifeFrame} (hs : s1.reactor = (s.post u m).reactor)
    (hctx : s1.ctx = x.ctx) (howner : s1.owner = s.owner) (hruntime : s1.runtimeAvailable = s.runtimeAvailable)
    (hm : m.frame = .life f) (hpost : x.post = some (u, f)) (hnotify : x.notify = false) : Affected s s1 x := by
  refine ⟨hctx, by rw [howner, hnotify]; rfl, hruntime, fun v => ?_, fun v => ?_⟩ <;> rw [hs]
  · rcases eq_or_ne v u with rfl | hv
    · simp [Sys.post, Sys.setReactor]
    · simp [Sys.post, Sys.setReactor, hv]
  · rcases eq_or_ne v u with rfl | hv
    · simp [Sys.post, Sys.setReactor, Effect.postedTo, hpost, hm, Frame.life?]
    · simp [Sys.post, Sys.setReactor, Effect.postedTo, hpost, hv]

/-- A reactor's resources change. -/
theorem affected_reactor {x : Effect} {u : Nat} {y : Reactor} (hs : s1.reactor = Function.update s.reactor u y)
    (hstack : y.stack = (s.reactor u).stack) (hqueue : y.queue = (s.reactor u).queue) (hctx : s1.ctx = x.ctx)
    (howner : s1.owner = s.owner) (hruntime : s1.runtimeAvailable = s.runtimeAvailable) (hpost : x.post = none)
    (hnotify : x.notify = false) : Affected s s1 x := by
  refine ⟨hctx, by rw [howner, hnotify]; rfl, hruntime, fun v => ?_, fun v => ?_⟩ <;> rw [hs] <;>
    rcases eq_or_ne v u with rfl | hv
  · simpa using hstack
  · simp [hv]
  · simp [hqueue, Effect.postedTo, hpost]
  · simp [hv, Effect.postedTo, hpost]

/-- The agenda of the reactor that runs a call: the calls it made, and what was behind it. -/
theorem affected_cycle {x : Effect} {stack fs : List Frame}
    (h : Affected (s.setReactor w { s.reactor w with stack := stack }) s1 x)
    (hfs : fs.filterMap Frame.life? = x.calls) :
    (s1.setReactor w { s1.reactor w with stack := fs ++ stack }).cycle =
      s.cycle.run w (stack.filterMap Frame.life? ++ (s.reactor w).queue.filterMap fun m => m.frame.life?) x := by
  have hagenda : ∀ v, ((s1.setReactor w { s1.reactor w with stack := fs ++ stack }).reactor v).agenda =
      (s.cycle.run w (stack.filterMap Frame.life? ++ (s.reactor w).queue.filterMap fun m => m.frame.life?) x).agenda
        v := by
    intro v
    have hstack := h.stack v
    have hqueue := h.queue v
    simp only [Cycle.run, Effect.postedTo] at hqueue ⊢
    rcases eq_or_ne v w with rfl | hv
    · simp only [Sys.setReactor, Function.update_self] at hqueue
      cases hpost : x.post with
      | none =>
        rw [hpost] at hqueue
        simp [Reactor.agenda, Sys.setReactor, Cycle.post, Cycle.put, hqueue, hfs]
      | some p =>
        rw [hpost] at hqueue
        rcases eq_or_ne v p.1 with hvp | hvp
        · subst hvp
          simp [Reactor.agenda, Sys.setReactor, Cycle.post, Cycle.put, hqueue, hfs]
        · simp [Reactor.agenda, Sys.setReactor, Cycle.post, Cycle.put, hqueue, hfs, hvp]
    · simp only [Sys.setReactor, ne_eq, hv, not_false_eq_true, Function.update_of_ne] at hstack hqueue
      cases hpost : x.post with
      | none =>
        rw [hpost] at hqueue
        simp [Reactor.agenda, Sys.setReactor, Cycle.post, Cycle.put, Sys.cycle, hqueue, hstack, hv]
      | some p =>
        rw [hpost] at hqueue
        rcases eq_or_ne v p.1 with hvp | hvp
        · subst hvp
          simp [Reactor.agenda, Sys.setReactor, Cycle.post, Cycle.put, Sys.cycle, hqueue, hstack, hv]
        · simp [Reactor.agenda, Sys.setReactor, Cycle.post, Cycle.put, Sys.cycle, hqueue, hstack, hv, hvp]
  have hruntime : ∀ (κ : Cycle) p, (κ.post p).runtimeAvailable = κ.runtimeAvailable := by
    intro κ p
    cases p <;> rfl
  rw [Sys.cycle, funext hagenda, Cycle.run]
  congr 1
  · exact h.ctx
  · exact h.owner
  · rw [hruntime]
    exact h.runtimeAvailable

/-- `initialize_io_worker` changes nothing of the life cycle. -/
theorem initializeIoWorker_life (s : Sys) (w : Nat) (onReactor channel : Bool) (obtained : Nat) :
    (∃ y, (initializeIoWorker e s w onReactor channel obtained).1.reactor = Function.update s.reactor w y ∧
      y.stack = (s.reactor w).stack ∧ y.queue = (s.reactor w).queue) ∧
    (initializeIoWorker e s w onReactor channel obtained).1.ctx = s.ctx ∧
    (initializeIoWorker e s w onReactor channel obtained).1.owner = s.owner ∧
    (initializeIoWorker e s w onReactor channel obtained).1.runtimeAvailable = s.runtimeAvailable := by
  unfold initializeIoWorker
  dsimp only
  split
  · exact ⟨⟨_, (Function.update_eq_self _ _).symm, rfl, rfl⟩, rfl, rfl, rfl⟩
  split
  · exact ⟨⟨_, (Function.update_eq_self _ _).symm, rfl, rfl⟩, rfl, rfl, rfl⟩
  split
  · exact ⟨⟨_, rfl, rfl, rfl⟩, rfl, rfl, rfl⟩
  · exact ⟨⟨_, rfl, rfl, rfl⟩, rfl, rfl, rfl⟩

/-- What one step of a life cycle callback does. -/
theorem runLife_lived {f : LifeFrame} {c : Choice} {fs : List Frame} (h : runLife e s w f c = some (s1, fs)) :
    ∃ x, Lived e s.runtimeAvailable s.ctx w f c x ∧ Affected s s1 x ∧ fs.filterMap Frame.life? = x.calls := by
  unfold runLife at h
  split at h
  · -- the open
    rename_i rc
    split at h
    · rename_i hrc
      cases h
      exact ⟨_, .openFailed rc hrc _, affected_members rfl rfl rfl rfl rfl, rfl⟩
    · rename_i hrc
      rw [Decidable.not_not] at hrc
      subst hrc
      cases h
      exact ⟨_, .opened, affected_members rfl rfl rfl rfl rfl, rfl⟩
  · rename_i created error
    split at h
    · rename_i hlt
      cases h
      exact ⟨_, .rejected created error hlt, affected_members rfl rfl rfl rfl rfl, rfl⟩
    · cases h
  · cases h
    exact ⟨_, .configured, affected_members rfl rfl rfl rfl rfl, rfl⟩
  · -- an initialisation is posted
    rename_i i rc
    split at h
    · rename_i hi
      split at h
      · rename_i hrc
        subst hrc
        cases h
        exact ⟨_, .setUpPosted i hi, affected_post (m := .initializeIoWorker) rfl rfl rfl rfl rfl rfl rfl, rfl⟩
      · rename_i hrc
        cases h
        exact ⟨_, .setUpFailed i rc hi hrc _, affected_members rfl rfl rfl rfl rfl, rfl⟩
    · cases h
  · rename_i i
    split at h
    · cases h
    · rename_i hi
      cases h
      exact ⟨_, .setUpOwn i hi, affected_members rfl rfl rfl rfl rfl, rfl⟩
  · -- a worker sets itself up
    rename_i onReactor channel obtained
    obtain ⟨hreactor, hctx, howner, hruntime⟩ := initializeIoWorker_life (e := e) s w onReactor channel obtained
    cases h
    obtain ⟨y, hreactor, hstack, hqueue⟩ := hreactor
    exact ⟨_, .setUp onReactor channel obtained _, affected_reactor hreactor hstack hqueue hctx howner hruntime rfl rfl,
      rfl⟩
  · -- a worker has set itself up
    rename_i error
    obtain ⟨lastError, heq⟩ := onIoWorkerInitialized_eq s error
    rw [heq] at h
    by_cases hlast : s.ctx.workersInitializing - 1 = 0
    · rw [if_pos hlast] at h
      cases h
      refine ⟨_, .initializedLast error lastError hlast, affected_members rfl rfl rfl rfl rfl, ?_⟩
      cases lastError == "" <;> rfl
    · rw [if_neg hlast] at h
      cases h
      exact ⟨_, .initialized error lastError hlast, affected_members rfl rfl rfl rfl rfl, rfl⟩
  · rename_i message
    cases h
    exact ⟨_, .published message, affected_members rfl rfl rfl rfl rfl, rfl⟩
  · cases h
    exact ⟨_, .notified, affected_members rfl rfl (notifyAll_owner s) rfl rfl, rfl⟩
  · -- a shutdown is requested
    rename_i rc error
    obtain ⟨lastError, code, start, hstart, heq⟩ := requestShutdown_eq s rc error
    rw [heq] at h
    cases h
    refine ⟨_, .requested rc error lastError code start hstart, affected_members rfl rfl rfl rfl rfl, ?_⟩
    cases start <;> rfl
  · -- the teardown is posted
    rename_i rc
    cases h
    unfold postBeginShutdown
    split
    · rename_i hok
      obtain ⟨havail, hrc⟩ := hok
      subst hrc
      exact ⟨_, .beginPosted havail, affected_post (m := .beginShutdown) rfl rfl rfl rfl rfl rfl rfl, rfl⟩
    · rename_i hno
      refine ⟨_, .beginFailed rc _ hno, affected_members rfl rfl ?_ rfl rfl, rfl⟩
      exact notifyAll_owner _
  · -- the teardown begins
    split at h
    · rename_i hstarted
      cases h
      exact ⟨_, .begunAlready hstarted, affected_members rfl rfl rfl rfl rfl, rfl⟩
    · rename_i hstarted
      cases h
      refine ⟨_, .begun (by simpa using hstarted), affected_members rfl rfl rfl rfl rfl, ?_⟩
      split <;> rfl
  · -- a worker's shutdown is posted
    rename_i i rc
    split at h
    · rename_i hi
      split at h
      · rename_i hrc
        subst hrc
        cases h
        exact ⟨_, .shutdownPosted i hi, affected_post (m := .shutdownIoWorker) rfl rfl rfl rfl rfl rfl rfl, rfl⟩
      · rename_i hrc
        cases h
        obtain ⟨-, hctx, howner, hruntime, -⟩ := releasePool_spec { s with ctx := { s.ctx with
          lastError := if s.ctx.lastError = "" then e.spdkError ("stopping SPDK I/O thread " ++ toString i) rc
            else s.ctx.lastError } } i
        exact ⟨_, .shutdownFailed i rc hi hrc _, affected_reactor (postShutdown_reactor _ i) rfl rfl hctx howner hruntime
          rfl rfl, rfl⟩
    · cases h
  · rename_i i
    split at h
    · cases h
    · rename_i hi
      cases h
      exact ⟨_, .shutdownOwn i hi, affected_members rfl rfl rfl rfl rfl, rfl⟩
  · -- the flush of a worker
    dsimp only at h
    split at h
    · cases h
      exact ⟨_, .flushed, affected_reactor (u := w) rfl rfl rfl rfl rfl rfl rfl rfl, rfl⟩
    · cases h
      exact ⟨_, .flushedAll, affected_members rfl rfl rfl rfl rfl, rfl⟩
  · -- a worker's resources are released
    obtain ⟨-, hctx, howner, hruntime, -⟩ := releasePool_spec s w
    cases h
    refine ⟨_, .released, affected_reactor (releaseIoWorker_reactor s w) rfl rfl hctx howner hruntime rfl rfl, ?_⟩
    split <;> rfl
  · rename_i rc
    split at h
    · rename_i hrc
      subst hrc
      cases h
      exact ⟨_, .finishPosted, affected_post (m := .finishShutdown) rfl rfl rfl rfl rfl rfl rfl, rfl⟩
    · rename_i hrc
      cases h
      exact ⟨_, .finishFailed rc hrc, affected_members rfl rfl rfl rfl rfl, rfl⟩
  · rename_i rc
    cases h
    exact ⟨_, .exited rc, affected_members rfl rfl rfl rfl rfl, rfl⟩
  · cases h
    refine ⟨_, .acknowledged, affected_members rfl rfl rfl rfl rfl, ?_⟩
    dsimp only
    split <;> rfl
  · cases h
    exact ⟨_, .descriptorReleased, affected_members rfl rfl rfl rfl rfl, rfl⟩
  · cases h
    exact ⟨_, .finished, affected_members rfl rfl rfl rfl rfl, rfl⟩
  · cases h

/-- An idle reactor starts a callback: that of a message, a command or a waiting request, or an event of the
bdev, which comes with a text. -/
theorem pickUp_cycle {c : Choice} (hidle : (s.reactor w).stack = []) (h : pickUp s w c = some s') :
    s'.cycle = s.cycle ∨ ∃ rc error, w = 0 ∧ error ≠ "" ∧ s.ctx.bdevDescriptor = true ∧
      (∀ f ∈ s.cycle.agenda 0, f.Posted) ∧
      s'.cycle = s.cycle.put 0 (.requestShutdown rc error :: s.cycle.agenda 0) := by
  -- the agenda of a reactor that takes its frames from elsewhere
  have hagenda : ∀ (x : Reactor) (s1 : Sys), s1.reactor = Function.update s.reactor w x → s1.ctx = s.ctx →
      s1.owner = s.owner → s1.runtimeAvailable = s.runtimeAvailable → s1.cycle = s.cycle.put w x.agenda := by
    intro x s1 hs hctx howner hruntime
    simp only [Sys.cycle, Cycle.put, hctx, howner, hruntime, hs]
    congr 1
    funext v
    rcases eq_or_ne v w with rfl | hv
    · simp
    · simp [hv]
  have hquiet : ∀ (x : Reactor) (s1 : Sys), s1.reactor = Function.update s.reactor w x →
      s1.ctx = s.ctx → s1.owner = s.owner → s1.runtimeAvailable = s.runtimeAvailable →
      x.agenda = (s.reactor w).agenda → s1.cycle = s.cycle := by
    intro x s1 hs hctx howner hruntime hx
    rw [hagenda x s1 hs hctx howner hruntime, hx]
    simp only [Cycle.put, Sys.cycle]
    congr 1
    exact Function.update_eq_self w _
  have hposted : ∀ f ∈ (s.reactor w).agenda, f.Posted := by
    intro f hf
    simp only [Reactor.agenda, hidle, List.filterMap_nil, List.nil_append, List.mem_filterMap] at hf
    obtain ⟨m, -, hm⟩ := hf
    cases m <;> simp only [Msg.frame, Frame.life?, Option.some.injEq, reduceCtorEq] at hm <;> subst hm <;> trivial
  have hevent : ∀ rc error, w = 0 → error ≠ "" → s.ctx.bdevDescriptor = true →
      s' = s.setReactor w { s.reactor w with stack := [.life (.requestShutdown rc error)] } →
      ∃ rc error, w = 0 ∧ error ≠ "" ∧ s.ctx.bdevDescriptor = true ∧ (∀ f ∈ s.cycle.agenda 0, f.Posted) ∧
        s'.cycle = s.cycle.put 0 (.requestShutdown rc error :: s.cycle.agenda 0) := by
    rintro rc error rfl herror hd rfl
    refine ⟨rc, error, rfl, herror, hd, hposted, ?_⟩
    refine (hagenda { s.reactor 0 with stack := [.life (.requestShutdown rc error)] } (s.setReactor 0 _)
      rfl rfl rfl rfl).trans ?_
    simp [Reactor.agenda, hidle, Frame.life?, Sys.cycle]
  unfold pickUp at h
  split at h
  · -- a message
    dsimp only at h
    split at h
    · cases h
    · rename_i m rest hqueue
      cases h
      refine .inl (hquiet _ _ rfl rfl rfl rfl ?_)
      cases hm : m.frame.life? <;> simp [Reactor.agenda, hidle, hqueue, hm]
  · dsimp only at h
    split at h
    · cases h
    · cases h
      refine .inl (hquiet _ _ rfl rfl rfl rfl ?_)
      simp [Reactor.agenda, hidle, Frame.life?]
  · dsimp only at h
    split at h
    · cases h
    · split at h
      · cases h
        refine .inl (hquiet _ _ rfl rfl rfl rfl ?_)
        simp [Reactor.agenda, hidle, Frame.life?]
      · cases h
  · split at h
    · rename_i hcond
      exact .inr (hevent _ _ hcond.1 (by decide) hcond.2 (Option.some.inj h).symm)
    · cases h
  · split at h
    · rename_i hcond
      exact .inr (hevent _ _ hcond.1 (by decide) hcond.2 (Option.some.inj h).symm)
    · cases h
  · cases h

/-- An I/O callback is none of the life cycle. -/
theorem ioStep_cycle {c : Choice} {f : IoFrame} {stack : List Frame} (hst : (s.reactor w).stack = .io f :: stack)
    (h : reactorStep e s w c = some s') : s'.cycle = s.cycle := by
  unfold reactorStep at h
  rw [hst] at h
  obtain ⟨⟨s1, fs⟩, hrun, rfl⟩ := Option.map_eq_some_iff.1 h
  obtain ⟨⟨s2, fs'⟩, hio, heq⟩ := Option.map_eq_some_iff.1 hrun
  cases heq
  have hu := runIo_undisturbed hio
  have haffected : Affected (s.setReactor w { s.reactor w with stack := stack }) s2 { ctx := s.ctx } :=
    ⟨hu.ctx, hu.owner, hu.runtimeAvailable, hu.stack, fun v => by rw [hu.queue]; exact (List.append_nil _).symm⟩
  have hnone : (fs'.map Frame.io).filterMap Frame.life? = [] := by
    rw [List.filterMap_map]
    exact List.filterMap_eq_nil_iff.2 fun _ _ => rfl
  have hcycle := affected_cycle haffected hnone
  have hsame : s.cycle.run w (stack.filterMap Frame.life? ++ (s.reactor w).queue.filterMap fun m => m.frame.life?)
      { ctx := s.ctx } = s.cycle := by
    have hw : s.cycle.agenda w = stack.filterMap Frame.life? ++
        (s.reactor w).queue.filterMap fun m => m.frame.life? := by
      simp only [Sys.cycle, Reactor.agenda, hst]
      rfl
    simp only [Cycle.run, Cycle.post, Cycle.put, List.nil_append, ← hw, Function.update_eq_self]
    rfl
  exact hcycle.trans hsame

/-- A life cycle call has its effect, and its calls are the next ones. -/
theorem lifeStep_cycle {c : Choice} {f : LifeFrame} {stack : List Frame}
    (hst : (s.reactor w).stack = .life f :: stack) (h : reactorStep e s w c = some s') : ∃ rest x,
    s.cycle.agenda w = f :: rest ∧ Lived e s.runtimeAvailable s.ctx w f c x ∧ s'.cycle = s.cycle.run w rest x := by
  unfold reactorStep at h
  rw [hst] at h
  obtain ⟨⟨s1, fs⟩, hrun, rfl⟩ := Option.map_eq_some_iff.1 h
  obtain ⟨x, hlived, haffected, hfs⟩ := runLife_lived hrun
  refine ⟨_, x, ?_, hlived, affected_cycle haffected hfs⟩
  simp [Sys.cycle, Reactor.agenda, hst, Frame.life?]

theorem reactorStep_turn {c : Choice} (h : reactorStep e s w c = some s') : Turn e s (.reactor w c) s'.cycle := by
  rcases hst : (s.reactor w).stack with _ | ⟨_ | f, stack⟩
  · rw [reactorStep, hst] at h
    rcases pickUp_cycle hst h with hcycle | ⟨rc, error, rfl, -, hd, hposted, hcycle⟩
    · exact hcycle ▸ .idle _
    · exact hcycle ▸ .event c rc error hd hposted
  · exact ioStep_cycle hst h ▸ .idle _
  · obtain ⟨rest, x, hag, hlived, hcycle⟩ := lifeStep_cycle hst h
    exact hcycle ▸ .run w c f stack rest x hst hag hlived

theorem ownerStep_owned {c : Choice} (h : ownerStep e s c = some s') : Owned e s.cycle c s'.cycle := by
  unfold ownerStep at h
  split at h
  · rename_i ho
    cases h
    exact .checked ho
  · rename_i ho
    cases h
    exact .wokenInitialization ho
  · rename_i ho
    cases h
    exact .wokenShutdown ho
  · rename_i ho
    cases h
    exact .close (.inl ho)
  · rename_i ho
    cases h
    exact .close (.inr ho)
  · rename_i ho
    split at h
    · rename_i hclosed
      cases h
      exact .closedAlready ho hclosed
    · rename_i hclosed
      split at h
      · rename_i hopen
        cases h
        exact .marked ho (by simpa [Sys.cycle] using hclosed) (by simpa [Sys.cycle] using hopen)
      · rename_i hopen
        cases h
        simp only [ne_eq, Bool.or_eq_true, decide_eq_true_eq, not_or, Bool.not_eq_true, Decidable.not_not] at hopen
        exact .nothingOpen ho (by simpa [Sys.cycle] using hclosed) hopen.1 hopen.2
  · rename_i ho
    obtain ⟨lastError, code, start, hstart, heq⟩ := requestShutdown_eq s 0 ""
    rw [heq] at h
    cases h
    exact .requested ho lastError code start hstart
  · -- the teardown is posted
    rename_i rc ho
    cases h
    unfold postBeginShutdown
    split
    · rename_i hok
      obtain ⟨havail, hrc⟩ := hok
      subst hrc
      have hturn := Owned.beginPosted (e := e) (κ := s.cycle) ho havail
      convert hturn using 1
      simp only [Sys.cycle, Cycle.put, Sys.post, Sys.setReactor]
      congr 1
      funext v
      rcases eq_or_ne v 0 with rfl | hv
      · simp [Reactor.agenda, Msg.frame, Frame.life?]
      · simp [hv]
    · rename_i hno
      exact .beginFailed ho rc _ hno
  · rename_i ho
    cases h
    exact .waited ho
  · rename_i ho
    cases h
    exact .claimReleased ho
  · cases h

/-- **Every step of the context is a turn of its life cycle.** -/
theorem step_turn {a : Action} (h : step e s a = some s') : Turn e s a s'.cycle := by
  cases a with
  | reactor w c =>
    simp only [step] at h
    split at h
    · exact reactorStep_turn h
    · cases h
  | caller b c =>
    rw [(callerStep_undisturbed h).cycle]
    exact .idle _
  | submit operation items memory =>
    simp only [step] at h
    split at h
    · cases h
      obtain ⟨n, m, heq⟩ | ⟨-, -, -, -, -, n, m, heq⟩ := submitBatch_cases e s operation items memory
      · rw [heq]
        exact .counted operation items memory n
      · rw [heq]
        exact .counted operation items memory n
    · cases h
  | owner c => exact .owner c _ (ownerStep_owned h)
  | transfer w k n =>
    have hsame : s'.cycle = s.cycle := (transfer_undisturbed h).cycle
    rw [hsame]
    exact .idle _
  | disturb w k noise =>
    have hsame : s'.cycle = s.cycle := (disturb_undisturbed h).cycle
    rw [hsame]
    exact .idle _
  | runtimeStops =>
    cases h
    exact .stops

end SpdkBdevContext
end SpdkConnector
