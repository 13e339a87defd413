import SpdkConnector.Segments
import SpdkConnector.Context.BufferPool
import Mathlib.Logic.Function.Basic

/-!
# `SpdkBdevContext` (spdk/spdk_bdev_context.cpp)

The context as a machine of threads: one reactor per I/O worker (worker 0 runs on the application
thread), one caller per batch, and the owner that constructs and closes the context. An action is one
step of one thread, up to and including one critical section or one call into SPDK, or one step of the
device. A reactor runs one callback at a time; the callback's unfinished part is its stack of frames.

| here | there |
| --- | --- |
| `Reactor` | an SPDK thread with its message ring, its `IoWorker`, and SPDK's side of the channel |
| `IoFrame`, `LifeFrame` | where a callback is: the I/O functions (:769-975), the life cycle (:331-675) |
| `IoBatchRequest`, `CallerPc` | `submit_batch_and_wait` (:677-750), the batch and where its caller is |
| `OwnerPc` | the constructor's wait (:195-208) and `close()` (:253-286) |
| `Choice` | what the environment decides: return codes, callback status, which entry fires |

SPDK calls back each accepted command once, never from inside the submit call; `spdk_bdev_free_io` may
run a waiting `io_wait` callback before it returns. A command moves its bytes in any number of pieces
between its acceptance and its callback; one that fails may leave anything in its own range. The wait
times in the metrics are left out. Fields marked *observed* are read by no code.
-/

namespace SpdkConnector
namespace SpdkBdevContext

/-- A request: its batch, and the item it was built from. -/
abbrev Ref := Nat × Nat

/-- What construction is given: the geometry the bdev yields, the number of workers, texts. -/
structure Env where
  geometry : StorageGeometry
  ioThreadCount : Nat
  bdevName : String
  strerror : Nat → String

/-- `SpdkError` (:44). -/
def Env.spdkError (e : Env) (operation : String) (rc : Int) : String :=
  operation ++ " failed with code " ++ toString rc ++ " (" ++ e.strerror rc.natAbs ++ ")"

def enomem : Int := -12
def einval : Int := -22
def enodev : Int := -19
def enotsup : Int := -95

/-- `IoRequest` (:104). -/
structure IoRequest where
  worker : Nat := 0
  resultIndex : Nat := 0
  operation : Operation := .read
  item : IoBatchItem := ⟨none, 0, 0, 0⟩
  blockOffset : Nat := 0
  blockCount : Nat := 0
  immediateSubmitResult : Int := 0
  bufferIndex : Option Nat := none
  /-- `buffer_wait_started_at.has_value()`. -/
  bufferWaiting : Bool := false
  retryCount : Nat := 0
  started : Bool := false
  completed : Bool := false
  /-- *observed*: calls of `complete_request`. -/
  completions : Nat := 0
  /-- *observed*: the status SPDK called back with. -/
  reported : Option Bool := none
  /-- *observed*: the bytes copied into the caller buffer. -/
  copied : Option Bytes := none

/-- `IoWorkerDispatch` (:132). -/
structure IoWorkerDispatch where
  worker : Nat
  requests : List Ref
deriving DecidableEq, Repr

/-- Where the caller of `submit_batch_and_wait` is. -/
inductive CallerPc where
  | absent
  /-- The loop over the dispatches (:727). -/
  | posting (todo : List IoWorkerDispatch)
  /-- `send_message` past its life cycle check (:766). -/
  | sending (d : IoWorkerDispatch) (todo : List IoWorkerDispatch)
  /-- The loop completing the requests of a dispatch that could not be posted (:736). -/
  | failing (rest : List Ref) (error : String) (todo : List IoWorkerDispatch)
  /-- The `notify_one` of the last of these. -/
  | notifying (rest : List Ref) (error : String) (todo : List IoWorkerDispatch)
  /-- About to check the predicate of the wait (:744). -/
  | waiting
  | sleeping
  /-- Past the wait, about to return and destroy the batch. -/
  | returning
  | returned
deriving DecidableEq, Repr

/-- `IoBatchRequest` (:138) with the caller's buffers; its `i`th request is `(b, i)`. -/
structure IoBatchRequest where
  operation : Operation := .read
  items : List IoBatchItem := []
  remaining : Nat := 0
  results : List IoResult := []
  memory : Nat → Nat → UInt8 := fun _ _ => 0
  caller : CallerPc := .absent

/-- A read or write accepted by SPDK and not called back. -/
structure Command where
  request : Ref
  operation : Operation
  buffer : Nat
  blockOffset : Nat
  blockCount : Nat
  moved : Nat := 0
  disturbed : Bool := false
deriving DecidableEq, Repr

inductive IoFrame where
  /-- The rest of the loop of `execute_worker_batch` (:771). -/
  | executeWorkerBatch (requests : List Ref)
  | executeIo (r : Ref)
  /-- `spdk_bdev_free_io` (:908). -/
  | freeIo (r : Ref) (success : Bool)
  | completeIo (r : Ref) (success : Bool)
  | completeRequest (r : Ref) (success : Bool) (error : String)
  /-- The `notify_one` after the critical section (:973). -/
  | notifyOne (b : Nat)
  | drainPendingIo (w : Nat)
  /-- The loop of `drain_pending_io` (:948). -/
  | drainLoop (w : Nat)
deriving DecidableEq, Repr

inductive LifeFrame where
  | onRuntimeReady
  /-- `on_runtime_ready` after the open (:349-414). -/
  | configure
  /-- The loop posting the initialisations (:419). -/
  | postSetUp (i : Nat)
  | initializeIoWorker
  | onIoWorkerInitialized (error : String)
  | publishInitializationFailure (message : String)
  /-- `initialization_cv_.notify_all()` outside the lock. -/
  | notifyAll
  | requestShutdown (rc : Int) (error : String)
  /-- `request_shutdown` past its critical section (:540). -/
  | postBeginShutdown
  | beginShutdown
  /-- The loop of `begin_shutdown_on_app_thread` (:570). -/
  | postShutdown (i : Nat)
  /-- The flush loop of `shutdown_io_worker` (:601). -/
  | shutdownIoWorker
  /-- `shutdown_io_worker` after the loop (:607-617). -/
  | releaseIoWorker
  /-- The acknowledgement of a secondary worker (:624). -/
  | postFinish
  | threadExit (sendResult : Int)
  | onIoWorkerShutdown
  /-- `finish_shutdown_on_app_thread` up to its critical section (:649). -/
  | releaseDescriptor
  | finishShutdown
deriving DecidableEq, Repr

inductive Frame where
  | io (f : IoFrame)
  | life (f : LifeFrame)
deriving DecidableEq, Repr

/-- A message in an SPDK thread's ring. -/
inductive Msg where
  | executeWorkerBatch (d : IoWorkerDispatch)
  | retryIo (r : Ref)
  | open
  | initializeIoWorker
  | beginShutdown
  | shutdownIoWorker
  | finishShutdown
deriving DecidableEq, Repr

/-- The call its callback makes (:288-329). -/
def Msg.frame : Msg → Frame
  | .executeWorkerBatch d => .io (.executeWorkerBatch d.requests)
  | .retryIo r => .io (.executeIo r)
  | .open => .life .onRuntimeReady
  | .initializeIoWorker => .life .initializeIoWorker
  | .beginShutdown => .life .beginShutdown
  | .shutdownIoWorker => .life .shutdownIoWorker
  | .finishShutdown => .life .onIoWorkerShutdown

structure Reactor where
  queue : List Msg := []
  stack : List Frame := []
  pool : SpdkBufferPool := {}
  /-- The bytes behind each buffer address. -/
  dma : Nat → Nat → UInt8 := fun _ _ => 0
  /-- `io_channel != nullptr`. -/
  ioChannel : Bool := false
  /-- SPDK has not been given the channel back. -/
  channelHeld : Bool := false
  dmaPoolAllocatedBytes : Nat := 0
  pendingIo : List Ref := []
  drainingPendingIo : Bool := false
  inFlight : List Command := []
  ioWait : List Ref := []
  /-- *observed*: `shutdown_io_worker` has released this worker's resources. -/
  shutDown : Bool := false

/-- `IoMetrics` (spdk_bdev_context.h:60) without the wait times. -/
structure IoMetrics where
  submitted : Nat := 0
  completed : Nat := 0
  succeeded : Nat := 0
  failed : Nat := 0
  bufferPoolStarvations : Nat := 0
  queueRetries : Nat := 0
  dmaBufferPoolAllocatedBytes : Nat := 0
  dmaBufferPoolInUseBytes : Nat := 0
  dmaBufferPoolPeakInUseBytes : Nat := 0
  submittedLogicalBytes : Nat := 0
  submittedPhysicalBytes : Nat := 0
  submittedUnusedDmaBufferBytes : Nat := 0
  submittedWritePaddingBytes : Nat := 0

/-- Where the constructing and closing thread is. -/
inductive OwnerPc where
  /-- About to check the predicate of the constructor's wait (:199). -/
  | constructing
  | sleepingInitialization
  /-- Construction succeeded. -/
  | running
  /-- `close()` before its critical section. -/
  | closing
  | requesting
  | postingShutdown
  /-- About to check the predicate of the wait of `close()` (:274). -/
  | closeWaiting
  | sleepingShutdown
  | releasing
  /-- `close()` has returned. -/
  | closed
deriving DecidableEq, Repr

/-- The members of the context (spdk_bdev_context.h:236-280). -/
structure Members where
  /-- `runtime_ != nullptr`. -/
  runtime : Bool := true
  initializationComplete : Bool := false
  initializationSucceeded : Bool := false
  closed : Bool := false
  lastError : String := ""
  shutdownRequested : Bool := false
  shutdownStarted : Bool := false
  shutdownComplete : Bool := false
  bdevClaimed : Bool := true
  workersInitializing : Nat := 0
  workersShuttingDown : Nat := 0
  shutdownReturnCode : Int := 0
  /-- `bdev_descriptor_ != nullptr`. -/
  bdevDescriptor : Bool := false
  /-- `io_workers_.size()`. -/
  ioWorkers : Nat := 0
  nextIoWorker : Nat := 0

structure Sys where
  ctx : Members := {}
  reactor : Nat → Reactor := fun w => if w = 0 then { queue := [.open] } else {}
  batch : Nat → IoBatchRequest := fun _ => {}
  request : Ref → IoRequest := fun _ => {}
  /-- *observed*: the number of batches admitted so far. -/
  batches : Nat := 0
  owner : OwnerPc := .constructing
  runtimeAvailable : Bool := true
  device : Nat → UInt8 := fun _ => 0
  metrics : IoMetrics := {}

/-- The context whose constructor has posted `OpenCallback` (:186). -/
def Sys.init (device : Nat → UInt8) : Sys := { device }

def Sys.setReactor (s : Sys) (w : Nat) (x : Reactor) : Sys :=
  { s with reactor := Function.update s.reactor w x }
def Sys.setRequest (s : Sys) (r : Ref) (x : IoRequest) : Sys :=
  { s with request := Function.update s.request r x }
def Sys.setBatch (s : Sys) (b : Nat) (x : IoBatchRequest) : Sys :=
  { s with batch := Function.update s.batch b x }

/-- `spdk_thread_send_msg` accepting a message. -/
def Sys.post (s : Sys) (w : Nat) (m : Msg) : Sys :=
  s.setReactor w { s.reactor w with queue := (s.reactor w).queue ++ [m] }

/-- What the environment decides in a step. -/
inductive Choice where
  | next
  /-- The return code of the SPDK call of the step. -/
  | code (rc : Int)
  /-- The return codes of the submit call, `spdk_bdev_queue_io_wait` and `spdk_thread_send_msg`. -/
  | submit (submitResult waitResult sendResult : Int)
  /-- `spdk_bdev_free_io` runs the `k`th waiting callback. -/
  | fire (k : Nat)
  /-- The geometry or a thread creation fails after `created` workers. -/
  | reject (created : Nat) (error : String)
  /-- A worker is on its reactor, gets its channel, and obtains this many DMA buffers. -/
  | setUp (onReactor channel : Bool) (obtained : Nat)
  /-- An idle reactor takes its next message. -/
  | message
  /-- SPDK calls back the `k`th command in flight. -/
  | completion (k : Nat) (success : Bool)
  /-- SPDK runs the `k`th `io_wait` callback. -/
  | ioWait (k : Nat)
  | resize
  | remove

/-! ## I/O -/

/-- `release_buffer` (:928). -/
def releaseBuffer (e : Env) (s : Sys) (r : Ref) : Sys :=
  let q := s.request r
  match q.bufferIndex with
  | none => s
  | some index =>
    let x := s.reactor q.worker
    let s := match x.pool.release index with
      | (.ok _, pool) =>
        { s.setReactor q.worker { x with pool } with
          metrics := { s.metrics with
            dmaBufferPoolInUseBytes := sub64 s.metrics.dmaBufferPoolInUseBytes e.geometry.ioSegmentSize } }
      | (.error _, _) => s
    s.setRequest r { q with bufferIndex := none }

/-- `complete_request` up to the end of its critical section (:956-971), and `batch_complete`. -/
def completeRequest (s : Sys) (r : Ref) (success : Bool) (error : String) : Sys × Bool :=
  let q := s.request r
  if q.completed then (s.setRequest r { q with completions := q.completions + 1 }, false)
  else
    let b := s.batch r.1
    let m := s.metrics
    let remaining := sub64 b.remaining 1
    let s := s.setRequest r { q with completions := q.completions + 1, completed := true }
    let s := s.setBatch r.1 { b with results := b.results.set q.resultIndex ⟨success, error⟩, remaining }
    ({ s with metrics := { m with
        completed := add64 m.completed 1
        succeeded := if success then add64 m.succeeded 1 else m.succeeded
        failed := if success then m.failed else add64 m.failed 1 } }, remaining == 0)

/-- The byte `memset` and `memcpy` leave at position `j` of the staging buffer (:826-829). -/
def stagedByte (memory : Nat → Nat → UInt8) (it : IoBatchItem) (old : Nat → UInt8) (j : Nat) : UInt8 :=
  if j < it.logicalLength then it.buffer.elim 0 fun p => memory p.buffer (p.offset + j)
  else if j < it.physicalLength then 0
  else old j

/-- The bytes of the caller's buffers after a `memcpy` to the item's buffer (:913). -/
def copyToCaller (memory : Nat → Nat → UInt8) (it : IoBatchItem) (bytes : Bytes) : Nat → Nat → UInt8 :=
  fun buffer j =>
    match it.buffer with
    | none => memory buffer j
    | some p =>
      if buffer = p.buffer ∧ p.offset ≤ j ∧ j < p.offset + bytes.length then bytes.getD (j - p.offset) 0
      else memory buffer j

/-- The catch block of `execute_io_on_worker` (:896), and its other failure exits. -/
def failIo (e : Env) (s : Sys) (r : Ref) (error : String) : Sys × List IoFrame :=
  (releaseBuffer e s r, [.completeRequest r false error, .drainPendingIo (s.request r).worker])

/-- `execute_io_on_worker` once a buffer is leased (:800-895). -/
def submitIo (e : Env) (s : Sys) (r : Ref) (index : Nat) (submitResult waitResult sendResult : Int) :
    Sys × List IoFrame :=
  let q := s.request r
  let x := s.reactor q.worker
  match x.pool.data index with
  | .error error => failIo e s r error.what
  | .ok buffer =>
    let dma := if q.operation = .write then
        Function.update x.dma buffer (stagedByte (s.batch r.1).memory q.item (x.dma buffer))
      else x.dma
    let q := { q with
      blockOffset := q.item.byteOffset / e.geometry.blockSize
      blockCount := q.item.physicalLength / e.geometry.blockSize
      immediateSubmitResult := submitResult }
    let s := (s.setReactor q.worker { x with dma }).setRequest r q
    if submitResult = enomem then
      let s := releaseBuffer e s r
      let s := s.setRequest r { s.request r with retryCount := q.retryCount + 1 }
      let s := { s with metrics := { s.metrics with queueRetries := add64 s.metrics.queueRetries 1 } }
      let x := s.reactor q.worker
      if waitResult = 0 then (s.setReactor q.worker { x with ioWait := x.ioWait ++ [r] }, [])
      else if waitResult = einval ∧ sendResult = 0 then (s.post q.worker (.retryIo r), [])
      else (s, [.completeRequest r false (e.spdkError "queueing SPDK bdev I/O wait" waitResult),
                .drainPendingIo q.worker])
    else if submitResult ≠ 0 then failIo e s r (e.spdkError "submitting SPDK bdev I/O" submitResult)
    else
      let x := s.reactor q.worker
      let m := s.metrics
      ({ s.setReactor q.worker { x with inFlight := x.inFlight ++
            [⟨r, q.operation, buffer, q.blockOffset, q.blockCount, 0, false⟩] } with
          metrics := { m with
            submittedLogicalBytes := add64 m.submittedLogicalBytes q.item.logicalLength
            submittedPhysicalBytes := add64 m.submittedPhysicalBytes q.item.physicalLength
            submittedUnusedDmaBufferBytes := add64 m.submittedUnusedDmaBufferBytes
              (sub64 e.geometry.ioSegmentSize q.item.physicalLength)
            submittedWritePaddingBytes := if q.operation = .write then
                add64 m.submittedWritePaddingBytes (sub64 q.item.physicalLength q.item.logicalLength)
              else m.submittedWritePaddingBytes } }, [])

/-- `execute_io_on_worker` on SPDK thread `w` (:776). -/
def executeIo (e : Env) (s : Sys) (w : Nat) (r : Ref) (submitResult waitResult sendResult : Int) :
    Sys × List IoFrame :=
  let q := s.request r
  if w ≠ q.worker then failIo e s r "SPDK I/O executed on the wrong worker thread"
  else
    let q := { q with started := true }
    let s := s.setRequest r q
    let x := s.reactor q.worker
    match x.pool.tryAcquire with
    | (.error error, pool) => failIo e (s.setReactor q.worker { x with pool }) r error.what
    | (.ok none, _) =>
      let m := s.metrics
      let s := s.setRequest r { q with bufferWaiting := true }
      ({ s.setReactor q.worker { x with pendingIo := x.pendingIo ++ [r] } with
          metrics := { m with bufferPoolStarvations :=
            if q.bufferWaiting then m.bufferPoolStarvations else add64 m.bufferPoolStarvations 1 } }, [])
    | (.ok (some index), pool) =>
      let m := s.metrics
      let inUse := add64 m.dmaBufferPoolInUseBytes e.geometry.ioSegmentSize
      let s := s.setRequest r { q with bufferIndex := some index, bufferWaiting := false }
      let s := { s.setReactor q.worker { x with pool } with
        metrics := { m with
          dmaBufferPoolInUseBytes := inUse
          dmaBufferPoolPeakInUseBytes := max m.dmaBufferPoolPeakInUseBytes inUse } }
      submitIo e s r index submitResult waitResult sendResult

/-- `complete_io_on_worker` after `spdk_bdev_free_io` (:910-926). -/
def completeIo (e : Env) (s : Sys) (r : Ref) (success : Bool) : Sys × List IoFrame :=
  let q := s.request r
  if success ∧ q.operation = .read then
    match (s.reactor q.worker).pool.data (q.bufferIndex.getD 0) with
    | .error error => failIo e s r error.what
    | .ok buffer =>
      let bytes := (List.range q.item.logicalLength).map ((s.reactor q.worker).dma buffer)
      let b := s.batch r.1
      let s := s.setBatch r.1 { b with memory := copyToCaller b.memory q.item bytes }
      let s := s.setRequest r { q with copied := some bytes }
      (releaseBuffer e s r, [.completeRequest r success "", .drainPendingIo q.worker])
  else
    (releaseBuffer e s r,
      [.completeRequest r success (if success then "" else "SPDK bdev I/O failed"), .drainPendingIo q.worker])

/-- One step of an I/O callback on SPDK thread `w`: the state and the calls it makes. -/
def runIo (e : Env) (s : Sys) (w : Nat) : IoFrame → Choice → Option (Sys × List IoFrame)
  | .executeWorkerBatch [], .next => some (s, [])
  | .executeWorkerBatch (r :: rs), .next => some (s, [.executeIo r, .executeWorkerBatch rs])
  | .executeIo r, .submit submitResult waitResult sendResult =>
    some (executeIo e s w r submitResult waitResult sendResult)
  | .freeIo r success, .fire k =>
    let x := s.reactor w
    match x.ioWait[k]? with
    | none => none
    | some r' =>
      if x.channelHeld then
        some (s.setReactor w { x with ioWait := x.ioWait.eraseIdx k }, [.executeIo r', .freeIo r success])
      else none
  | .freeIo r success, .next => some (s, [.completeIo r success])
  | .completeIo r success, .next => some (completeIo e s r success)
  | .completeRequest r success error, .next =>
    let (s, batchComplete) := completeRequest s r success error
    some (s, if batchComplete then [.notifyOne r.1] else [])
  | .notifyOne b, .next =>
    if (s.batch b).caller = .sleeping then some (s.setBatch b { s.batch b with caller := .waiting }, [])
    else some (s, [])
  | .drainPendingIo v, .next =>
    let x := s.reactor v
    if x.drainingPendingIo then some (s, [])
    else some (s.setReactor v { x with drainingPendingIo := true }, [.drainLoop v])
  | .drainLoop v, .next =>
    let x := s.reactor v
    match x.pendingIo with
    | r :: rest =>
      if x.pool.available ≠ 0 then
        some (s.setReactor v { x with pendingIo := rest }, [.executeIo r, .drainLoop v])
      else some (s.setReactor v { x with drainingPendingIo := false }, [])
    | [] => some (s.setReactor v { x with drainingPendingIo := false }, [])
  | _, _ => none

/-! ## Life cycle -/

/-- `initialization_cv_.notify_all()`. -/
def Sys.notifyAll (s : Sys) : Sys :=
  { s with owner := match s.owner with
      | .sleepingInitialization => .constructing
      | .sleepingShutdown => .closeWaiting
      | pc => pc }

/-- The critical section of `request_shutdown` (:523-537), and `start_shutdown`. -/
def requestShutdown (s : Sys) (rc : Int) (error : String) : Sys × Bool :=
  let c := s.ctx
  let c := if error ≠ "" then { c with lastError := error } else c
  let c := if rc ≠ 0 ∧ c.shutdownReturnCode = 0 then { c with shutdownReturnCode := rc } else c
  if !c.shutdownRequested && c.runtime && s.runtimeAvailable then
    ({ s with ctx := { c with shutdownRequested := true } }, true)
  else ({ s with ctx := c }, false)

/-- The rest of `request_shutdown`: post the teardown, or give up (:540-550). -/
def postBeginShutdown (e : Env) (s : Sys) (rc : Int) : Sys :=
  if s.runtimeAvailable ∧ rc = 0 then s.post 0 .beginShutdown
  else
    let what := if s.runtimeAvailable then e.spdkError "posting SPDK message" rc
      else "SPDK runtime is unavailable"
    Sys.notifyAll { s with ctx := { s.ctx with
      lastError := if s.ctx.lastError = "" then what else s.ctx.lastError
      shutdownComplete := true } }

/-- Give back a worker's DMA accounting (:609-614). -/
def releaseAccounting (s : Sys) (w : Nat) : Sys :=
  let x := s.reactor w
  if x.dmaPoolAllocatedBytes ≠ 0 then
    { s.setReactor w { x with dmaPoolAllocatedBytes := 0 } with
      metrics := { s.metrics with
        dmaBufferPoolAllocatedBytes := sub64 s.metrics.dmaBufferPoolAllocatedBytes x.dmaPoolAllocatedBytes } }
  else s

/-- `buffer_pool.release_all()` on worker `w`. -/
def releasePool (s : Sys) (w : Nat) : Sys :=
  releaseAccounting (s.setReactor w { s.reactor w with pool := (s.reactor w).pool.releaseAll }) w

/-- `initialize_io_worker` (:432-472): the state and the error text. -/
def initializeIoWorker (e : Env) (s : Sys) (w : Nat) (onReactor channel : Bool) (obtained : Nat) :
    Sys × String :=
  let g := e.geometry
  if !onReactor then
    (s, "SPDK I/O worker " ++ toString w ++ " was not scheduled on its selected reactor")
  else if !channel then (s, "creating bdev I/O channel for SPDK worker " ++ toString w ++ " failed")
  else
    let x := { s.reactor w with ioChannel := true, channelHeld := true }
    match x.pool.initializePool g.ioSegmentSize g.bufferAlignment g.spdkBufferCount
        (fun i => if i < obtained then some i else none) with
    | (.error error, pool) => (s.setReactor w { x with pool }, error.what)
    | (.ok _, pool) =>
      let bytes := mul64 g.ioSegmentSize g.spdkBufferCount
      ({ s.setReactor w { x with pool, dma := fun _ _ => 0, dmaPoolAllocatedBytes := bytes } with
          metrics := { s.metrics with
            dmaBufferPoolAllocatedBytes := add64 s.metrics.dmaBufferPoolAllocatedBytes bytes } }, "")

/-- The critical section of `on_io_worker_initialized` (:477-492), and what follows it. -/
def onIoWorkerInitialized (s : Sys) (error : String) : Sys × List LifeFrame :=
  let c := s.ctx
  let c := if error ≠ "" ∧ c.lastError = "" then { c with lastError := error } else c
  let c := { c with workersInitializing := c.workersInitializing - 1 }
  if c.workersInitializing = 0 then
    let succeeded := c.lastError == ""
    ({ s with ctx := { c with initializationSucceeded := succeeded, initializationComplete := true } },
      .notifyAll :: if succeeded then [] else [.requestShutdown einval ""])
  else ({ s with ctx := c }, [])

/-- One step of a life cycle callback on SPDK thread `w`. -/
def runLife (e : Env) (s : Sys) (w : Nat) : LifeFrame → Choice → Option (Sys × List Frame)
  | .onRuntimeReady, .code rc =>
    if rc ≠ 0 then
      some (s, [.life (.publishInitializationFailure
          (e.spdkError ("opening bdev '" ++ e.bdevName ++ "'") rc)), .life (.requestShutdown rc "")])
    else some ({ s with ctx := { s.ctx with bdevDescriptor := true } }, [.life .configure])
  | .configure, .reject created error =>
    if created < e.ioThreadCount then
      some ({ s with ctx := { s.ctx with ioWorkers := created } },
        [.life (.publishInitializationFailure error), .life (.requestShutdown einval "")])
    else none
  | .configure, .next =>
    some ({ s with ctx := { s.ctx with ioWorkers := e.ioThreadCount, workersInitializing := e.ioThreadCount } },
      [.life (.postSetUp 1)])
  | .postSetUp i, .code rc =>
    if i < s.ctx.ioWorkers then
      if rc = 0 then some (s.post i .initializeIoWorker, [.life (.postSetUp (i + 1))])
      else some (s, [.life (.onIoWorkerInitialized
          (e.spdkError ("initializing SPDK I/O thread " ++ toString i) rc)), .life (.postSetUp (i + 1))])
    else none
  | .postSetUp i, .next =>
    if i < s.ctx.ioWorkers then none else some (s, [.life .initializeIoWorker])
  | .initializeIoWorker, .setUp onReactor channel obtained =>
    let (s, error) := initializeIoWorker e s w onReactor channel obtained
    some (s, [.life (.onIoWorkerInitialized error)])
  | .onIoWorkerInitialized error, .next =>
    let (s, frames) := onIoWorkerInitialized s error
    some (s, frames.map .life)
  | .publishInitializationFailure message, .next =>
    some ({ s with ctx := { s.ctx with
        lastError := message, initializationSucceeded := false, initializationComplete := true } },
      [.life .notifyAll])
  | .notifyAll, .next => some (s.notifyAll, [])
  | .requestShutdown rc error, .next =>
    let (s, start) := requestShutdown s rc error
    some (s, if start then [.life .postBeginShutdown] else [])
  | .postBeginShutdown, .code rc => some (postBeginShutdown e s rc, [])
  | .beginShutdown, .next =>
    if s.ctx.shutdownStarted then some (s, [])
    else
      let s := { s with ctx := { s.ctx with
        shutdownStarted := true, workersShuttingDown := s.ctx.ioWorkers } }
      some (s, if s.ctx.ioWorkers = 0 then [.life .releaseDescriptor] else [.life (.postShutdown 1)])
  | .postShutdown i, .code rc =>
    if i < s.ctx.ioWorkers then
      if rc = 0 then some (s.post i .shutdownIoWorker, [.life (.postShutdown (i + 1))])
      else
        let error := e.spdkError ("stopping SPDK I/O thread " ++ toString i) rc
        let s := { s with ctx := { s.ctx with
          lastError := if s.ctx.lastError = "" then error else s.ctx.lastError } }
        let s := releasePool s i
        some (s.setReactor i { s.reactor i with ioChannel := false },
          [.life .onIoWorkerShutdown, .life (.postShutdown (i + 1))])
    else none
  | .postShutdown i, .next =>
    if i < s.ctx.ioWorkers then none else some (s, [.life .shutdownIoWorker])
  | .shutdownIoWorker, .next =>
    let x := s.reactor w
    match x.pendingIo with
    | r :: rest =>
      some (s.setReactor w { x with pendingIo := rest },
        [.io (.completeRequest r false "SPDK runtime is shutting down"), .life .shutdownIoWorker])
    | [] => some (s, [.life .releaseIoWorker])
  | .releaseIoWorker, .next =>
    let s := releasePool s w
    let x := s.reactor w
    let s := s.setReactor w { x with
      channelHeld := if x.ioChannel then false else x.channelHeld
      ioChannel := false
      shutDown := true }
    some (s, if w = 0 then [.life .onIoWorkerShutdown] else [.life .postFinish])
  | .postFinish, .code rc =>
    some (if rc = 0 then s.post 0 .finishShutdown else s, [.life (.threadExit rc)])
  | .threadExit _, .next => some (s, [])
  | .onIoWorkerShutdown, .next =>
    let left := s.ctx.workersShuttingDown - 1
    some ({ s with ctx := { s.ctx with workersShuttingDown := left } },
      if left = 0 then [.life .releaseDescriptor] else [])
  | .releaseDescriptor, .next =>
    some ({ s with
        ctx := { s.ctx with bdevDescriptor := false }
        metrics := { s.metrics with dmaBufferPoolInUseBytes := 0 } }, [.life .finishShutdown])
  | .finishShutdown, .next =>
    some ({ s with ctx := { s.ctx with shutdownComplete := true } }, [.life .notifyAll])
  | _, _ => none

/-! ## Threads -/

def runFrame (e : Env) (s : Sys) (w : Nat) (c : Choice) : Frame → Option (Sys × List Frame)
  | .io f => (runIo e s w f c).map fun p => (p.1, p.2.map .io)
  | .life f => runLife e s w f c

/-- An idle reactor starts a callback. -/
def pickUp (s : Sys) (w : Nat) : Choice → Option Sys
  | .message =>
    let x := s.reactor w
    match x.queue with
    | [] => none
    | m :: rest => some (s.setReactor w { x with queue := rest, stack := [m.frame] })
  | .completion k success =>
    let x := s.reactor w
    match x.inFlight[k]? with
    | none => none
    | some c =>
      let s := s.setReactor w { x with
        inFlight := x.inFlight.eraseIdx k, stack := [.io (.freeIo c.request success)] }
      some (s.setRequest c.request { s.request c.request with reported := some success })
  | .ioWait k =>
    let x := s.reactor w
    match x.ioWait[k]? with
    | none => none
    | some r =>
      if x.channelHeld then
        some (s.setReactor w { x with ioWait := x.ioWait.eraseIdx k, stack := [.io (.executeIo r)] })
      else none
  | .resize =>
    if w = 0 ∧ s.ctx.bdevDescriptor then
      some (s.setReactor w { s.reactor w with stack := [.life (.requestShutdown enotsup
        "bdev resize after page-map initialization is unsupported")] })
    else none
  | .remove =>
    if w = 0 ∧ s.ctx.bdevDescriptor then
      some (s.setReactor w { s.reactor w with stack := [.life (.requestShutdown enodev
        "the selected bdev was removed")] })
    else none
  | _ => none

/-- A reactor goes on with its callback, or starts one. -/
def reactorStep (e : Env) (s : Sys) (w : Nat) (c : Choice) : Option Sys :=
  match (s.reactor w).stack with
  | [] => pickUp s w c
  | f :: rest =>
    (runFrame e (s.setReactor w { s.reactor w with stack := rest }) w c f).map fun p =>
      p.1.setReactor w { p.1.reactor w with stack := p.2 ++ rest }

/-- "SPDK runtime is not available" with the last error (:686, :760). -/
def notAvailable (c : Members) : String :=
  "SPDK runtime is not available" ++ if c.lastError = "" then "" else ": " ++ c.lastError

/-- One step of the caller of batch `b` (:727-749). -/
def callerStep (e : Env) (s : Sys) (b : Nat) (c : Choice) : Option Sys :=
  let goto := fun (s : Sys) pc => s.setBatch b { s.batch b with caller := pc }
  match (s.batch b).caller, c with
  | .posting [], .next => some (goto s .waiting)
  | .posting (d :: todo), .next =>
    if s.ctx.closed || s.ctx.shutdownRequested || !s.ctx.runtime then
      some (goto s (.failing d.requests (notAvailable s.ctx) todo))
    else some (goto s (.sending d todo))
  | .sending d todo, .code rc =>
    if !s.runtimeAvailable then some (goto s (.failing d.requests "SPDK runtime is unavailable" todo))
    else if rc ≠ 0 then
      some (goto s (.failing d.requests (e.spdkError "posting SPDK message" rc) todo))
    else some (goto (s.post d.worker (.executeWorkerBatch d)) (.posting todo))
  | .failing [] _ todo, .next => some (goto s (.posting todo))
  | .failing (r :: rs) error todo, .next =>
    let (s, batchComplete) := completeRequest s r false error
    some (goto s (if batchComplete then .notifying rs error todo else .failing rs error todo))
  | .notifying rs error todo, .next => some (goto s (.failing rs error todo))
  | .waiting, .next => some (goto s (if (s.batch b).remaining = 0 then .returning else .sleeping))
  -- a spurious wakeup
  | .sleeping, .next => some (goto s .waiting)
  | .returning, .next => some (goto s .returned)
  | _, _ => none

/-- The request built from item `i` of batch `b` (:709-723). -/
def makeRequest (s : Sys) (operation : Operation) (items : List IoBatchItem) (i : Nat) : IoRequest where
  worker := (s.ctx.nextIoWorker % s.ctx.ioWorkers + i) % s.ctx.ioWorkers
  resultIndex := i
  operation := operation
  item := items.getD i ⟨none, 0, 0, 0⟩

/-- The non-null `batch.dispatches` after the loop (:701-724). -/
def makeDispatches (s : Sys) (b : Nat) (count : Nat) : List IoWorkerDispatch :=
  (List.range s.ctx.ioWorkers).filterMap fun w =>
    let requests := ((List.range count).filter fun i =>
      (s.ctx.nextIoWorker % s.ctx.ioWorkers + i) % s.ctx.ioWorkers == w).map fun i => (b, i)
    if requests = [] then none else some ⟨w, requests⟩

/-- `submit_batch_and_wait` up to its dispatch loop (:677-724). A call that throws leaves only the
counters changed. -/
def submitBatch (e : Env) (s : Sys) (operation : Operation) (items : List IoBatchItem)
    (memory : Nat → Nat → UInt8) : Sys :=
  let c := s.ctx
  if items = [] ∨ c.closed ∨ c.shutdownRequested ∨ ¬ c.initializationSucceeded ∨ c.ioWorkers = 0 then s
  else
    let built := (items.takeWhile fun it => (validateItem e.geometry it).toBool).length
    let s' := { s with
      ctx := { c with nextIoWorker := add64 c.nextIoWorker 1 }
      metrics := { s.metrics with submitted := add64 s.metrics.submitted built } }
    if built < items.length then s'
    else
      let b := s.batches
      { s'.setBatch b ⟨operation, items, items.length, List.replicate items.length ⟨false, ""⟩, memory,
          .posting (makeDispatches s b items.length)⟩ with
        request := fun r => if r.1 = b ∧ r.2 < items.length then makeRequest s operation items r.2
          else s.request r
        batches := b + 1 }

/-- One step of the owner (:199-211, :253-286). -/
def ownerStep (e : Env) (s : Sys) (c : Choice) : Option Sys :=
  match s.owner, c with
  | .constructing, .next =>
    some { s with owner :=
      if s.ctx.initializationComplete then
        if s.ctx.initializationSucceeded then .running else .closing
      else .sleepingInitialization }
  -- spurious wakeups
  | .sleepingInitialization, .next => some { s with owner := .constructing }
  | .sleepingShutdown, .next => some { s with owner := .closeWaiting }
  -- the destructor, or an explicit close
  | .running, .next => some { s with owner := .closing }
  -- a second one
  | .closed, .next => some { s with owner := .closing }
  | .closing, .next =>
    if s.ctx.closed then some { s with owner := .closed }
    else if s.ctx.bdevDescriptor || s.ctx.ioWorkers ≠ 0 then
      some { s with ctx := { s.ctx with closed := true }, owner := .requesting }
    else some { s with ctx := { s.ctx with closed := true, shutdownComplete := true }, owner := .closeWaiting }
  | .requesting, .next =>
    let (s, start) := requestShutdown s 0 ""
    some { s with owner := if start then .postingShutdown else .closeWaiting }
  | .postingShutdown, .code rc => some { postBeginShutdown e s rc with owner := .closeWaiting }
  | .closeWaiting, .next =>
    some { s with owner := if s.ctx.shutdownComplete then .releasing else .sleepingShutdown }
  | .releasing, .next =>
    some { s with ctx := { s.ctx with runtime := false, bdevClaimed := false }, owner := .closed }
  | _, _ => none

/-! ## The device -/

/-- The `k`th command in flight on worker `w` moves its next `n` bytes. -/
def transfer (e : Env) (s : Sys) (w k n : Nat) : Option Sys :=
  let x := s.reactor w
  match x.inFlight[k]? with
  | none => none
  | some c =>
    let start := c.blockOffset * e.geometry.blockSize
    if c.moved + n ≤ c.blockCount * e.geometry.blockSize then
      let x := { x with inFlight := x.inFlight.set k { c with moved := c.moved + n } }
      match c.operation with
      | .write =>
        some { s.setReactor w x with device := fun a =>
          if start + c.moved ≤ a ∧ a < start + c.moved + n then x.dma c.buffer (a - start) else s.device a }
      | .read =>
        let bytes := fun j =>
          if c.moved ≤ j ∧ j < c.moved + n then s.device (start + j) else x.dma c.buffer j
        some (s.setReactor w { x with dma := Function.update x.dma c.buffer bytes })
    else none

/-- A command that will fail leaves anything in the range it was to fill. -/
def disturb (e : Env) (s : Sys) (w k : Nat) (noise : Nat → UInt8) : Option Sys :=
  let x := s.reactor w
  match x.inFlight[k]? with
  | none => none
  | some c =>
    let start := c.blockOffset * e.geometry.blockSize
    let length := c.blockCount * e.geometry.blockSize
    let x := { x with inFlight := x.inFlight.set k { c with disturbed := true } }
    match c.operation with
    | .write =>
      some { s.setReactor w x with device := fun a =>
        if start ≤ a ∧ a < start + length then noise a else s.device a }
    | .read =>
      let bytes := fun j => if j < length then noise j else x.dma c.buffer j
      some (s.setReactor w { x with dma := Function.update x.dma c.buffer bytes })

/-! ## The machine -/

inductive Action where
  | reactor (w : Nat) (c : Choice)
  | caller (b : Nat) (c : Choice)
  | submit (operation : Operation) (items : List IoBatchItem) (memory : Nat → Nat → UInt8)
  | owner (c : Choice)
  | transfer (w k n : Nat)
  | disturb (w k : Nat) (noise : Nat → UInt8)
  | runtimeStops

/-- A command reports success only when it has moved all its bytes undisturbed. -/
def completionAllowed (e : Env) (s : Sys) (w : Nat) : Choice → Bool
  | .completion k true =>
    match (s.reactor w).inFlight[k]? with
    | none => false
    | some c => c.moved == c.blockCount * e.geometry.blockSize && !c.disturbed
  | _ => true

def step (e : Env) (s : Sys) : Action → Option Sys
  | .reactor w c => if completionAllowed e s w c then reactorStep e s w c else none
  | .caller b c => callerStep e s b c
  -- the size of a vector is a `size_t`
  | .submit operation items memory =>
    if items.length < 2 ^ 64 then some (submitBatch e s operation items memory) else none
  | .owner c => ownerStep e s c
  | .transfer w k n => transfer e s w k n
  | .disturb w k noise => disturb e s w k noise
  | .runtimeStops => some { s with runtimeAvailable := false }

end SpdkBdevContext
end SpdkConnector
