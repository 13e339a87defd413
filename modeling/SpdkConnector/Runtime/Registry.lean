import SpdkConnector.Runtime
import SpdkConnector.Plugin.Guard

/-!
# The one runtime of a process (spdk/spdk_runtime.cpp:131-314)

`SpdkRuntime::Acquire`, the constructor and its thread, the destructor, and who shares the object. The contexts are
those of `World`, which leaves open when `is_available()` turns false; here it does in `stop()`, which runs where the
last `shared_ptr` is given up, and where the application has ended by itself: `spdk_app_stop` is called on account of
`stop()`, and by a worker of a context that cannot acknowledge its shutdown (spdk_bdev_context.cpp:627-631).

| here | there |
| --- | --- |
| `Runtime`, `ThreadPc` | the object, and where its thread is in `thread_main` (:221-263) |
| `AcquirePc` | where the holder of `runtime_registry_mutex` is (:131-172) |
| `Holder`, `holders` | the strong references, so their number is the use count |
| `DestructorPc` | `~SpdkRuntime()`, that is `stop()` (:292-314) |
| `Registry` | the globals (:24-26) with the world of the contexts |

SPDK calls `AppStartCallback` at most once, and once it has, `spdk_app_start` returns only after `spdk_app_stop` and
when every reactor has left its loop: never while one of them is in the destructor, which waits for that. (On the
application's own reactor the `join` throws instead, in a `noexcept` function.) The reactors make calls of contexts
only in between. Fields marked *observed* are read by no code.
-/

namespace SpdkConnector
namespace SpdkRuntime

open SpdkBdevContext

def eio : Int := -5

/-! ## The object and its thread -/

inductive ThreadPc where
  /-- The loop over the log flags (:238). -/
  | settingFlags (todo : List Codec.Str)
  /-- The `notify_all` of `publish_initialization_failure` (:289). -/
  | publishing
  /-- About to set `runtime_started_once` (:247). -/
  | entering
  /-- In `spdk_app_start`, which has not called back. -/
  | starting
  /-- The reactors run; `stop`: the code `spdk_app_stop` was called with. -/
  | running (stop : Option Int)
  /-- `spdk_app_start` has returned. -/
  | returned (rc : Int)
  /-- The last `notify_all` (:262). -/
  | notifying
  | exited
deriving DecidableEq, Repr

/-- `SpdkRuntime` (spdk_runtime.h:42). Its claims are in `World`. -/
structure Runtime where
  config : Plugin.SpdkRuntimeConfig
  initializationComplete : Bool := false
  initializationSucceeded : Bool := false
  stopping : Bool := false
  lastError : String := ""
  /-- `app_thread_ != nullptr`. -/
  appThread : Bool := false
  thread : ThreadPc
  /-- The `StopCallback` messages the application thread has not taken. -/
  stopCallbacks : Nat := 0

/-- The constructor up to its wait (:162). -/
def Runtime.new (config : Plugin.SpdkRuntimeConfig) : Runtime := { config, thread := .settingFlags config.logFlags }

/-- `is_available` (:176). -/
def Runtime.isAvailable (r : Runtime) : Bool := r.initializationSucceeded && !r.stopping && r.appThread

def ThreadPc.isRunning : ThreadPc → Bool
  | .running _ => true
  | _ => false

/-- `spdk_app_stop` (:219, :308): the code of the first call stays. -/
def spdkAppStop (r : Runtime) (rc : Int) : Runtime :=
  { r with thread := match r.thread with
    | .running stop => .running (some (stop.getD rc))
    | pc => pc }

/-- What SPDK decides in a step of the runtime's thread. -/
inductive ThreadChoice where
  | next
  /-- `spdk_log_set_flag` knows the flag. -/
  | flag (known : Bool)
  /-- `AppStartCallback`; `appThread`: `spdk_get_thread()` is not null. -/
  | appStart (appThread : Bool)
  /-- `spdk_app_start` returns. -/
  | appReturns (rc : Int)
  /-- The application thread takes a `StopCallback`. -/
  | stopCallback

/-- `on_app_start` (:265). -/
def onAppStart (r : Runtime) (appThread : Bool) : Runtime :=
  if appThread then
    { r with
      appThread := true, initializationSucceeded := true, initializationComplete := true, thread := .running none }
  else
    { r with
      appThread := false, lastError := "SPDK started without an application thread"
      initializationSucceeded := false, initializationComplete := true, thread := .running (some eio) }

/-- `spdk_app_fini` and the critical section behind it (:250-261). -/
def onAppReturn (strerror : Nat → String) (r : Runtime) (rc : Int) : Runtime :=
  if !r.initializationComplete then
    { r with
      lastError := Plugin.spdkError strerror "SPDK application initialization" rc
      initializationComplete := true, initializationSucceeded := false, appThread := false, thread := .notifying }
  else
    { r with
      lastError :=
        if rc ≠ 0 ∧ r.lastError = "" then Plugin.spdkError strerror "SPDK application shutdown" rc else r.lastError
      appThread := false, thread := .notifying }

/-- One step of `thread_main`, or of the reactor it runs: the object, and whether `initialization_cv_` is notified. -/
def threadStep (strerror : Nat → String) (r : Runtime) : ThreadChoice → Option (Runtime × Bool)
  | .next =>
    match r.thread with
    | .settingFlags [] => some ({ r with thread := .entering }, false)
    | .entering => some ({ r with thread := .starting }, false)
    | .returned rc => some (onAppReturn strerror r rc, false)
    | .publishing | .notifying => some ({ r with thread := .exited }, true)
    | _ => none
  | .flag known =>
    match r.thread with
    | .settingFlags (flag :: todo) =>
      some (if known then { r with thread := .settingFlags todo }
        else { r with
          lastError := Plugin.unknownFlag flag
          initializationSucceeded := false, initializationComplete := true, thread := .publishing }, false)
    | _ => none
  | .appStart appThread =>
    match r.thread with
    | .starting => some (onAppStart r appThread, true)
    | _ => none
  | .appReturns rc =>
    match r.thread with
    | .starting | .running (some _) => some ({ r with thread := .returned rc }, false)
    | _ => none
  | .stopCallback =>
    match r.thread, r.stopCallbacks with
    | .running _, n + 1 => some (spdkAppStop { r with stopCallbacks := n } 0, false)
    | _, _ => none

/-! ## Who shares it -/

/-- A thread that works on a context. -/
inductive Actor where
  /-- The one that constructs and closes it. -/
  | owner
  | reactor (v : Nat)
  | caller (b : Nat)
deriving DecidableEq, Repr

/-- A `shared_ptr` to the runtime. -/
inductive Holder where
  /-- `current`, in an `Acquire` that is about to refuse (:137). -/
  | acquirer
  /-- `runtime_` of context `i`. -/
  | member (i : Nat)
  /-- The local of `request_shutdown` (:520), `send_message` (:757) or `close` (:275) of context `i`. -/
  | copy (i : Nat) (t : Actor)
deriving DecidableEq, Repr

/-- Where the thread is that holds `runtime_registry_mutex`. -/
inductive AcquirePc where
  /-- The configurations differ; `current` is still there. -/
  | comparing
  /-- `current` has been given up. -/
  | refusing
  /-- About to check the predicate of the constructor's wait (:162). -/
  | waiting
  | sleeping
  /-- The initialization has failed; in `join` (:169). -/
  | joining
deriving DecidableEq, Repr

/-- The context to be that holds `runtime_registry_mutex`, what its bdev yields, and its `requested` (:132). -/
structure Acquiring where
  i : Nat
  env : Env
  requested : Plugin.SpdkRuntimeConfig
  pc : AcquirePc

inductive DestructorPc where
  | stopping
  /-- About to post `StopCallback` (:305). -/
  | posting
  | joining
deriving DecidableEq, Repr

structure Registry where
  world : World := {}
  mutex : Option Acquiring := none
  runtimeStartedOnce : Bool := false
  /-- The object whose memory is allocated. -/
  runtime : Option Runtime := none
  holders : List Holder := []
  /-- The thread that is in the destructor. -/
  destructor : Option (Nat × Actor × DestructorPc) := none
  /-- *observed*: the calls of `spdk_app_start`. -/
  starts : Nat := 0
  /-- *observed*: the contexts that `Acquire` has returned to, with what they asked for. -/
  granted : List (Nat × Plugin.SpdkRuntimeConfig) := []

/-- `initialization_cv_.notify_all()`. -/
def Registry.notifyAll (p : Registry) : Registry :=
  match p.mutex with
  | some ⟨i, env, requested, .sleeping⟩ => { p with mutex := some ⟨i, env, requested, .waiting⟩ }
  | _ => p

/-- Thread `t` of context `i` gives up a reference. -/
def Registry.giveUp (p : Registry) (h : Holder) (i : Nat) (t : Actor) : Registry :=
  { p with
    holders := p.holders.erase h
    destructor := if p.holders.erase h = [] then some (i, t, .stopping) else p.destructor }

/-- The object becomes `r'`, and the contexts see its `is_available()` turn false. -/
def Registry.become (p : Registry) (r r' : Runtime) : Option Registry :=
  if r.isAvailable && !r'.isAvailable then
    (worldStep p.world .runtimeStops).map fun world => { p with world, runtime := some r' }
  else some { p with runtime := some r' }

/-- The function that took the copy of a thread is still at work; `releasing`: `close()` is about to call
`ReleaseBdev`. -/
def inUse (s : Sys) (releasing : Bool) : Actor → Bool
  | .owner => s.owner == .postingShutdown || releasing
  | .reactor v => (s.reactor v).stack.head? == some (.life .postBeginShutdown)
  | .caller b =>
    match (s.batch b).caller with
    | .sending _ _ => true
    | _ => false

def Registry.uses (p : Registry) (i : Nat) (t : Actor) : Bool :=
  match (p.world.context i).phase with
  | .live s releasing => inUse s releasing t
  | _ => false

/-- Thread `t` of context `i` is in `Acquire` or in the destructor, or about to give up its copy. -/
def Registry.busy (p : Registry) (i : Nat) (t : Actor) : Bool :=
  (t == .owner && p.mutex.any fun m => m.i == i) || (p.destructor.any fun d => d.1 == i && d.2.1 == t) ||
    p.holders.contains (.copy i t) && !p.uses i t

/-- The references after a step of context `i`, from `s`. -/
def references (holders : List Holder) (i : Nat) (s : Sys) : Action → List Holder
  | .reactor v .next =>
    match (s.reactor v).stack.head? with
    | some (.life (.requestShutdown rc error)) =>
      if (requestShutdown s rc error).2 then .copy i (.reactor v) :: holders else holders
    | _ => holders
  | .caller b .next =>
    match (s.batch b).caller with
    | .posting (_ :: _) =>
      if s.ctx.closed || s.ctx.shutdownRequested || !s.ctx.runtime then holders else .copy i (.caller b) :: holders
    | _ => holders
  | .owner .next =>
    match s.owner with
    | .requesting => if (requestShutdown s 0 "").2 then .copy i .owner :: holders else holders
    -- `runtime = std::move(runtime_)`
    | .releasing => if s.ctx.runtime then .copy i .owner :: holders.erase (.member i) else holders
    | _ => holders
  | _ => holders

/-- The object after a step of a context: a worker that could not post its acknowledgement stops the application
(spdk_bdev_context.cpp:627). -/
def application (r : Runtime) (s : Sys) : Action → Runtime
  | .reactor v .next =>
    match (s.reactor v).stack.head? with
    | some (.life (.threadExit sendResult)) => if sendResult = 0 then r else spdkAppStop r sendResult
    | _ => r
  | _ => r

/-! ## The machine -/

inductive RegistryAction where
  /-- Context `i` calls `Acquire`: the logging variables, whether the path is a file, its configuration. -/
  | acquire (i : Nat) (env : Env) (environment : Plugin.Environment) (isFile : Bool) (config : Plugin.SpdkConfig)
  /-- The holder of the mutex goes on. -/
  | acquirer
  | thread (c : ThreadChoice)
  /-- A step of the contexts. -/
  | world (a : WorldAction)
  /-- Thread `t` of context `i` gives up its copy. -/
  | leave (i : Nat) (t : Actor)
  /-- The destructor goes on; `rc`: of `spdk_thread_send_msg`. -/
  | destructor (rc : Int)

/-- `Acquire` throws: so does the constructor of context `i`. -/
def Registry.refuse (p : Registry) (i : Nat) (env : Env) (error : String) : Option Registry :=
  (worldStep p.world (.construct i env (some error))).map fun world => { p with world }

/-- `Acquire` returns the runtime to context `i`. -/
def Registry.grant (p : Registry) (i : Nat) (env : Env) (config : Plugin.SpdkRuntimeConfig) : Option Registry :=
  (worldStep p.world (.construct i env none)).map fun world =>
    { p with world, holders := .member i :: p.holders, granted := p.granted ++ [(i, config)] }

/-- `MakeRuntimeConfig` and `Acquire`, up to the constructor's wait (:132-151). -/
def Registry.acquire (p : Registry) (i : Nat) (env : Env) (requested : Except Exn Plugin.SpdkRuntimeConfig) :
    Option Registry :=
  match requested with
  | .error e => p.refuse i env e.what
  | .ok requested =>
    if p.mutex.isSome then none
    else
      match p.runtime, p.holders with
      | some r, _ :: _ =>
        if r.config = requested then p.grant i env requested
        else some { p with mutex := some ⟨i, env, requested, .comparing⟩, holders := .acquirer :: p.holders }
      | _, _ =>
        if p.runtimeStartedOnce then
          p.refuse i env ("the SPDK application can be initialized only once per process; " ++
            "start a new process to create another SPDK runtime")
        else some { p with mutex := some ⟨i, env, requested, .waiting⟩, runtime := some (.new requested) }

/-- The rest of `Acquire`. -/
def Registry.acquirerStep (p : Registry) : Option Registry :=
  match p.mutex, p.runtime with
  | some ⟨i, env, requested, .comparing⟩, _ =>
    some { p.giveUp .acquirer i .owner with mutex := some ⟨i, env, requested, .refusing⟩ }
  | some ⟨i, env, _, .refusing⟩, _ =>
    -- the lock is released after `current`
    if p.destructor.any fun d => d.1 == i && d.2.1 == .owner then none
    else Registry.refuse { p with mutex := none } i env Plugin.differs.what
  | some ⟨i, env, requested, .waiting⟩, some r =>
    if !r.initializationComplete then some { p with mutex := some ⟨i, env, requested, .sleeping⟩ }
    else if r.initializationSucceeded then Registry.grant { p with mutex := none } i env requested
    else some { p with mutex := some ⟨i, env, requested, .joining⟩ }
  -- a spurious wakeup
  | some ⟨i, env, requested, .sleeping⟩, some _ => some { p with mutex := some ⟨i, env, requested, .waiting⟩ }
  | some ⟨i, env, _, .joining⟩, some r =>
    if r.thread = .exited then Registry.refuse { p with mutex := none, runtime := none } i env r.lastError else none
  | _, _ => none

/-- `spdk_app_start` does not return: a reactor that is in the destructor has not left its loop. -/
def Registry.lingers (p : Registry) (r : Runtime) : ThreadChoice → Bool
  | .appReturns _ => r.thread.isRunning && p.destructor.any (fun d => d.2.1 matches .reactor _)
  | _ => false

/-- A step of the runtime's thread. -/
def Registry.threadStep (strerror : Nat → String) (p : Registry) (c : ThreadChoice) : Option Registry :=
  match p.runtime with
  | none => none
  | some r =>
    if p.lingers r c then none
    else
      (SpdkRuntime.threadStep strerror r c).bind fun x =>
        (p.become r x.1).map fun p =>
          let p := { p with
            runtimeStartedOnce := p.runtimeStartedOnce || r.thread == .entering
            starts := if r.thread = .entering then p.starts + 1 else p.starts }
          if x.2 then p.notifyAll else p

/-- A step of the contexts, and what becomes of their references. -/
def Registry.contextsStep (p : Registry) (a : WorldAction) : Option Registry :=
  (worldStep p.world a).map fun world =>
    let p' := { p with world }
    match a with
    -- the catch block of the constructor (spdk_bdev_context.cpp:182-188)
    | .claim i | .abandon i => if (world.context i).phase matches .failed _ then p'.giveUp (.member i) i .owner else p'
    | .context i a =>
      match (p.world.context i).phase with
      | .live s _ =>
        { p' with holders := references p.holders i s a, runtime := p.runtime.map fun r => application r s a }
      | _ => p'
    | _ => p'

/-- The thread that takes a step of a context; the device has none, and a call has none before its first step. -/
def actorOf : Action → Option Actor
  | .reactor v _ => some (.reactor v)
  | .caller b _ => some (.caller b)
  | .owner _ => some .owner
  | _ => none

/-- The thread of the step can take it: it is not busy, and where it is a reactor SPDK runs it. -/
def Registry.allows (p : Registry) : WorldAction → Bool
  | .construct i _ (some _) | .claim i | .send i _ _ | .abandon i | .release i => !p.busy i .owner
  | .context i a =>
    match actorOf a with
    | none => true
    | some (.reactor v) => !p.busy i (.reactor v) && p.runtime.any fun r => r.thread.isRunning
    | some t => !p.busy i t
  | .construct _ _ none | .runtimeStops => false

/-- A step of `~SpdkRuntime()`. -/
def Registry.destructorStep (p : Registry) (rc : Int) : Option Registry :=
  match p.destructor, p.runtime with
  | some (i, t, .stopping), some r =>
    -- `stopping_` is set by the destructor only
    if r.stopping then none
    else
      (p.become r { r with stopping := true }).map fun p =>
        { p with destructor := some (i, t, if r.appThread then .posting else .joining) }
  | some (i, t, .posting), some r =>
    let r := if rc = 0 then { r with stopCallbacks := r.stopCallbacks + 1 } else spdkAppStop r rc
    some { p with runtime := some r, destructor := some (i, t, .joining) }
  | some (_, _, .joining), some r =>
    if r.thread = .exited then some { p with runtime := none, destructor := none } else none
  | _, _ => none

def registryStep (strerror : Nat → String) (p : Registry) : RegistryAction → Option Registry
  | .acquire i env environment isFile config =>
    match (p.world.context i).phase with
    | .absent =>
      -- `io_thread_count` is a `size_t`
      if p.busy i .owner || config.ioThreadCount < 0 then none
      else p.acquire i { env with ioThreadCount := config.ioThreadCount.toNat }
        (Plugin.makeRuntimeConfig environment isFile config)
    | _ => none
  | .acquirer => p.acquirerStep
  | .thread c => p.threadStep strerror c
  | .world a => if p.allows a then p.contextsStep a else none
  | .leave i t =>
    if p.holders.contains (.copy i t) && !p.uses i t then some (p.giveUp (.copy i t) i t) else none
  | .destructor rc => p.destructorStep rc

end SpdkRuntime
end SpdkConnector
