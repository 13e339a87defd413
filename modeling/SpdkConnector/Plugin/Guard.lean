import SpdkConnector.Interleaving.Machine
import SpdkConnector.Plugin.Config
import Mathlib.Data.Finset.Basic

/-!
# The two guards of the process-wide runtime (native/plugin.py, spdk/spdk_runtime.cpp)

Constructions of `SpdkNativeConnector` and their ends, in one process. A construction parses its parameters and
passes `_guard_runtime`, then the native constructor calls `SpdkRuntime::Acquire`; either can fail, and so can what
lies between and behind them. Constructions may overlap; each of the two guards runs under its own lock.

| here | there |
| --- | --- |
| `guardRuntime` | `_guard_runtime` (plugin.py:17) |
| `makeRuntimeConfig`, `trim`, `resolveOption`, `parseLogFlags`, `parsePrintLevel` | spdk_runtime.cpp:28-117 |
| `acquire` | `SpdkRuntime::Acquire` (:131), with the outcome of `thread_main` (:221) |
| `Event` | what happens to a construction |
-/

namespace SpdkConnector
namespace Plugin

open Codec Interleaving

/-- `std::isspace`. -/
def trim (value : Str) : Str := ((value.dropWhile isCSpace).reverse.dropWhile isCSpace).reverse

def resolveOption (value : Str) (environmentValue : Option Str) : Str :=
  if trim value ≠ [] then trim value else (environmentValue.map trim).getD []

/-- The distinct flags between the commas, in order. -/
def parseLogFlags (value : Str) : List Str :=
  (((value.splitOn 44).map trim).filter (· ≠ [])).dedup.insertionSort (· ≤ ·)

inductive LogLevel where
  | disabled | error | warn | notice | info | debug
  deriving DecidableEq, Repr

def toLower (c : Nat) : Nat := if 65 ≤ c ∧ c ≤ 90 then c + 32 else c

def printLevels : List (Str × LogLevel) :=
  [(text "disabled", .disabled), (text "error", .error), (text "warn", .warn), (text "warning", .warn),
    (text "notice", .notice), (text "info", .info), (text "debug", .debug)]

def parsePrintLevel (value : Str) : Except Exn (Option LogLevel) :=
  let value := (trim value).map toLower
  if value = [] then .ok none
  else
    match printLevels.lookup value with
    | some level => .ok (some level)
    | none => .error ⟨.invalidArgument,
        "spdk_print_level must be disabled, error, warn, notice, info, or debug"⟩

/-- What the process inherits and keeps: the logging variables and the working directory. -/
structure Environment where
  printLevel : Option Str
  logFlags : Option Str
  tpointGroupMask : Option Str
  workingDirectory : Str

/-- The fields of `SpdkConfig` that the runtime reads, as `MakeConfig` fills them in. -/
structure SpdkConfig where
  jsonConfigFile : Str
  coreMask : String
  memorySizeMb : Int
  noHuge : Bool
  noPci : Bool
  printLevel : Str := []
  logFlags : Str := []
  tpointGroupMask : Str := []
  ioThreadCount : Int

structure SpdkRuntimeConfig where
  jsonConfigFile : Str
  coreMask : String
  memorySizeMb : Int
  noHuge : Bool
  noPci : Bool
  printLevel : Str
  logFlags : List Str
  tpointGroupMask : Str
  ioThreadCount : Int
  deriving DecidableEq, Repr

/-- `MakeConfig` (spdk_pybind_common.cpp:39). -/
def makeConfig (c : SpdkConnectorConfig) : Except Exn SpdkConfig :=
  (makeCoreMask c.spdkReactorCpus).map fun coreMask =>
    { jsonConfigFile := c.spdkJsonConfig, coreMask, memorySizeMb := c.spdkMemorySizeMb, noHuge := c.spdkNoHuge,
      noPci := c.spdkNoPci, ioThreadCount := c.spdkIoThreadCount }

/-- `std::filesystem::absolute`. -/
def absolute (workingDirectory path : Str) : Str :=
  if path.head? = some 47 then path else workingDirectory ++ 47 :: path

/-- `MakeRuntimeConfig` (:92); `isFile`: the path is a regular file now. -/
def makeRuntimeConfig (env : Environment) (isFile : Bool) (config : SpdkConfig) : Except Exn SpdkRuntimeConfig :=
  if !isFile then
    .error ⟨.invalidArgument, "SPDK JSON configuration is not a file: " ++
      String.ofList (config.jsonConfigFile.map Char.ofNat)⟩
  else if config.coreMask = "" ∨ config.memorySizeMb ≤ 0 ∨ config.ioThreadCount = 0 then
    .error ⟨.invalidArgument, "invalid process-wide SPDK runtime configuration"⟩
  else
    let printLevel := resolveOption config.printLevel env.printLevel
    (parsePrintLevel printLevel).map fun _ =>
      { jsonConfigFile := absolute env.workingDirectory config.jsonConfigFile, coreMask := config.coreMask,
        memorySizeMb := config.memorySizeMb, noHuge := config.noHuge, noPci := config.noPci, printLevel,
        logFlags := parseLogFlags (resolveOption config.logFlags env.logFlags),
        tpointGroupMask := resolveOption config.tpointGroupMask env.tpointGroupMask,
        ioThreadCount := config.ioThreadCount }

/-- The tuple `settings` (plugin.py:31). -/
structure Settings where
  spdkJsonConfig : Str
  spdkReactorCpus : List Int
  spdkMemorySizeMb : Int
  spdkNoHuge : Bool
  spdkNoPci : Bool
  spdkIoThreadCount : Int
  deriving DecidableEq, Repr

def settingsOf (c : SpdkConnectorConfig) : Settings :=
  ⟨c.spdkJsonConfig, c.spdkReactorCpus, c.spdkMemorySizeMb, c.spdkNoHuge, c.spdkNoPci, c.spdkIoThreadCount⟩

/-- Where a construction is. -/
inductive Stage where
  | absent
  /-- `_guard_runtime` has let it through. -/
  | guarded (c : SpdkConnectorConfig)
  /-- Its context has the runtime. -/
  | holding
  /-- It has thrown, or its connector is closed. -/
  | ended

structure Process where
  /-- `LMCACHE_SPDK_RUNTIME_OWNER`. -/
  owner : Option Str
  /-- `_runtime_settings`. -/
  runtimeSettings : Option Settings := none
  /-- The `config_` of the object that `active_runtime` refers to. -/
  activeRuntime : Option SpdkRuntimeConfig := none
  /-- The contexts that share it. -/
  holders : Finset Nat := ∅
  runtimeStartedOnce : Bool := false
  /-- *observed*: the configuration `spdk_app_start` was entered with. -/
  started : Option SpdkRuntimeConfig := none
  construction : Nat → Stage := fun _ => .absent

def Process.setStage (p : Process) (i : Nat) (stage : Stage) : Process :=
  { p with construction := Function.update p.construction i stage }

inductive GuardError where
  /-- "this process declares an in-tree SPDK runtime; …" -/
  | inTree
  /-- "all external SPDK connectors in one process must use identical runtime settings" -/
  | settings
  deriving DecidableEq, Repr

/-- `_guard_runtime` (plugin.py:17). -/
def guardRuntime (p : Process) (c : SpdkConnectorConfig) : Except GuardError Process :=
  if p.owner ≠ none ∧ p.owner ≠ some (text "external") then .error .inTree
  else if p.runtimeSettings ≠ none ∧ p.runtimeSettings ≠ some (settingsOf c) then .error .settings
  else .ok { p with runtimeSettings := some (settingsOf c), owner := some (text "external") }

/-- `active_runtime.lock()`. -/
def Process.live (p : Process) : Option SpdkRuntimeConfig := if p.holders = ∅ then none else p.activeRuntime

/-- How `thread_main` publishes its initialization. -/
inductive Start where
  /-- `spdk_log_set_flag` does not know this flag. -/
  | unknownLogFlag (flag : Str)
  /-- `spdk_app_start` has returned `rc`, for which SPDK has the text `strerror`. -/
  | failed (rc : Int) (strerror : String)
  /-- `spdk_get_thread()` was null in `on_app_start`. -/
  | withoutThread
  | started
  deriving DecidableEq, Repr

/-- `SpdkError` (spdk_runtime.cpp:86). -/
def spdkError (strerror : Nat → String) (operation : String) (rc : Int) : String :=
  operation ++ " failed with code " ++ toString rc ++ " (" ++ strerror rc.natAbs ++ ")"

def unknownFlag (flag : Str) : String := "unknown SPDK log flag '" ++ String.ofList (flag.map Char.ofNat) ++ "'"

def differs : Exn := ⟨.runtimeError,
  "all SPDK adapters in one process must use identical runtime configuration (JSON path, core mask, memory, " ++
    "PCI/hugepage, logging, tracepoint, and SPDK I/O-thread settings)"⟩

/-- `SpdkRuntime::Acquire` (:131) for construction `i`. -/
def acquire (env : Environment) (isFile : Bool) (start : Start) (p : Process) (i : Nat) (config : SpdkConfig) :
    Except Exn Unit × Process :=
  match makeRuntimeConfig env isFile config with
  | .error e => (.error e, p)
  | .ok requested =>
    match p.live with
    | some current =>
      if current ≠ requested then (.error differs, p) else (.ok (), { p with holders := insert i p.holders })
    | none =>
      if p.runtimeStartedOnce then
        (.error ⟨.runtimeError, "the SPDK application can be initialized only once per process; " ++
          "start a new process to create another SPDK runtime"⟩, p)
      else
        match start with
        | .unknownLogFlag flag => (.error ⟨.runtimeError, unknownFlag flag⟩, p)
        | .failed rc strerror =>
          (.error ⟨.runtimeError, spdkError (fun _ => strerror) "SPDK application initialization" rc⟩,
            { p with runtimeStartedOnce := true, started := some requested })
        | .withoutThread =>
          (.error ⟨.runtimeError, "SPDK started without an application thread"⟩,
            { p with runtimeStartedOnce := true, started := some requested })
        | .started =>
          (.ok (), { p with
            runtimeStartedOnce := true, started := some requested, activeRuntime := some requested, holders := {i} })

inductive Event where
  /-- `SpdkNativeConnector(**data)`, up to the end of `_guard_runtime`. -/
  | construct (i : Nat) (host : Host) (data : List (Str × Json))
  /-- It fails before it calls `Acquire`: no extension, or an argument pybind refuses. -/
  | fail (i : Nat)
  | acquire (i : Nat) (isFile : Bool) (start : Start)
  /-- The context drops the runtime: a later stage has failed, or the connector is closed. -/
  | release (i : Nat)

/-- `SpdkBdevContext` up to the runtime, for a construction that the guard has let through. -/
def acquireStep (env : Environment) (isFile : Bool) (start : Start) (p : Process) (i : Nat) (c : SpdkConnectorConfig) :
    Except Exn Unit × Process :=
  match makeConfig c with
  | .error e => (.error e, p)
  | .ok config => acquire env isFile start p i config

def step (env : Environment) (p : Process) : Event → Option Process
  | .construct i host data =>
    match p.construction i with
    | .absent =>
      match fromDict host data with
      | .error _ => some (p.setStage i .ended)
      | .ok c =>
        match guardRuntime p c with
        | .error _ => some (p.setStage i .ended)
        | .ok p' => some (p'.setStage i (.guarded c))
    | _ => none
  | .fail i =>
    match p.construction i with
    | .guarded _ => some (p.setStage i .ended)
    | _ => none
  | .acquire i isFile start =>
    match p.construction i with
    | .guarded c =>
      match acquireStep env isFile start p i c with
      | (.error _, p') => some (p'.setStage i .ended)
      | (.ok _, p') => some (p'.setStage i .holding)
    | _ => none
  | .release i =>
    match p.construction i with
    | .holding => some (Process.setStage { p with holders := p.holders.erase i } i .ended)
    | _ => none

/-- The configuration that `Acquire` would compare for these parameters. -/
def requested (env : Environment) (c : SpdkConnectorConfig) : Except Exn SpdkRuntimeConfig :=
  (makeConfig c).bind (makeRuntimeConfig env true)

/-- The order of the reactor CPUs apart. -/
structure Settings.Reordered (s s' : Settings) : Prop where
  path : s.spdkJsonConfig = s'.spdkJsonConfig
  cpus : s.spdkReactorCpus.Perm s'.spdkReactorCpus
  memory : s.spdkMemorySizeMb = s'.spdkMemorySizeMb
  noHuge : s.spdkNoHuge = s'.spdkNoHuge
  noPci : s.spdkNoPci = s'.spdkNoPci
  ioThreads : s.spdkIoThreadCount = s'.spdkIoThreadCount

/-- The two guards agree on the next construction: it is refused only for a runtime that was started with another
configuration, so never what `Acquire` would share, and never on account of one that failed before the start. -/
structure GuardsAgree (env : Environment) (p : Process) (c : SpdkConnectorConfig) : Prop where
  justified : guardRuntime p c = .error .settings → ∃ r, p.started = some r ∧ requested env c ≠ .ok r
  shared : ∀ r, p.live = some r → requested env c = .ok r → guardRuntime p c ≠ .error .settings
  unstarted : p.runtimeStartedOnce = false → guardRuntime p c ≠ .error .settings

/-- The claimed settings are the requested ones, or an application was started and they differ in more than the
order of the CPUs. -/
def Settled (p : Process) (c : SpdkConnectorConfig) : Prop :=
  ∀ s, p.runtimeSettings = some s →
    s = settingsOf c ∨ (p.runtimeStartedOnce = true ∧ ¬ s.Reordered (settingsOf c))

end Plugin
end SpdkConnector
