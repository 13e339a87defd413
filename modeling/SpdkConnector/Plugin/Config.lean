import SpdkConnector.Codec.PyInt
import SpdkConnector.Plugin.CoreMask
import Mathlib.Data.List.Dedup
import Mathlib.Data.List.Sort
import Mathlib.Data.Set.Card

/-!
# `SpdkConnectorConfig` (src/bdev/src/lmcache_spdk_connector/config.py)

The parameters of the plugin as JSON values, and what `from_dict` makes of them.

| here | there |
| --- | --- |
| `positiveInt`, `cpuList` | `_positive_int`, `_cpu_list` (:16, :23) |
| `fromDict` | `SpdkConnectorConfig.from_dict` (:81) |
| `Host` | the file system and `os.sched_getaffinity` |

`core_mask_exact` joins the validation to the mask that `MakeCoreMask` builds from its result.
-/

namespace SpdkConnector
namespace Plugin

open Codec

inductive ConfigError where
  /-- `ValueError`. -/
  | value (message : String)
  /-- Whatever the file system or the parser raised. -/
  | host
  deriving DecidableEq, Repr

/-- What `from_dict` asks of the process it runs in. -/
structure Host where
  /-- `Path(_).expanduser().resolve()`, unless it raises. -/
  resolve : Str → Option Str
  isFile : Str → Bool
  /-- `read_text(encoding="utf-8")`, unless it raises. -/
  readText : Str → Option Str
  /-- What the recursion limit leaves to `json.loads`. -/
  limit : Nat
  /-- `os.sched_getaffinity(0)`. -/
  affinity : List Int
  /-- `resolve` makes a path absolute. -/
  resolve_absolute : ∀ p q, resolve p = some q → q.head? = some 47

structure SpdkConnectorConfig where
  spdkJsonConfig : Str
  bdevName : Str
  spdkReactorCpus : List Int
  connectorWorkerCpus : List Int
  spdkIoThreadCount : Int
  spdkBufferCount : Int
  spdkMemorySizeMb : Int
  spdkNoHuge : Bool
  spdkNoPci : Bool
  spdkIoSegmentBytes : Int
  deriving DecidableEq, Repr

/-- `str.isspace` of one character. -/
def isPySpace (c : Nat) : Bool := (9 ≤ c && c ≤ 13) || (28 ≤ c && c ≤ 32) || unicodeSpaces.contains c

def strip (s : Str) : Str := ((s.dropWhile isPySpace).reverse.dropWhile isPySpace).reverse

/-- An `int` that is no `bool`. -/
def intOf : Json → Option Int
  | .int n => some n
  | _ => none

def positiveInt (value : Json) (field : String) : Except ConfigError Int :=
  match intOf value with
  | some n => if n ≤ 0 then .error (.value (field ++ " must be a positive integer")) else .ok n
  | none => .error (.value (field ++ " must be a positive integer"))

/-- A list of integers in an f-string. -/
def formatInts (xs : List Int) : String := "[" ++ ", ".intercalate (xs.map toString) ++ "]"

def cpuList (affinity : List Int) (value : Json) (field : String) : Except ConfigError (List Int) :=
  match value with
  | .list (x :: xs) =>
    if (x :: xs).any (fun cpu => (intOf cpu).all (· < 0)) then
      .error (.value (field ++ " must contain non-negative integer CPU IDs"))
    else
      let cpus := (x :: xs).filterMap intOf
      if cpus.dedup.length ≠ cpus.length then
        .error (.value (field ++ " must not contain duplicate CPU IDs"))
      else
        let unavailable := (cpus.filter (· ∉ affinity)).insertionSort (· ≤ ·)
        if unavailable ≠ [] then
          .error (.value (field ++ " contains CPUs unavailable to this process: " ++ formatInts unavailable))
        else .ok cpus
  | _ => .error (.value (field ++ " must be a non-empty list of CPU IDs"))

/-- The SPDK configuration file and its checks (:87-101). -/
def configPath (host : Host) (value : Json) : Except ConfigError Str :=
  match value with
  | .str rawPath =>
    if strip rawPath = [] then .error (.value "spdk_json_config must be a non-empty string")
    else
      match host.resolve rawPath with
      | none => .error .host
      | some path =>
        if !host.isFile path then
          .error (.value ("SPDK JSON configuration does not exist: " ++ String.ofList (path.map Char.ofNat)))
        else
          match (host.readText path).map (loads host.limit) with
          | some (.ok (.dict _)) => .ok path
          | some (.ok _) => .error (.value "SPDK JSON configuration must contain a JSON object")
          -- the parser's own text follows the message
          | some (.error .decode) => .error (.value "cannot parse SPDK JSON configuration")
          | _ => .error .host
  | _ => .error (.value "spdk_json_config must be a non-empty string")

/-- `data.get(field)`, `data.get(field, default)`. -/
def get (data : List (Str × Json)) (field : String) (default : Json) : Json :=
  (data.lookup (text field)).getD default

def bdevNameOf (value : Json) : Except ConfigError Str :=
  match value with
  | .str name => if strip name = [] then .error (.value "bdev_name must be a non-empty string") else .ok (strip name)
  | _ => .error (.value "bdev_name must be a non-empty string")

def boolsOf (noHuge noPci : Json) : Except ConfigError (Bool × Bool) :=
  match noHuge, noPci with
  | .bool noHuge, .bool noPci => .ok (noHuge, noPci)
  | _, _ => .error (.value "spdk_no_huge and spdk_no_pci must be booleans")

/-- `SpdkConnectorConfig.from_dict` (:81). -/
def fromDict (host : Host) (data : List (Str × Json)) : Except ConfigError SpdkConnectorConfig := do
  let spdkJsonConfig ← configPath host (get data "spdk_json_config" .null)
  let bdevName ← bdevNameOf (get data "bdev_name" .null)
  let spdkReactorCpus ← cpuList host.affinity (get data "spdk_reactor_cpus" .null) "spdk_reactor_cpus"
  let connectorWorkerCpus ← cpuList host.affinity (get data "connector_worker_cpus" .null) "connector_worker_cpus"
  let overlap := (spdkReactorCpus.filter (· ∈ connectorWorkerCpus)).insertionSort (· ≤ ·)
  if overlap ≠ [] then
    throw (.value ("SPDK reactor and connector worker CPUs overlap: " ++ formatInts overlap))
  let spdkIoThreadCount ← positiveInt (get data "spdk_io_thread_count" .null) "spdk_io_thread_count"
  if spdkIoThreadCount > spdkReactorCpus.length then
    throw (.value "spdk_io_thread_count must not exceed spdk_reactor_cpus")
  let (spdkNoHuge, spdkNoPci) ← boolsOf (get data "spdk_no_huge" (.bool true)) (get data "spdk_no_pci" (.bool false))
  let spdkBufferCount ← positiveInt (get data "spdk_buffer_count" (.int 16)) "spdk_buffer_count"
  let spdkMemorySizeMb ← positiveInt (get data "spdk_memory_size_mb" (.int 1024)) "spdk_memory_size_mb"
  let spdkIoSegmentBytes ←
    positiveInt (get data "spdk_io_segment_bytes" (.int (1024 * 1024))) "spdk_io_segment_bytes"
  return { spdkJsonConfig, bdevName, spdkReactorCpus, connectorWorkerCpus, spdkIoThreadCount, spdkBufferCount,
           spdkMemorySizeMb, spdkNoHuge, spdkNoPci, spdkIoSegmentBytes }

/-- A list `_cpu_list` returns. -/
structure CpuList (affinity cpus : List Int) : Prop where
  ne_nil : cpus ≠ []
  natural : ∀ cpu ∈ cpus, 0 ≤ cpu
  nodup : cpus.Nodup
  available : ∀ cpu ∈ cpus, cpu ∈ affinity

/-- What `from_dict` has checked. -/
structure SpdkConnectorConfig.Valid (affinity : List Int) (c : SpdkConnectorConfig) : Prop where
  path : c.spdkJsonConfig.head? = some 47
  reactors : CpuList affinity c.spdkReactorCpus
  workers : CpuList affinity c.connectorWorkerCpus
  disjoint : ∀ cpu ∈ c.spdkReactorCpus, cpu ∉ c.connectorWorkerCpus
  ioThreads : 1 ≤ c.spdkIoThreadCount ∧ c.spdkIoThreadCount ≤ c.spdkReactorCpus.length
  memory : 1 ≤ c.spdkMemorySizeMb

theorem positiveInt_ok {value : Json} {field : String} {n : Int} (h : positiveInt value field = .ok n) : 1 ≤ n := by
  unfold positiveInt at h
  split at h
  · split at h
    · cases h
    · rename_i hpos
      cases h
      omega
  · cases h

theorem cpuList_ok {affinity : List Int} {value : Json} {field : String} {cpus : List Int}
    (h : cpuList affinity value field = .ok cpus) : CpuList affinity cpus := by
  unfold cpuList at h
  split at h
  · rename_i x xs
    split at h
    · cases h
    · rename_i hint
      dsimp only at h
      split at h
      · cases h
      · rename_i hdup
        split at h
        · cases h
        · rename_i hfree
          cases h
          have hall : ∀ y ∈ x :: xs, ∃ n, intOf y = some n ∧ 0 ≤ n := by
            intro y hy
            rw [Bool.not_eq_true, List.any_eq_false] at hint
            have hy := hint y hy
            cases hn : intOf y with
            | none =>
              rw [hn] at hy
              exact absurd rfl hy
            | some n =>
              rw [hn] at hy
              simp only [Option.all_some, decide_eq_true_eq] at hy
              exact ⟨n, rfl, by omega⟩
          refine ⟨?_, ?_, ?_, ?_⟩
          · obtain ⟨n, hn, -⟩ := hall x List.mem_cons_self
            exact List.ne_nil_of_mem (List.mem_filterMap.2 ⟨x, List.mem_cons_self, hn⟩)
          · intro cpu hcpu
            obtain ⟨y, hy, hcpu⟩ := List.mem_filterMap.1 hcpu
            obtain ⟨n, hn, hpos⟩ := hall y hy
            rw [hn] at hcpu
            cases hcpu
            exact hpos
          · have hlen := Classical.not_not.1 hdup
            exact List.dedup_eq_self.1 ((List.dedup_sublist _).eq_of_length hlen)
          · intro cpu hcpu
            by_contra hout
            apply hfree
            refine List.ne_nil_of_mem (a := cpu) ?_
            rw [List.mem_insertionSort, List.mem_filter]
            exact ⟨hcpu, by simpa using hout⟩
  · cases h

theorem configPath_ok {host : Host} {value : Json} {path : Str} (h : configPath host value = .ok path) :
    path.head? = some 47 := by
  unfold configPath at h
  split at h
  · split at h
    · cases h
    · split at h
      · cases h
      · rename_i p hp
        split at h
        · cases h
        · split at h <;> cases h
          exact host.resolve_absolute _ _ hp
  · cases h

theorem bind_ok {α β : Type} {x : Except ConfigError α} {f : α → Except ConfigError β} {y : β} (h : x >>= f = .ok y) :
    ∃ a, x = .ok a ∧ f a = .ok y := by
  cases x with
  | error e => cases h
  | ok a => exact ⟨a, rfl, h⟩

/-- Every accepted configuration has passed every check. -/
theorem fromDict_valid {host : Host} {data : List (Str × Json)} {c : SpdkConnectorConfig}
    (h : fromDict host data = .ok c) : c.Valid host.affinity := by
  unfold fromDict at h
  obtain ⟨path, hpath, h⟩ := bind_ok h
  obtain ⟨name, -, h⟩ := bind_ok h
  obtain ⟨reactors, hreactors, h⟩ := bind_ok h
  obtain ⟨workers, hworkers, h⟩ := bind_ok h
  dsimp only at h
  split at h
  · cases h
  rename_i hoverlap
  obtain ⟨count, hcount, h⟩ := bind_ok h
  split at h
  · cases h
  rename_i hle
  obtain ⟨⟨noHuge, noPci⟩, -, h⟩ := bind_ok h
  obtain ⟨buffers, -, h⟩ := bind_ok h
  obtain ⟨memory, hmemory, h⟩ := bind_ok h
  obtain ⟨segment, -, h⟩ := bind_ok h
  cases h
  exact
    { path := configPath_ok hpath
      reactors := cpuList_ok hreactors
      workers := cpuList_ok hworkers
      disjoint := by
        intro cpu hcpu hworker
        apply hoverlap
        refine List.ne_nil_of_mem (a := cpu) ?_
        rw [List.mem_insertionSort, List.mem_filter]
        exact ⟨hcpu, by simpa using hworker⟩
      ioThreads := ⟨positiveInt_ok hcount, Int.not_lt.1 hle⟩
      memory := positiveInt_ok hmemory }

/-- The cores a mask selects. -/
def selectedCores (digits : List Char) : Set Nat := { k | (hexNumber digits).testBit k = true }

/-- A mask without repetitions selects one core for each CPU. -/
theorem selectedCores_card {cpus : List Int} {digits : List Char} (hnat : ∀ cpu ∈ cpus, 0 ≤ cpu) (hnodup : cpus.Nodup)
    (h : ∀ k : Nat, (hexNumber digits).testBit k = true ↔ (k : Int) ∈ cpus) :
    (selectedCores digits).ncard = cpus.length := by
  have hset : selectedCores digits = ((cpus.map Int.toNat).toFinset : Set Nat) := by
    ext k
    rw [selectedCores, Set.mem_ofPred_eq, h, Finset.mem_coe, List.mem_toFinset, List.mem_map]
    constructor
    · exact fun hk => ⟨k, hk, rfl⟩
    · rintro ⟨cpu, hcpu, rfl⟩
      rwa [Int.toNat_of_nonneg (hnat cpu hcpu)]
  have hinj : (cpus.map Int.toNat).Nodup := by
    refine hnodup.map_on ?_
    intro x hx y hy hxy
    have h1 := hnat x hx
    have h2 := hnat y hy
    omega
  rw [hset, Set.ncard_coe_finset, List.toFinset_card_of_nodup hinj, List.length_map]

/-- **Core masks are exact**: the mask of any non-empty list of CPUs is `0x` and the lower-case hexadecimal digits,
without a leading zero, of the number that has exactly their bits, so it depends on their set only; and the mask of
an accepted configuration selects as many cores as it has reactor CPUs, no fewer than its I/O threads, and none of
its worker CPUs. -/
theorem core_mask_exact :
    (∀ cpus : List Int, cpus ≠ [] → (∀ cpu ∈ cpus, 0 ≤ cpu) →
      ∃ digits, makeCoreMask cpus = .ok ("0x" ++ String.ofList digits) ∧ digits ≠ [] ∧ (∀ c ∈ digits, c ∈ hexDigits) ∧
        digits.head? ≠ some '0' ∧ ∀ k : Nat, (hexNumber digits).testBit k = true ↔ (k : Int) ∈ cpus) ∧
    (∀ cpus cpus' : List Int, cpus ≠ [] → (∀ cpu ∈ cpus, 0 ≤ cpu) → (∀ cpu, cpu ∈ cpus ↔ cpu ∈ cpus') →
      makeCoreMask cpus = makeCoreMask cpus') ∧
    ∀ host data c, fromDict host data = .ok c →
      ∃ digits, makeCoreMask c.spdkReactorCpus = .ok ("0x" ++ String.ofList digits) ∧
        (selectedCores digits).ncard = c.spdkReactorCpus.length ∧
        c.spdkIoThreadCount ≤ (selectedCores digits).ncard ∧
        ∀ k : Nat, (k : Int) ∈ c.connectorWorkerCpus → k ∉ selectedCores digits := by
  refine ⟨fun cpus hne hnat => coreMask_spec hne hnat, fun cpus cpus' hne hnat h => coreMask_congr hne hnat h, ?_⟩
  intro host data c h
  have hv := fromDict_valid h
  obtain ⟨digits, hmask, -, -, -, hbits⟩ := coreMask_spec hv.reactors.ne_nil hv.reactors.natural
  have hcard := selectedCores_card hv.reactors.natural hv.reactors.nodup hbits
  refine ⟨digits, hmask, hcard, ?_, ?_⟩
  · rw [hcard]
    exact hv.ioThreads.2
  · intro k hk hsel
    exact hv.disjoint _ ((hbits k).1 hsel) hk

/-- A host with four CPUs on which every path names a file that holds an empty object. -/
def quadHost : Host where
  resolve path := some (if path.head? = some 47 then path else 47 :: path)
  isFile _ := true
  readText _ := some (text "\x7b\x7d")
  limit := 900
  affinity := [0, 1, 2, 3]
  resolve_absolute path resolved h := by
    cases h
    split
    · assumption
    · rfl

def parameters (reactorCpus : List Int) (memorySizeMb : Int) : List (Str × Json) :=
  [(text "spdk_json_config", .str (text "/etc/spdk.json")), (text "bdev_name", .str (text "Malloc0")),
    (text "spdk_reactor_cpus", .list (reactorCpus.map .int)), (text "connector_worker_cpus", .list [.int 0]),
    (text "spdk_io_thread_count", .int 1), (text "spdk_memory_size_mb", .int memorySizeMb)]

theorem ok_of_toOption {α ε : Type} {x : Except ε α} {a : α} (h : x.toOption = some a) : x = .ok a := by
  cases x with
  | error e => cases h
  | ok b => exact congrArg Except.ok (Option.some.inj h)

/-- A list with a repetition, and a configuration of two reactors. -/
theorem core_mask_exact_quad :
    (∃ digits, makeCoreMask [5, 0, 5] = .ok ("0x" ++ String.ofList digits) ∧
      ∀ k : Nat, (hexNumber digits).testBit k = true ↔ (k : Int) ∈ ([5, 0, 5] : List Int)) ∧
    makeCoreMask [5, 0, 5] = makeCoreMask [0, 5] ∧
    ∃ c digits, fromDict quadHost (parameters [3, 1] 1024) = .ok c ∧
      makeCoreMask c.spdkReactorCpus = .ok ("0x" ++ String.ofList digits) ∧
      c.spdkIoThreadCount ≤ (selectedCores digits).ncard := by
  obtain ⟨hmask, hset, hconfig⟩ := core_mask_exact
  obtain ⟨digits, hdigits, -, -, -, hbits⟩ := hmask [5, 0, 5] (by decide) (by decide)
  have haccepted : (fromDict quadHost (parameters [3, 1] 1024)).toOption.isSome = true := by decide +kernel
  obtain ⟨c, hc⟩ := Option.isSome_iff_exists.1 haccepted
  have hc := ok_of_toOption hc
  obtain ⟨digits', hdigits', -, hthreads, -⟩ := hconfig _ _ c hc
  refine ⟨⟨digits, hdigits, hbits⟩, hset _ _ (by decide) (by decide) fun cpu => ?_, c, digits', hc, hdigits', hthreads⟩
  simp only [List.mem_cons, List.not_mem_nil, or_false]
  omega

end Plugin
end SpdkConnector
