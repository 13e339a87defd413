import SpdkConnector.Segments
import SpdkConnector.Interleaving.Program
import Mathlib.Data.List.Dedup
import Mathlib.Data.List.Sort

/-!
# `SpdkConnector` (spdk_connector.cpp)

The connector's operations as programs over atomic commands on the state its worker threads share:
the map of key states, the entries, the mutexes, the page allocator and the device. A command is one
step of one thread: taking or leaving a mutex, the body of an allocator critical section, the
transfer of one segment.

| here | there |
| --- | --- |
| `Shared` | `key_states_`, the `KeyState`s, `allocator_` (:324-330), and the bytes of the bdev |
| `stateFor`, `statesFor`, `lockStates` | `StateFor`, `StatesFor`, `LockStates` (:255-289) |
| `writeBatch`, `readBatch` | `write_batch` / `read_batch`: admission check, `validate_item`, then every segment in any order, each with its own outcome |
| `doSingleGet` … `doBatchSet` | `do_single_get` … `do_batch_set` (:104-229) |

A failed write leaves arbitrary bytes in its own block range; a failed read copies nothing. `held`
is auxiliary: the extents each thread took from the allocator or from an entry and has not given on.
No command reads it.
-/

namespace SpdkConnector

open Interleaving

abbrev Key := Bytes

inductive Mutex where
  | keyStates
  | key (state : Nat)
  | allocator
deriving DecidableEq, Repr

/-- The order the locks are taken in: `key_states_mutex_`, key states by address, the allocator. -/
def Mutex.lt : Mutex → Mutex → Prop
  | .keyStates, .keyStates => False
  | .keyStates, _ => True
  | .key p, .key q => p < q
  | .key _, .allocator => True
  | _, _ => False

structure Shared where
  /-- `key_states_`: each key with the address of its `KeyState`. -/
  keyStates : List (Key × Nat)
  /-- `KeyState::entry` by address. -/
  entry : Nat → Option Entry
  owner : Mutex → Option Nat
  allocator : PageExtentAllocator
  dev : Nat → UInt8
  held : Nat → List PageExtent

/-! ## Device commands -/

/-- `block_offset` and `block_count` (spdk_bdev_context.cpp:834-835). -/
def blockOffset (g : StorageGeometry) (it : IoBatchItem) : Nat := it.byteOffset / g.blockSize
def blockCount (g : StorageGeometry) (it : IoBatchItem) : Nat := it.physicalLength / g.blockSize

/-- `a` is a byte of the blocks the command addresses. -/
def InBlocks (g : StorageGeometry) (it : IoBatchItem) (a : Nat) : Prop :=
  blockOffset g it * g.blockSize ≤ a ∧ a < (blockOffset g it + blockCount g it) * g.blockSize

instance (g : StorageGeometry) (it : IoBatchItem) (a : Nat) : Decidable (InBlocks g it a) :=
  inferInstanceAs (Decidable (_ ∧ _))

/-- The device after a write command: the staged bytes, or anything in its own blocks. -/
def writeBlocks (g : StorageGeometry) (it : IoBatchItem) (staged : Bytes) (success : Bool)
    (noise dev : Nat → UInt8) : Nat → UInt8 := fun a =>
  if InBlocks g it a then
    if success then staged.getD (a - blockOffset g it * g.blockSize) 0 else noise a
  else dev a

/-- The logical bytes a read command brings back. -/
def readBlocks (g : StorageGeometry) (it : IoBatchItem) (dev : Nat → UInt8) : Bytes :=
  (List.range it.logicalLength).map fun k => dev (blockOffset g it * g.blockSize + k)

/-! ## Commands -/

inductive Cmd where
  | lock (m : Mutex)
  | unlock (m : Mutex)
  /-- `key_states_[key]`, created when null (:257-259). -/
  | stateFor (key : Key)
  | getEntry (state : Nat)
  | setEntry (state : Nat) (entry : Option Entry)
  | allocate (pageCount : Nat)
  | release (extents : List PageExtent)
  /-- The availability check of `submit_batch_and_wait`. -/
  | enqueue
  /-- Which of `n` outstanding segments is transferred next. -/
  | pick (n : Nat)
  | writeSegment (item : IoBatchItem) (staged : Bytes)
  | readSegment (item : IoBatchItem)

def Answer : Cmd → Type
  | .lock _ | .unlock _ | .setEntry _ _ => Unit
  | .stateFor _ | .pick _ => Nat
  | .getEntry _ => Option Entry
  | .allocate _ => Except Exn (List PageExtent)
  | .release _ | .enqueue => Except Exn Unit
  | .writeSegment _ _ => IoResult
  | .readSegment _ => IoResult × Bytes

/-- What one command leaves open: the address of a new `KeyState`, a refused batch, the next
segment, the outcome of a transfer and the bytes a failed one leaves. -/
structure Choice where
  address : Nat := 0
  refusal : Option String := none
  index : Nat := 0
  success : Bool := true
  error : String := "SPDK bdev I/O failed"
  noise : Nat → UInt8 := fun _ => 0

/-- An address no live `KeyState` has. -/
def freshState (keyStates : List (Key × Nat)) (address : Nat) : Nat :=
  if address ∈ keyStates.map Prod.snd then (keyStates.map Prod.snd).foldr max 0 + 1 else address

def extentsOf (e : Option Entry) : List PageExtent := e.elim [] Entry.extents

def ioResult (ch : Choice) : IoResult := ⟨ch.success, if ch.success then "" else ch.error⟩

def exec (g : StorageGeometry) (t : Nat) : (c : Cmd) → Choice → Shared → Option (Answer c × Shared)
  | .lock m, _, s =>
    if s.owner m = none then some ((), { s with owner := Function.update s.owner m (some t) }) else none
  | .unlock m, _, s =>
    if s.owner m = some t then some ((), { s with owner := Function.update s.owner m none }) else none
  | .stateFor key, ch, s =>
    match s.keyStates.lookup key with
    | some p => some (p, s)
    | none =>
      let p := freshState s.keyStates ch.address
      some (p, { s with keyStates := (key, p) :: s.keyStates })
  | .getEntry p, _, s => some (s.entry p, s)
  | .setEntry p e, _, s =>
    some ((), { s with
      entry := Function.update s.entry p e
      held := Function.update s.held t ((s.held t).diff (extentsOf e) ++ extentsOf (s.entry p)) })
  | .allocate n, _, s =>
    match s.allocator.allocate n with
    | (.ok es, a) =>
      some (.ok es, { s with allocator := a, held := Function.update s.held t (s.held t ++ es) })
    | (.error x, a) => some (.error x, { s with allocator := a })
  | .release es, _, s =>
    match s.allocator.release es with
    | (.ok u, a) =>
      some (.ok u, { s with allocator := a, held := Function.update s.held t ((s.held t).diff es) })
    | (.error x, a) => some (.error x, { s with allocator := a })
  | .enqueue, ch, s =>
    match ch.refusal with
    | none => some (.ok (), s)
    | some what => some (.error ⟨.runtimeError, what⟩, s)
  | .pick n, ch, s => some (ch.index % n, s)
  | .writeSegment it staged, ch, s =>
    some (ioResult ch, { s with dev := writeBlocks g it staged ch.success ch.noise s.dev })
  | .readSegment it, ch, s => some ((ioResult ch, readBlocks g it s.dev), s)

/-! ## Locks and lookups -/

abbrev P := Prog Cmd Answer Exn

def perform (c : Cmd) : P (Answer c) := Prog.perform c

/-- `std::lock_guard<std::mutex> lock(m);` and the block it guards. -/
def withLock {α : Type} (m : Mutex) (p : P α) : P α := do
  perform (.lock m)
  p.finally' (perform (.unlock m))

/-- `StateFor` (:255). -/
def stateFor (key : Key) : P Nat := withLock .keyStates (perform (.stateFor key))

/-- `StatesFor` (:262). -/
def statesFor : List Key → P (List Nat)
  | [] => pure []
  | key :: keys => do
    let state ← stateFor key
    let states ← statesFor keys
    pure (state :: states)

/-- `std::sort` by address, then `std::unique` (:275-284). -/
def lockOrder (states : List Nat) : List Nat := (states.insertionSort (· ≤ ·)).dedup

def lockStates : List Nat → P Unit
  | [] => pure ()
  | p :: ps => do
    perform (.lock (.key p))
    lockStates ps

def unlockStates : List Nat → P Unit
  | [] => pure ()
  | p :: ps => do
    perform (.unlock (.key p))
    unlockStates ps

/-- `const auto locks = LockStates(states);` (:270) and the rest of the block. -/
def withStates {α : Type} (states : List Nat) (p : P α) : P α := do
  lockStates (lockOrder states)
  p.finally' (unlockStates (lockOrder states))

/-- `allocator_.allocate` under its mutex. -/
def allocatorAllocate (pageCount : Nat) : P (List PageExtent) :=
  withLock .allocator do
    let r : Except Exn (List PageExtent) ← perform (.allocate pageCount)
    Prog.ofExcept r

/-- `allocator_.release` under its mutex. -/
def allocatorRelease (extents : List PageExtent) : P Unit :=
  withLock .allocator do
    let r : Except Exn Unit ← perform (.release extents)
    Prog.ofExcept r

/-- `AllocateEntry` (:252). -/
def allocateEntry (g : StorageGeometry) (length : Nat) : P Entry := do
  let pages ← Prog.ofExcept (pagesForBytes g length)
  let extents ← allocatorAllocate pages
  pure ⟨length, extents⟩

/-! ## Batches of segments -/

/-- The caller buffer an item points into. -/
def itemBuffer (bufs : List Bytes) (it : IoBatchItem) : Bytes :=
  it.buffer.elim [] fun p => bufs.getD p.buffer []

def itemOffset (it : IoBatchItem) : Nat := it.buffer.elim 0 CallerPtr.offset

/-- `memset` and `memcpy` into the staging buffer (spdk_bdev_context.cpp:826-829). -/
def stage (bufs : List Bytes) (it : IoBatchItem) : Bytes :=
  ((itemBuffer bufs it).drop (itemOffset it)).take it.logicalLength ++
    List.replicate (it.physicalLength - it.logicalLength) 0

/-- `memcpy` of `bytes` to `offset` of a buffer. -/
def overwrite (buf : Bytes) (offset : Nat) (bytes : Bytes) : Bytes :=
  buf.take offset ++ bytes ++ buf.drop (offset + bytes.length)

/-- `memcpy` out of the staging buffer (spdk_bdev_context.cpp:913). -/
def copyOut (bufs : List Bytes) (it : IoBatchItem) (bytes : Bytes) : List Bytes :=
  it.buffer.elim bufs fun p => bufs.modify p.buffer fun b => overwrite b p.offset bytes

/-- The outstanding segments are transferred one after the other, in any order. -/
def runSegments (op : Operation) : Nat → List (IoBatchItem × Nat) → List IoResult → List Bytes →
    P (List IoResult × List Bytes)
  | 0, _, results, bufs => pure (results, bufs)
  | n + 1, pending, results, bufs => do
    let i : Nat ← perform (.pick (n + 1))
    match pending[i]? with
    | none => pure (results, bufs)
    | some (it, index) =>
      match op with
      | .write => do
        let r : IoResult ← perform (.writeSegment it (stage bufs it))
        runSegments op n (pending.eraseIdx i) (results.set index r) bufs
      | .read => do
        let r : IoResult × Bytes ← perform (.readSegment it)
        runSegments op n (pending.eraseIdx i) (results.set index r.1)
          (if r.1.success then copyOut bufs it r.2 else bufs)

/-- `submit_batch_and_wait` as its caller sees it (spdk_bdev_context.cpp:677-750): nothing, or a
refusal, or one result per item. -/
def submitBatchAndWait (g : StorageGeometry) (op : Operation) (items : List IoBatchItem)
    (bufs : List Bytes) : P (List IoResult × List Bytes) :=
  if items = [] then pure ([], bufs)
  else do
    let admitted : Except Exn Unit ← perform .enqueue
    Prog.ofExcept admitted
    Prog.ofExcept (items.forM (validateItem g))
    runSegments op items.length items.zipIdx (items.map fun _ => ⟨false, ""⟩) bufs

def writeBatch (g : StorageGeometry) := submitBatchAndWait g .write
def readBatch (g : StorageGeometry) := submitBatchAndWait g .read

/-- `RequireSuccess` (spdk_pybind_common.cpp:59). -/
def requireSuccess (operation : String) : List IoResult → Except Exn Unit
  | [] => .ok ()
  | r :: rs =>
    if r.success then requireSuccess operation rs
    else .error ⟨.runtimeError, operation ++ " failed: " ++ r.error⟩

/-- `Write` (spdk_connector.cpp:321). -/
def write (g : StorageGeometry) (entry : Entry) (value : Bytes) : P Unit := do
  let items ← Prog.ofExcept (appendSegments g entry 0)
  let r ← writeBatch g items [value]
  Prog.ofExcept (requireSuccess "bdev write" r.1)

/-- `Read` (:326): the filled buffer. -/
def read (g : StorageGeometry) (entry : Entry) (buffer : Bytes) : P Bytes := do
  let items ← Prog.ofExcept (appendSegments g entry 0)
  let r ← readBatch g items [buffer]
  Prog.ofExcept (requireSuccess "bdev read" r.1)
  pure (r.2.getD 0 [])

/-! ## The operations -/

/-- One key of a `connector::Request` with the buffer that goes with it. -/
structure Slot where
  key : Key
  buffer : Bytes
deriving DecidableEq

inductive Call where
  | get (key : Key) (buffer : Bytes)
  | set (key : Key) (value : Bytes)
  | exists' (key : Key)
  | delete (key : Key)
  | batchGet (slots : List Slot) (startIdx : Nat) (perKeyResults : List UInt8)
  | batchSet (slots : List Slot)
deriving DecidableEq

/-- What an operation gives back: the filled buffer of a get; for a batch get the written
`per_key_results` and the buffers. -/
inductive Ret where
  | unit
  | bool (b : Bool)
  | bytes (buffer : Bytes)
  | batch (perKeyResults : List UInt8) (buffers : List Bytes)
deriving DecidableEq

def missing : Exn := ⟨.runtimeError, "key is missing or destination size does not match"⟩
def emptyValue : Exn := ⟨.invalidArgument, "values must not be empty"⟩
def duplicateKey : Exn := ⟨.invalidArgument, "batch store contains a duplicate key"⟩

/-- `do_single_get` (spdk_connector.cpp:104). -/
def doSingleGet (g : StorageGeometry) (key : Key) (buffer : Bytes) : P Ret := do
  let state ← stateFor key
  withLock (.key state) do
    let entry : Option Entry ← perform (.getEntry state)
    match entry with
    | none => .throw missing
    | some e =>
      if buffer.length ≠ e.logicalSize then .throw missing
      else do
        let b ← read g e buffer
        pure (.bytes b)

/-- The bound entry has another size (:120, :186). -/
def sizeDiffers (entry : Option Entry) (length : Nat) : Bool :=
  entry.any fun e => e.logicalSize != length

/-- `do_single_set` (:114). -/
def doSingleSet (g : StorageGeometry) (key : Key) (value : Bytes) : P Ret :=
  if value.length = 0 then .throw emptyValue
  else do
    let state ← stateFor key
    withLock (.key state) do
      let entry : Option Entry ← perform (.getEntry state)
      if sizeDiffers entry value.length then pure .unit
      else do
        let replacement ← allocateEntry g value.length
        (write g replacement value).tryCatch fun e => do
          allocatorRelease replacement.extents
          .throw e
        let previous : Option Entry ← perform (.getEntry state)
        let _ ← perform (.setEntry state (some replacement))
        match previous with
        | none => pure .unit
        | some p => do
          allocatorRelease p.extents
          pure .unit

/-- `do_single_exists` (:213). -/
def doSingleExists (key : Key) : P Ret := do
  let state ← stateFor key
  withLock (.key state) do
    let entry : Option Entry ← perform (.getEntry state)
    pure (.bool entry.isSome)

/-- `do_single_delete` (:219). -/
def doSingleDelete (key : Key) : P Ret := do
  let state ← stateFor key
  withLock (.key state) do
    let entry : Option Entry ← perform (.getEntry state)
    match entry with
    | none => pure (.bool false)
    | some e => do
      let _ ← perform (.setEntry state none)
      allocatorRelease e.extents
      pure (.bool true)

/-- A key of a batch with the address of its `KeyState`, its position and its buffer. -/
structure Located where
  index : Nat
  state : Nat
  slot : Slot

def locate (slots : List Slot) (states : List Nat) : List Located :=
  (slots.zip states).zipIdx.map fun x => ⟨x.2, x.1.2, x.1.1⟩

/-- The segments of the keys that can be read, the key of each segment, and the initial `success`
vector (:139-150). -/
def gatherGets (g : StorageGeometry) : List Located → P (List IoBatchItem × List Nat × List Bool)
  | [] => pure ([], [], [])
  | l :: ls => do
    let entry : Option Entry ← perform (.getEntry l.state)
    match entry with
    | none => do
      let r ← gatherGets g ls
      pure (r.1, r.2.1, false :: r.2.2)
    | some e =>
      if l.slot.buffer.length ≠ e.logicalSize then do
        let r ← gatherGets g ls
        pure (r.1, r.2.1, false :: r.2.2)
      else do
        let items ← Prog.ofExcept (appendSegments g e l.index)
        let r ← gatherGets g ls
        pure (items ++ r.1, items.map (fun _ => l.index) ++ r.2.1, true :: r.2.2)

/-- A failed segment fails its key (:157-159). -/
def markFailures (success : List Bool) : List (IoResult × Nat) → List Bool
  | [] => success
  | (r, key) :: rs => markFailures (if r.success then success else success.set key false) rs

/-- Writing the flags at `start_idx` (:164-166). -/
def writeResults (perKeyResults : List UInt8) (startIdx : Nat) : List Bool → List UInt8
  | [] => perKeyResults
  | b :: bs => writeResults (perKeyResults.set startIdx (if b then 1 else 0)) (startIdx + 1) bs

/-- `do_batch_get` (:135). -/
def doBatchGet (g : StorageGeometry) (slots : List Slot) (startIdx : Nat)
    (perKeyResults : List UInt8) : P Ret := do
  let states ← statesFor (slots.map Slot.key)
  withStates states do
    let (items, itemToKey, success) ← gatherGets g (locate slots states)
    let buffers := slots.map Slot.buffer
    let r ← Prog.tryCatch
      (do
        let r ← readBatch g items buffers
        if r.1.length ≠ items.length then
          .throw ⟨.runtimeError, "bdev read batch returned an unexpected result count"⟩
        else pure (markFailures success (r.1.zip itemToKey), r.2))
      (fun _ => pure (success.map fun _ => false, buffers))
    pure (.batch (writeResults perKeyResults startIdx r.1) r.2)

/-- `Reservation` (:241). -/
structure Reservation where
  index : Nat
  state : Nat
  entry : Entry
  previous : Option Entry

/-- The reservation loop inside the `try` (:177-192): the exception it ends with, if any, and what
it had reserved by then. -/
def reserveAll (g : StorageGeometry) : List Located → List Key → List Reservation →
    List IoBatchItem → P (Option Exn × List Reservation × List IoBatchItem)
  | [], _, reservations, items => pure (none, reservations, items)
  | l :: ls, keys, reservations, items =>
    if l.slot.key ∈ keys then pure (some duplicateKey, reservations, items)
    else if l.slot.buffer.length = 0 then pure (some emptyValue, reservations, items)
    else do
      let current : Option Entry ← perform (.getEntry l.state)
      if sizeDiffers current l.slot.buffer.length then
        reserveAll g ls (l.slot.key :: keys) reservations items
      else
        Prog.bind ((allocateEntry g l.slot.buffer.length |>.bind fun e => pure (Except.ok e)).tryCatch
            fun x => pure (Except.error x)) fun
          | .error x => pure (some x, reservations, items)
          | .ok e =>
            let reservations := reservations ++ [⟨l.index, l.state, e, current⟩]
            match appendSegments g e l.index with
            | .error x => pure (some x, reservations, items)
            | .ok segments => reserveAll g ls (l.slot.key :: keys) reservations (items ++ segments)

/-- The physical writes inside the `try` (:193-201). -/
def writeAll (g : StorageGeometry) (items : List IoBatchItem) (buffers : List Bytes) : P Unit :=
  if items = [] then pure ()
  else do
    let r ← writeBatch g items buffers
    if r.1.length ≠ items.length then
      .throw ⟨.runtimeError, "bdev write batch returned an unexpected result count"⟩
    else Prog.ofExcept (requireSuccess "bdev write batch" r.1)

def releaseAll : List (List PageExtent) → P Unit
  | [] => pure ()
  | es :: rest => do
    allocatorRelease es
    releaseAll rest

/-- `states[reservation.index]->entry = std::move(reservation.entry)` (:208-209). -/
def publishAll : List Reservation → P Unit
  | [] => pure ()
  | r :: rs => do
    let _ ← perform (.setEntry r.state (some r.entry))
    publishAll rs

/-- `do_batch_set` (:170). -/
def doBatchSet (g : StorageGeometry) (slots : List Slot) : P Ret := do
  let states ← statesFor (slots.map Slot.key)
  withStates states do
    let (failed, reservations, items) ← reserveAll g (locate slots states) [] [] []
    let unreserve (x : Exn) : P Unit := do
      releaseAll (reservations.map fun r => r.entry.extents)
      .throw x
    match failed with
    | some x => unreserve x
    | none => (writeAll g items (slots.map Slot.buffer)).tryCatch unreserve
    publishAll reservations
    releaseAll (reservations.filterMap fun r => r.previous.map Entry.extents)
    pure .unit

def body (g : StorageGeometry) : Call → P Ret
  | .get key buffer => doSingleGet g key buffer
  | .set key value => doSingleSet g key value
  | .exists' key => doSingleExists key
  | .delete key => doSingleDelete key
  | .batchGet slots startIdx perKeyResults => doBatchGet g slots startIdx perKeyResults
  | .batchSet slots => doBatchSet g slots

/-- The connector over a device of geometry `g`. -/
def connector (g : StorageGeometry) : Machine Shared Call Cmd Answer Exn Ret Choice where
  exec := exec g
  body := body g

/-- After the constructor: no key, no lock held, every page free, any bytes on the device. -/
def Shared.init (a : PageExtentAllocator) (dev : Nat → UInt8) : Shared :=
  ⟨[], fun _ => none, fun _ => none, a, dev, fun _ => []⟩

end SpdkConnector
